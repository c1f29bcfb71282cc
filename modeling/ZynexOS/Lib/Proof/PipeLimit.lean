import ZynexOS.Lib.Proof.PipeFifo

/-!
# How long a pipe works

With byte number `2^31`, `p_wpos` becomes negative, and the full test takes it for a large number.
-/

namespace ZynexOS

namespace PipeSys

open Pipe

variable {s : PipeSys}

structure At (s : PipeSys) (rpos wpos : Int) (read written : Nat) : Prop where
  reaches : s.Reaches
  readerIdle : s.reader = .idle
  writerIdle : s.writer = .idle
  rpos : s.pipe.rpos = rpos
  wpos : s.pipe.wpos = wpos
  read : s.read = read
  written : s.written = written

theorem At.writeByte {rpos wpos : Int} {read written : Nat} (h : s.At rpos wpos read written)
    (hroom : full rpos wpos = false) (hslot : InBuf (slot wpos)) :
    ∃ s' : PipeSys, s'.At rpos (int32 (wpos + 1)) read (written + 1) := by
  obtain ⟨hreach, hreader, hwriter, rfl, rfl, rfl, rfl⟩ := h
  have hrun : [PipeEvent.callWrite [0], .writer, .writer, .writer, .writer, .writer, .writer].foldlM
      PipeSys.exec s = some { s with
        pipe := { s.pipe with
          wpos := int32 (s.pipe.wpos + 1)
          buf := Function.update s.pipe.buf (slot s.pipe.wpos).toNat 0 }
        given := s.given ++ [0]
        written := s.written + 1 } := by
    simp [PipeSys.exec, writeStep, writeNext, hwriter, hroom, hslot]
  exact ⟨_, hreach.run hrun, hreader, hwriter, rfl, rfl, rfl, rfl⟩

theorem At.readByte {rpos wpos : Int} {read written : Nat} (h : s.At rpos wpos read written)
    (hpending : empty rpos wpos = false) (hslot : InBuf (slot rpos)) :
    ∃ s' : PipeSys, s'.At (int32 (rpos + 1)) wpos (read + 1) written := by
  obtain ⟨hreach, hreader, hwriter, rfl, rfl, rfl, rfl⟩ := h
  have hrun : [PipeEvent.callRead 1, .reader, .reader, .reader, .reader, .reader, .reader,
      .reader].foldlM PipeSys.exec s = some { s with
        pipe := { s.pipe with rpos := int32 (s.pipe.rpos + 1) }
        stored := s.stored ++ [s.pipe.buf (slot s.pipe.rpos).toNat]
        read := s.read + 1 } := by
    simp [PipeSys.exec, readStep, readNext, hreader, hpending, hslot]
  exact ⟨_, hreach.run hrun, hreader, hwriter, rfl, rfl, rfl, rfl⟩

theorem exists_at {n : Nat} (hn : n < 2 ^ 31) : ∃ s : PipeSys, s.At n n n n := by
  induction n with
  | zero => exact ⟨start, .start rfl, rfl, rfl, rfl, rfl, rfl, rfl⟩
  | succ n ih =>
      obtain ⟨s, hs⟩ := ih (by omega)
      have hroom : full n n = false := by
        rw [Bool.eq_false_iff, Ne, full_natCast le_rfl (by omega), pipeBufSiz]
        omega
      obtain ⟨s₁, hs₁⟩ := hs.writeByte hroom (inBuf_slot_natCast n)
      rw [int32_succ hn] at hs₁
      have hpending : empty n (n + 1 : Nat) = false := by
        rw [Bool.eq_false_iff, Ne, empty_natCast]
        omega
      obtain ⟨s₂, hs₂⟩ := hs₁.readByte hpending (inBuf_slot_natCast n)
      rw [int32_succ hn] at hs₂
      exact ⟨s₂, hs₂⟩

theorem exists_wrapped : ∃ s : PipeSys, s.At (2 ^ 31 - 1) (-2 ^ 31) (2 ^ 31 - 1) (2 ^ 31) := by
  obtain ⟨s, hs⟩ := exists_at (n := 2 ^ 31 - 1) (by norm_num)
  have hroom : full (2 ^ 31 - 1 : Nat) (2 ^ 31 - 1 : Nat) = false := by decide
  obtain ⟨s', hs'⟩ := hs.writeByte hroom (inBuf_slot_natCast _)
  exact ⟨s', hs'⟩

theorem full_wrapped : full (2 ^ 31 - 1) (-2 ^ 31) = true := by decide

/-- The writer blocks with one byte pending. -/
theorem pipe_blocks_early : ∃ s : PipeSys, s.Reaches ∧ s.written = 2 ^ 31 ∧ s.read = 2 ^ 31 - 1 ∧
    full s.pipe.rpos s.pipe.wpos = true := by
  obtain ⟨s, hs⟩ := exists_wrapped
  refine ⟨s, hs.reaches, hs.written, hs.read, ?_⟩
  rw [hs.rpos, hs.wpos]
  exact full_wrapped

/-- The counters of a pipe are right in every run that writes at most `n` bytes exactly if `n` is less
than `2^31`. -/
theorem pipe_length_limit (n : Nat) :
    (∀ s : PipeSys, s.Reaches → s.written ≤ n → s.CountersRight) ↔ n < 2 ^ 31 := by
  constructor
  · intro h
    by_contra hn
    obtain ⟨s, hs⟩ := exists_wrapped
    have hright := h s hs.reaches (by rw [hs.written]; omega)
    have hpending := hright.full.mp (by rw [hs.rpos, hs.wpos]; exact full_wrapped)
    rw [hs.written, hs.read, pipeBufSiz] at hpending
    omega
  · intro hn s hreach hw
    have hw' := lt_of_le_of_lt hw hn
    exact (hreach.sound hw').countersRight hw'

end PipeSys

end ZynexOS
