import ZynexOS.Lib.Pipe

/-!
# A pipe is a queue of bytes

Each end only moves its own counter, so what an end has loaded of the other's counter stays a bound.
The counters wrap around at `2^31`.
-/

namespace ZynexOS

open Function

namespace Pipe

theorem slot_natCast (n : Nat) : slot n = (n % pipeBufSiz : Nat) := by
  rw [slot, Int.tmod_eq_emod_of_nonneg (Int.natCast_nonneg n), Int.natCast_mod]

theorem inBuf_slot_natCast (n : Nat) : InBuf (slot n) := by
  rw [slot_natCast]
  have := Nat.mod_lt n (show 0 < pipeBufSiz by decide)
  exact ⟨Int.natCast_nonneg _, by exact_mod_cast this⟩

theorem empty_natCast (r w : Nat) : empty r w = true ↔ r = w := by
  simp [empty]

theorem full_natCast {r w : Nat} (hr : r ≤ w) (hw : w < 2 ^ 31) :
    full r w = true ↔ r + pipeBufSiz ≤ w := by
  rw [full, decide_eq_true_iff]
  simp only [uint64, pipeBufSiz]
  omega

theorem int32_succ {n : Nat} (hn : n + 1 < 2 ^ 31) : int32 ((n : Int) + 1) = (n + 1 : Nat) := by
  simp only [int32]
  omega

theorem slot_ne {k n : Nat} (hlt : k < n) (hnear : n < k + pipeBufSiz) :
    k % pipeBufSiz ≠ n % pipeBufSiz := by
  simp only [pipeBufSiz] at hnear ⊢
  omega

end Pipe

namespace PipeSys

open Pipe
variable {stored given data : List (BitVec 8)} {read written i : Nat} {pc : ReadPc} {live : Prop}

/-- What the reader knows at each place. Up to its store into the caller's buffer, as many bytes are
stored as `p_rpos` counts, and from there on until the increment one more. -/
def ReaderAt (stored given : List (BitVec 8)) (read written : Nat) : ReadPc → Prop
  | .idle | .test _ _ | .empty _ _ => stored.length = read
  | .compare _ _ rpos => stored.length = read ∧ rpos = read
  | .index _ _ => stored.length = read ∧ read < written
  | .fetch _ _ rpos => stored.length = read ∧ rpos = read ∧ read < written
  | .store _ _ byte => stored.length = read ∧ read < written ∧ given[read]? = some byte
  | .bump _ _ => stored.length = read + 1 ∧ read < written
  | .bumped _ _ rpos => stored.length = read + 1 ∧ rpos = read ∧ read < written
  | .lost => False
  | .gone => True

/-- The bytes of the call from `i` on are the bytes given and not yet written, unless the reader is
gone and earlier calls were cut short. -/
def Remains (live : Prop) (given : List (BitVec 8)) (written : Nat) (data : List (BitVec 8))
    (i : Nat) : Prop :=
  i < data.length ∧ (live → given.drop written = data.drop i)

def WriterAt (live : Prop) (given : List (BitVec 8)) (buf : Nat → BitVec 8) (read written : Nat) :
    WritePc → Prop
  | .idle => live → given.length = written
  | .test data i | .full data i => Remains live given written data i
  | .compare data i wpos => Remains live given written data i ∧ wpos = written
  | .index data i => Remains live given written data i ∧ written < read + pipeBufSiz
  | .fill data i wpos =>
      Remains live given written data i ∧ wpos = written ∧ written < read + pipeBufSiz
  | .bump data i =>
      Remains live given written data i ∧ written < read + pipeBufSiz ∧
        (live → given[written]? = some (buf (written % pipeBufSiz)))
  | .bumped data i wpos =>
      Remains live given written data i ∧ wpos = written ∧ written < read + pipeBufSiz ∧
        (live → given[written]? = some (buf (written % pipeBufSiz)))
  | .lost => False
  | .gone => True

def Live (s : PipeSys) : Prop := s.reader ≠ .gone

structure Sound (s : PipeSys) : Prop where
  rpos : s.pipe.rpos = s.read
  wpos : s.pipe.wpos = s.written
  le : s.read ≤ s.written
  near : s.written ≤ s.read + pipeBufSiz
  inOrder : s.stored <+: s.given
  pending : s.Live → ∀ k, s.read ≤ k → k < s.written →
    s.given[k]? = some (s.pipe.buf (k % pipeBufSiz))
  reader : ReaderAt s.stored s.given s.read s.written s.reader
  writer : WriterAt s.Live s.given s.pipe.buf s.read s.written s.writer

variable {s s' : PipeSys}

theorem ReaderAt.mono {given' : List (BitVec 8)} {written' : Nat}
    (h : ReaderAt stored given read written pc) (hgiven : given <+: given')
    (hwritten : written ≤ written') : ReaderAt stored given' read written' pc := by
  cases pc with
  | store n i byte =>
      obtain ⟨hstored, hlt, hbyte⟩ := h
      obtain ⟨rest, rfl⟩ := hgiven
      refine ⟨hstored, by omega, ?_⟩
      rw [List.getElem?_append_left (List.getElem?_eq_some_iff.mp hbyte).1]
      exact hbyte
  | index n i => exact ⟨h.1, by have := h.2; omega⟩
  | fetch n i rpos => exact ⟨h.1, h.2.1, by have := h.2.2; omega⟩
  | bump n i => exact ⟨h.1, by have := h.2; omega⟩
  | bumped n i rpos => exact ⟨h.1, h.2.1, by have := h.2.2; omega⟩
  | _ => exact h

theorem WriterAt.mono {live' : Prop} {buf : Nat → BitVec 8}
    {read' : Nat} {pc : WritePc} (h : WriterAt live given buf read written pc)
    (hlive : live' → live) (hread : read ≤ read') : WriterAt live' given buf read' written pc := by
  have remains {data : List (BitVec 8)} {i : Nat} (h : Remains live given written data i) :
      Remains live' given written data i := ⟨h.1, h.2 ∘ hlive⟩
  cases pc with
  | idle => exact fun h' => h (hlive h')
  | test data i => exact remains h
  | full data i => exact remains h
  | compare data i wpos => exact ⟨remains h.1, h.2⟩
  | index data i => exact ⟨remains h.1, by have := h.2; omega⟩
  | fill data i wpos => exact ⟨remains h.1, h.2.1, by have := h.2.2; omega⟩
  | bump data i => exact ⟨remains h.1, by have := h.2.1; omega, h.2.2 ∘ hlive⟩
  | bumped data i wpos => exact ⟨remains h.1, h.2.1, by have := h.2.2.1; omega, h.2.2.2 ∘ hlive⟩
  | lost => exact h
  | gone => trivial

theorem Sound.setReader (h : s.Sound)
    (hpc : ReaderAt s.stored s.given s.read s.written pc) (hlive : pc ≠ .gone → s.Live) :
    ({ s with reader := pc } : PipeSys).Sound :=
  ⟨h.rpos, h.wpos, h.le, h.near, h.inOrder, fun hl => h.pending (hlive hl), hpc,
    h.writer.mono hlive le_rfl⟩

theorem Sound.setWriter (h : s.Sound) {pc : WritePc}
    (hpc : WriterAt s.Live s.given s.pipe.buf s.read s.written pc) :
    ({ s with writer := pc } : PipeSys).Sound :=
  ⟨h.rpos, h.wpos, h.le, h.near, h.inOrder, h.pending, h.reader, hpc⟩

theorem readerAt_readNext {n : Nat}
    (h : stored.length = read) : ReaderAt stored given read written (readNext n i) := by
  unfold readNext
  split
  · exact h
  · exact h

theorem writerAt_writeNext {buf : Nat → BitVec 8} (h : live → given.drop written = data.drop i)
    (hwritten : live → written ≤ given.length) :
    WriterAt live given buf read written (writeNext data i) := by
  unfold writeNext
  split
  · rename_i hi
    exact ⟨hi, h⟩
  · rename_i hi
    intro hl
    have hlength := congrArg List.length (h hl)
    rw [List.length_drop, List.length_drop] at hlength
    have := hwritten hl
    omega

theorem prefix_snoc {byte : BitVec 8} (h : stored <+: given)
    (hbyte : given[stored.length]? = some byte) : stored ++ [byte] <+: given := by
  obtain ⟨rest, rfl⟩ := h
  rw [List.getElem?_append_right le_rfl, Nat.sub_self] at hbyte
  cases rest with
  | nil => simp at hbyte
  | cons b rest =>
      obtain rfl : b = byte := by simpa using hbyte
      exact ⟨rest, by simp⟩

theorem live_of_reader (h : s.reader = pc) (hpc : pc ≠ .gone) : s.Live := by
  rw [Live, h]
  exact hpc

theorem Sound.readStep (h : s.Sound) (hw : s.written < 2 ^ 31) (hstep : s.readStep = some s') :
    s'.Sound := by
  have hat := h.reader
  unfold PipeSys.readStep at hstep
  split at hstep <;> rename_i hpc
  case h_1 n i =>
      rw [hpc] at hat
      cases hstep
      exact h.setReader ⟨hat, h.rpos⟩ fun _ => live_of_reader hpc nofun
  case h_2 n i rpos =>
      rw [hpc] at hat
      obtain ⟨hstored, rfl⟩ := hat
      cases hstep
      refine h.setReader ?_ fun _ => live_of_reader hpc nofun
      rw [h.wpos]
      split
      · exact hstored
      · rename_i hne
        have := h.le
        rw [empty_natCast] at hne
        exact ⟨hstored, by omega⟩
  case h_3 n i =>
      rw [hpc] at hat
      cases hstep
      refine h.setReader ?_ fun _ => live_of_reader hpc nofun
      split
      · exact hat
      · exact hat
  case h_4 n i =>
      rw [hpc] at hat
      cases hstep
      exact h.setReader ⟨hat.1, h.rpos, hat.2⟩ fun _ => live_of_reader hpc nofun
  case h_5 n i rpos =>
      rw [hpc] at hat
      obtain ⟨hstored, rfl, hlt⟩ := hat
      cases hstep
      refine h.setReader ?_ fun _ => live_of_reader hpc nofun
      rw [if_pos (inBuf_slot_natCast _), slot_natCast, Int.toNat_natCast]
      exact ⟨hstored, hlt, h.pending (live_of_reader hpc nofun) _ le_rfl hlt⟩
  case h_6 n i byte =>
      rw [hpc] at hat
      obtain ⟨hstored, hlt, hbyte⟩ := hat
      cases hstep
      have hlive : s.Live := live_of_reader hpc nofun
      refine ⟨h.rpos, h.wpos, h.le, h.near, ?_, fun _ => h.pending hlive, ?_,
        h.writer.mono (fun _ => hlive) le_rfl⟩
      · rw [← hstored] at hbyte
        exact prefix_snoc h.inOrder hbyte
      · exact ⟨by simp [hstored], hlt⟩
  case h_7 n i =>
      rw [hpc] at hat
      cases hstep
      exact h.setReader ⟨hat.1, h.rpos, hat.2⟩ fun _ => live_of_reader hpc nofun
  case h_8 n i rpos =>
      rw [hpc] at hat
      obtain ⟨hstored, rfl, hlt⟩ := hat
      have hlive : s.Live := live_of_reader hpc nofun
      have hrpos : int32 ((s.read : Int) + 1) = (s.read + 1 : Nat) := int32_succ (by omega)
      rw [hrpos] at hstep
      cases hstep
      have hnear : s.written ≤ s.read + 1 + pipeBufSiz := le_trans h.near (by omega)
      exact ⟨rfl, h.wpos, hlt, hnear, h.inOrder,
        fun _ k hk => h.pending hlive k (Nat.le_of_succ_le hk),
        readerAt_readNext hstored, h.writer.mono (fun _ => hlive) (Nat.le_succ _)⟩
  all_goals cases hstep

theorem Remains.byte (h : Remains live given written data i) (hlive : live) :
    given[written]? = some (data.getD i 0) := by
  have := congrArg (·[0]?) (h.2 hlive)
  simpa [List.getElem?_drop, List.getD_eq_getElem?_getD, h.1] using this

theorem Remains.next (h : Remains live given written data i) (hlive : live) :
    given.drop (written + 1) = data.drop (i + 1) := by
  rw [← List.drop_drop, ← List.drop_drop, h.2 hlive]

theorem Sound.writeStep (h : s.Sound) (hw : s'.written < 2 ^ 31) (hstep : s.writeStep = some s') :
    s'.Sound := by
  have hat := h.writer
  unfold PipeSys.writeStep at hstep
  split at hstep <;> rename_i hpc
  case h_1 data i =>
      rw [hpc] at hat
      cases hstep
      exact h.setWriter ⟨hat, h.wpos⟩
  case h_2 data i wpos =>
      rw [hpc] at hat
      obtain ⟨hremains, rfl⟩ := hat
      cases hstep
      apply h.setWriter
      rw [h.rpos]
      split
      · exact hremains
      · rename_i hroom
        rw [full_natCast h.le hw] at hroom
        exact ⟨hremains, by omega⟩
  case h_3 data i =>
      rw [hpc] at hat
      cases hstep
      apply h.setWriter
      split
      · rename_i hgone
        exact fun hlive => absurd hgone hlive
      · exact hat
  case h_4 data i =>
      rw [hpc] at hat
      cases hstep
      exact h.setWriter ⟨hat.1, h.wpos, hat.2⟩
  case h_5 data i wpos =>
      rw [hpc] at hat
      obtain ⟨hremains, rfl, hroom⟩ := hat
      rw [if_pos (inBuf_slot_natCast _), slot_natCast, Int.toNat_natCast] at hstep
      cases hstep
      refine ⟨h.rpos, h.wpos, h.le, h.near, h.inOrder, fun hlive k hk hkw => ?_, h.reader, hremains,
        hroom, fun hlive => ?_⟩
      · -- The slot of an unread position is another one.
        have hslot : k % pipeBufSiz ≠ s.written % pipeBufSiz :=
          slot_ne hkw (lt_of_lt_of_le hroom (Nat.add_le_add_right hk _))
        show s.given[k]? = some (update s.pipe.buf _ _ _)
        rw [update_of_ne hslot]
        exact h.pending hlive k hk hkw
      · show s.given[s.written]? = some (update s.pipe.buf _ _ _)
        rw [update_self]
        exact hremains.byte hlive
  case h_6 data i =>
      rw [hpc] at hat
      cases hstep
      exact h.setWriter ⟨hat.1, h.wpos, hat.2⟩
  case h_7 data i wpos =>
      rw [hpc] at hat
      obtain ⟨hremains, rfl, hroom, hbyte⟩ := hat
      have hlt : s.written + 1 < 2 ^ 31 := by
        rw [← Option.some.inj hstep] at hw
        exact hw
      rw [int32_succ hlt] at hstep
      cases hstep
      refine ⟨h.rpos, rfl, Nat.le_succ_of_le h.le, hroom, h.inOrder,
        fun hlive k hk hkw => ?_, h.reader.mono List.prefix_rfl (Nat.le_succ _),
        writerAt_writeNext hremains.next fun hlive => ?_⟩
      · rcases Nat.lt_succ_iff_lt_or_eq.mp hkw with hlt | rfl
        · exact h.pending hlive k hk hlt
        · exact hbyte hlive
      · exact (List.getElem?_eq_some_iff.mp (hbyte hlive)).1
  all_goals cases hstep

theorem Sound.callWrite (h : s.Sound) (hidle : s.writer = .idle) (data : List (BitVec 8)) :
    ({ s with writer := writeNext data 0, given := s.given ++ data } : PipeSys).Sound := by
  have hat := h.writer
  rw [hidle] at hat
  refine ⟨h.rpos, h.wpos, h.le, h.near, h.inOrder.trans (List.prefix_append _ _),
    fun hlive k hk hkw => ?_, h.reader.mono (List.prefix_append _ _) le_rfl,
    writerAt_writeNext (fun hlive => ?_) fun hlive => ?_⟩
  · have hold := h.pending hlive k hk hkw
    simp only
    rw [List.getElem?_append_left (List.getElem?_eq_some_iff.mp hold).1]
    exact hold
  · simp only
    rw [List.drop_left' (hat hlive), List.drop_zero]
  · simp only [List.length_append]
    have := hat hlive
    omega

theorem written_le_of_exec {event : PipeEvent} (hstep : s.exec event = some s') :
    s.written ≤ s'.written := by
  cases event with
  | reader =>
      simp only [PipeSys.exec, PipeSys.readStep] at hstep
      split at hstep <;> cases hstep <;> exact le_rfl
  | writer =>
      simp only [PipeSys.exec, PipeSys.writeStep] at hstep
      split at hstep
      case h_5 => split at hstep <;> cases hstep <;> exact le_rfl
      case h_7 =>
          cases hstep
          exact Nat.le_succ _
      all_goals cases hstep <;> exact le_rfl
  | callRead n =>
      simp only [PipeSys.exec, Option.ite_none_right_eq_some, Option.some.injEq] at hstep
      exact hstep.2 ▸ le_rfl
  | callWrite data =>
      simp only [PipeSys.exec, Option.ite_none_right_eq_some, Option.some.injEq] at hstep
      exact hstep.2 ▸ le_rfl
  | closeRead => cases hstep; exact le_rfl
  | closeWrite => cases hstep; exact le_rfl

theorem Sound.exec (h : s.Sound) {event : PipeEvent} (hw : s'.written < 2 ^ 31)
    (hstep : s.exec event = some s') : s'.Sound := by
  cases event with
  | callRead n =>
      simp only [PipeSys.exec, Option.ite_none_right_eq_some, Option.some.injEq] at hstep
      obtain ⟨hidle, rfl⟩ := hstep
      have hat := h.reader
      rw [hidle] at hat
      exact h.setReader (readerAt_readNext hat) fun _ => live_of_reader hidle nofun
  | callWrite data =>
      simp only [PipeSys.exec, Option.ite_none_right_eq_some, Option.some.injEq] at hstep
      obtain ⟨hidle, rfl⟩ := hstep
      exact h.callWrite hidle data
  | reader => exact h.readStep (lt_of_le_of_lt (written_le_of_exec hstep) hw) hstep
  | writer => exact h.writeStep hw hstep
  | closeRead =>
      cases hstep
      exact h.setReader trivial fun hgone => absurd rfl hgone
  | closeWrite =>
      cases hstep
      exact h.setWriter trivial

theorem sound_start : start.Sound where
  rpos := rfl
  wpos := rfl
  le := le_rfl
  near := Nat.zero_le _
  inOrder := List.prefix_rfl
  pending _ k _ hk := absurd hk (Nat.not_lt_zero k)
  reader := rfl
  writer _ := rfl

theorem Reaches.sound (hreach : s.Reaches) (hw : s.written < 2 ^ 31) : s.Sound := by
  refine hreach.invariant (P := fun s => s.written < 2 ^ 31 → s.Sound) ?_ ?_ hw
  · rintro _ rfl _
    exact sound_start
  · intro s event s' ih _ hstep hw'
    exact (ih (lt_of_le_of_lt (written_le_of_exec hstep) hw')).exec hw' hstep

theorem Sound.noOverwrite (h : s.Sound) {i : Int} (hi : s.storesTo = some i) {pos : Int}
    (hge : s.pipe.rpos ≤ pos) (hlt : pos < s.pipe.wpos) : slot pos ≠ i := by
  have hat := h.writer
  unfold storesTo at hi
  split at hi
  · rename_i data j wpos hpc
    rw [hpc] at hat
    obtain ⟨-, rfl, hroom⟩ := hat
    cases hi
    rw [h.rpos] at hge
    rw [h.wpos] at hlt
    lift pos to Nat using le_trans (Int.natCast_nonneg _) hge
    rw [slot_natCast, slot_natCast]
    exact_mod_cast slot_ne (by omega) (by omega)
  · cases hi

theorem Sound.fifo (h : s.Sound) : s.Fifo where
  inOrder := h.inOrder
  notBehind := by
    have := h.le
    rw [h.rpos, h.wpos]
    omega
  notAhead := by
    have := h.near
    rw [h.rpos, h.wpos]
    omega
  noOverwrite _ hi _ hge hlt := h.noOverwrite hi hge hlt

theorem Sound.countersRight (h : s.Sound) (hw : s.written < 2 ^ 31) : s.CountersRight where
  readSlot := h.rpos ▸ inBuf_slot_natCast _
  writeSlot := h.wpos ▸ inBuf_slot_natCast _
  empty := by rw [h.rpos, h.wpos, empty_natCast, eq_comm]
  full := by
    have := h.near
    rw [h.rpos, h.wpos, full_natCast h.le hw]
    omega

/-- In every interleaving, as long as fewer than `2^31` bytes have been written, the pipe is a queue of
at most `PIPEBUFSIZ` bytes. -/
theorem pipe_fifo (s : PipeSys) (hreach : s.Reaches) (hw : s.written < 2 ^ 31) : s.Fifo :=
  (hreach.sound hw).fifo

theorem Reaches.run {events : List PipeEvent} (h : s.Reaches)
    (hrun : events.foldlM PipeSys.exec s = some s') : s'.Reaches :=
  Library.Reachable.events (fun _ _ _ hstep => ⟨trivial, hstep⟩) h hrun

theorem pipe_fifo_two_bytes :
    ∃ s : PipeSys, s.written = 2 ∧ s.stored = [0x61] ∧ s.given = [0x61, 0x62] ∧ s.Fifo := by
  let events : List PipeEvent := .callWrite [0x61, 0x62] :: List.replicate 12 .writer ++
    .callRead 2 :: List.replicate 5 .reader
  have hrun : ∃ s' : PipeSys, events.foldlM PipeSys.exec start = some s' ∧
      s'.written = 2 ∧ s'.stored = [0x61] ∧ s'.given = [0x61, 0x62] := ⟨_, rfl, rfl, rfl, rfl⟩
  obtain ⟨s, hs, hwritten, hstored, hgiven⟩ := hrun
  exact ⟨s, hwritten, hstored, hgiven,
    pipe_fifo s (Reaches.run (.start rfl) hs) (by rw [hwritten]; norm_num)⟩

end PipeSys

end ZynexOS
