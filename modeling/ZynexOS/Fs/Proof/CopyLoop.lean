import ZynexOS.Fs.Format
import ZynexOS.Fs.Proof.Growth

/-!
# The copy loops of `file_read` and `file_write`

From a position that is not negative, chunks are copied that do not cross the end of a file block.
-/

namespace ZynexOS

open Library

namespace Fs

open View

variable {full : Prop} {E : View → Prop} {v : View} {f fin p : Nat}

def chunkLen (p fin : Nat) : Nat := min (4096 - p % 4096) (fin - p)

theorem chunkLen_le (p fin : Nat) : chunkLen p fin ≤ 4096 - p % 4096 := min_le_left _ _

theorem chunkLen_le_left (p fin : Nat) : chunkLen p fin ≤ fin - p := min_le_right _ _

theorem chunk_natCast (hp : p < 0x80000000) (hlt : p < fin) (hfin : fin < 0x10000000000000000) :
    chunk p fin = chunkLen p fin := by
  have hmod : Int.tmod p 4096 = (p % 4096 : Nat) := by
    rw [Int.tmod_eq_emod_of_nonneg (by omega)]
    omega
  have hrest : uint64 (4096 - (p % 4096 : Nat)) = 4096 - p % 4096 := by
    unfold uint64
    omega
  have hleft : uint64 (fin - (p : Nat)) = fin - p := by
    unfold uint64
    omega
  unfold chunk chunkLen
  rw [hmod, uint64_natCast (hp.trans (by decide)), hrest, hleft]
  have hsmall : min (4096 - p % 4096) (fin - p) < 0x80000000 := by omega
  rw [← Nat.cast_min, int32_natCast hsmall]

theorem inBlock_natCast (blk p : Nat) : inBlock blk p = blk + p % 4096 := by
  unfold inBlock
  rw [Int.tmod_eq_emod_of_nonneg (by omega)]
  omega

theorem fileBlock_natCast (hp : p < 0x80000000) : uint32 (Int.tdiv p 4096) = p / 4096 := by
  unfold uint32
  rw [Int.tdiv_eq_ediv_of_nonneg (by omega)]
  omega

theorem OutsideCache.accessible {buf n x : Nat} (hbuf : OutsideCache buf n) (hlow : buf ≤ x)
    (hhigh : x < buf + n) : v.Accessible x := by
  intro hcache
  obtain ⟨hplace, -⟩ := hbuf
  unfold inCache at hcache
  unfold blockAddr fileVa at hplace
  simp only [decide_eq_true_eq] at hcache
  omega

/-- The loop that both functions have; `copy` gets the address in the block, the one in the buffer and
the length. -/
def copyLoop (copy : Nat → Nat → Nat → FsM Unit) (f fin : Nat) : Nat → Int → Nat → FsM Int
  | 0, _, _ => throw .fuel
  | fuel + 1, pos, buf =>
      if uint64 pos < fin then do
        match ← fileGetBlock f (uint32 (Int.tdiv pos 4096)) with
        | .error r => pure r
        | .ok blk =>
            copy (inBlock blk pos) buf (uint64 (chunk pos fin))
            copyLoop copy f fin fuel (int32 (pos + chunk pos fin)) (uint64 (buf + chunk pos fin))
      else pure 0

theorem readLoop_eq (f fin fuel : Nat) (pos : Int) (buf : Nat) :
    readLoop f fin fuel pos buf = copyLoop (fun blk buf n => memmove buf blk n) f fin fuel pos buf := by
  induction fuel generalizing pos buf with
  | zero => rfl
  | succ fuel ih =>
      unfold readLoop copyLoop
      refine ite_congr rfl (fun _ => bind_congr fun r => ?_) fun _ => rfl
      cases r with
      | error r => rfl
      | ok blk => exact bind_congr fun _ => ih _ _

theorem writeLoop_eq (f fin fuel : Nat) (pos : Int) (buf : Nat) :
    writeLoop f fin fuel pos buf = copyLoop (fun blk buf n => memmove blk buf n) f fin fuel pos buf := by
  induction fuel generalizing pos buf with
  | zero => rfl
  | succ fuel ih =>
      unfold writeLoop copyLoop
      refine ite_congr rfl (fun _ => bind_congr fun r => ?_) fun _ => rfl
      cases r with
      | error r => rfl
      | ok blk => exact bind_congr fun _ => ih _ _

variable {copy : Nat → Nat → Nat → FsM Unit} {fuel buf : Nat} {Q : Int → View → Prop}

theorem runs_copyLoop_done {pos : Int} (hpos : fin ≤ uint64 pos) (hQ : Q 0 v) :
    runs full (copyLoop copy f fin (fuel + 1) pos buf) Q E v :=
  runs_ite (fun h => by omega) fun _ => runs_pure hQ

theorem runs_copyLoop_step (hok : v.FileOk f) (hp : p < 0x80000000) (hlt : p < fin)
    (hfin : fin < 0x10000000000000000)
    (hfail : ∀ r v', v.Gets f (p / 4096) (.error r) v' → Q r v')
    (hcopy : ∀ blk v', v.Gets f (p / 4096) (.ok blk) v' → p / 4096 < 1034 →
      runs full (copy (blk + p % 4096) buf (chunkLen p fin)) (fun _ v'' =>
        runs full (copyLoop copy f fin fuel (p + chunkLen p fin : Nat)
          (uint64 (buf + chunkLen p fin : Nat))) Q E v'') E v') :
    runs full (copyLoop copy f fin (fuel + 1) p buf) Q E v := by
  refine runs_ite (fun _ => ?_) fun h => absurd ?_ h
  · rw [fileBlock_natCast hp, chunk_natCast hp hlt hfin]
    refine runs_bind (runs_fileGetBlock hok fun r v' hget => ?_)
    cases r with
    | error r => exact runs_pure (hfail r v' hget)
    | ok blk =>
        have hgot : p / 4096 < 1034 := by
          cases hget with
          | slot hi _ _ => exact hi.1
          | indirect hi _ _ _ _ => exact hi.1
        have hlen := chunkLen_le p fin
        have hnext : int32 ((p : Int) + (chunkLen p fin : Nat)) = (p + chunkLen p fin : Nat) := by
          unfold int32
          omega
        show runs full (copy (inBlock blk p) buf (uint64 (chunkLen p fin : Nat)) >>= fun _ => _) Q E v'
        rw [inBlock_natCast, uint64_natCast (by omega), hnext, ← Int.natCast_add]
        exact runs_bind (hcopy blk v' hget hgot)
  · rw [uint64_natCast (by omega)]
    exact hlt

theorem runs_copyLoop {I : Nat → View → Prop} {start : Nat} (hfin : fin < 0x10000000000000000)
    (hok : ∀ p v, I p v → v.FileOk f)
    (hfail : ∀ p v r v', start ≤ p → p < fin → I p v → v.Gets f (p / 4096) (.error r) v' → Q r v')
    (hcopy : ∀ p v blk v', start ≤ p → p < fin → I p v → v.Gets f (p / 4096) (.ok blk) v' →
      runs full (copy (blk + p % 4096) (buf + (p - start)) (chunkLen p fin))
        (fun _ v'' => I (p + chunkLen p fin) v'') E v')
    (hdone : ∀ p v, fin ≤ p → I p v → Q 0 v)
    (hstart : I start v) (hrange : start < 0x80000000)
    (hbuf : buf + min (fin - start) 4235264 < 0x10000000000000000) (hfuel : 1035 ≤ start / 4096 + fuel) :
    runs full (copyLoop copy f fin (fuel + 1) start buf) Q E v := by
  -- the position is in the file, unless the loop is about to stop
  have hmain : ∀ fuel p v, I p v → start ≤ p → p < 0x80000000 → (p = start ∨ p ≤ 4235264) →
      (p < fin → 1035 ≤ p / 4096 + fuel) →
      runs full (copyLoop copy f fin (fuel + 1) p (buf + (p - start))) Q E v := by
    intro fuel
    induction fuel with
    | zero =>
        intro p v hI hle hp _ hfuel
        by_cases hlt : p < fin
        · refine runs_copyLoop_step (hok p v hI) hp hlt hfin ?_ ?_
          · exact fun r v' => hfail p v r v' hle hlt hI
          · intro blk v' _ hgot
            have := hfuel hlt
            omega
        · refine runs_copyLoop_done ?_ (hdone p v (by omega) hI)
          rw [uint64_natCast (by omega)]
          omega
    | succ fuel ih =>
        intro p v hI hle hp _ hfuel
        by_cases hlt : p < fin
        · refine runs_copyLoop_step (hok p v hI) hp hlt hfin ?_ ?_
          · exact fun r v' => hfail p v r v' hle hlt hI
          · intro blk v' hget hgot
            refine runs_mono (hcopy p v blk v' hle hlt hI hget) (fun _ v'' hI' => ?_) fun _ h => h
            have hlen := chunkLen_le p fin
            have hleft := chunkLen_le_left p fin
            have hfuel' := hfuel hlt
            have haddr : uint64 (buf + (p - start) + chunkLen p fin : Nat)
                = buf + (p + chunkLen p fin - start) := by
              rw [uint64_natCast (by omega)]
              omega
            rw [haddr]
            refine ih _ v'' hI' (by omega) (by omega) (by omega) fun hlt' => ?_
            unfold chunkLen at hlt' ⊢
            omega
        · refine runs_copyLoop_done ?_ (hdone p v (by omega) hI)
          rw [uint64_natCast (by omega)]
          omega
  have hrun := hmain fuel start v hstart le_rfl hrange (.inl rfl) fun _ => hfuel
  rwa [Nat.sub_self, Nat.add_zero] at hrun

end Fs

end ZynexOS
