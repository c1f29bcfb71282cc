import ZynexOS.Fs.WellFormed
import ZynexOS.Fs.Proof.Access

/-! # The bitmap -/

namespace ZynexOS

open Library

namespace Fs

theorem blockOf_blockAddr (b : Nat) : blockOf (blockAddr b) = b := by
  unfold blockOf blockAddr
  omega

namespace View

variable {v v' : View}
variable {a x n : Nat}

theorem blockAddr_succ (n : Nat) : blockAddr (n + 1) = blockAddr n + 4096 := by
  unfold blockAddr
  ring

theorem word_lt (v : View) (a : Nat) : v.word a < 0x100000000 := Bytes.loadNat_lt v.mem a 4

theorem word_congr (hsame : ∀ x, a ≤ x → x < a + 4 → v'.mem x = v.mem x) :
    v'.word a = v.word a := Bytes.loadNat_congr hsame

theorem word_put_self (v : View) (access : Access) (a : Nat) {val : Nat} (hval : val < 0x100000000) :
    (v.put access a val).word a = val := by
  unfold word put
  rw [Bytes.loadNat_storeNat_self]
  omega

theorem mem_put_of_not_mem (v : View) (access : Access) (val : Nat)
    (hx : x < a ∨ a + 4 ≤ x) : (v.put access a val).mem x = v.mem x :=
  Bytes.storeNat_apply_of_not_mem hx

theorem mem_clear_of_not_mem (v : View) (hx : x < a ∨ a + n ≤ x) :
    (v.clear a n).mem x = v.mem x := Bytes.fill_apply_of_not_mem hx

theorem mem_copy_of_not_mem (v : View) {dst src : Nat} (hx : x < dst ∨ dst + n ≤ x) :
    (v.copy dst src n).mem x = v.mem x := Bytes.move_apply_of_not_mem hx

theorem word_put_of_disjoint (v : View) (access : Access) {b : Nat} (val : Nat)
    (hdisj : b + 4 ≤ a ∨ a + 4 ≤ b) : (v.put access a val).word b = v.word b :=
  word_congr fun _ _ _ => mem_put_of_not_mem v access val (by omega)

/-- No byte of `[a, a + n)` is in the first fields of the superblock or in the bitmap. -/
def Clear (v : View) (a n : Nat) : Prop :=
  a + n ≤ superAddr ∨ superAddr + 8 ≤ a ∧ a + n ≤ blockAddr 2 ∨ blockAddr v.firstData ≤ a

structure SameDisk (v v' : View) : Prop where
  nblocks : v'.nblocks = v.nblocks
  freeBit : ∀ n < v.nblocks, v'.freeBit n = v.freeBit n

theorem SameDisk.trans {v'' : View} (h : SameDisk v v') (h' : SameDisk v' v'') : SameDisk v v'' where
  nblocks := h'.nblocks.trans h.nblocks
  freeBit n hn := (h'.freeBit n (h.nblocks.symm ▸ hn)).trans (h.freeBit n hn)

theorem SameDisk.firstData (h : SameDisk v v') : v'.firstData = v.firstData := by
  unfold View.firstData
  rw [h.nblocks]

theorem bitmapAddr_lt (hn : n < v.nblocks) : bitmapAddr n + 4 ≤ blockAddr v.firstData := by
  unfold bitmapAddr blockAddr View.firstData
  omega

theorem sameDisk_of_mem (hmem : ∀ x, ¬v.Clear x 1 → v'.mem x = v.mem x) : SameDisk v v' where
  nblocks := by
    refine word_congr fun x hle hlt => hmem x ?_
    unfold Clear superAddr at *
    unfold blockAddr View.firstData at *
    omega
  freeBit n hn := by
    have hlast := bitmapAddr_lt hn
    unfold View.freeBit
    rw [word_congr fun x hle hlt => hmem x ?_]
    unfold Clear
    unfold bitmapAddr superAddr at *
    unfold blockAddr at *
    omega

theorem Clear.not_mem (hclear : v.Clear a n) (hx : ¬v.Clear x 1) :
    x < a ∨ a + n ≤ x := by
  unfold Clear at *
  by_contra hmem
  omega

theorem sameDisk_put (access : Access) (val : Nat) (hclear : v.Clear a 4) :
    SameDisk v (v.put access a val) :=
  sameDisk_of_mem fun _ hx => mem_put_of_not_mem v access val (hclear.not_mem hx)

theorem sameDisk_clear (hclear : v.Clear a n) : SameDisk v (v.clear a n) :=
  sameDisk_of_mem fun _ hx => mem_clear_of_not_mem v (hclear.not_mem hx)

def allocated (v : View) (n : Nat) : View :=
  v.put (.alloc n) (bitmapAddr n) (v.word (bitmapAddr n) &&& (0xffffffff ^^^ 1 <<< (n % 32)))

def freed (v : View) (n : Nat) : View :=
  v.put (.free n) (bitmapAddr n) (v.word (bitmapAddr n) ||| 1 <<< (n % 32))

theorem nblocks_put_bitmap (v : View) (access : Access) (n val : Nat) :
    (v.put access (bitmapAddr n) val).nblocks = v.nblocks := by
  refine word_put_of_disjoint v access val ?_
  unfold bitmapAddr superAddr blockAddr
  omega

theorem freeBit_put_bitmap (v : View) (access : Access) {val : Nat} {bit : Bool}
    (hval : val < 0x100000000)
    (hbits : ∀ k < 32, val.testBit k
      = if k = n % 32 then bit else (v.word (bitmapAddr n)).testBit k) (m : Nat) :
    (v.put access (bitmapAddr n) val).freeBit m = if m = n then bit else v.freeBit m := by
  unfold View.freeBit
  by_cases hword : m / 32 = n / 32
  · have haddr : bitmapAddr m = bitmapAddr n := by
      unfold bitmapAddr
      rw [hword]
    rw [haddr, word_put_self v access _ hval, hbits _ (by omega)]
    by_cases hmn : m = n
    · rw [if_pos (by rw [hmn]), if_pos hmn]
    · rw [if_neg (by omega), if_neg hmn]
  · rw [word_put_of_disjoint v access val (by unfold bitmapAddr; omega), if_neg (by rintro rfl; omega)]

theorem freeBit_allocated (v : View) (n m : Nat) :
    (v.allocated n).freeBit m = if m = n then false else v.freeBit m := by
  refine freeBit_put_bitmap v _ ?_ ?_ m
  · exact lt_of_le_of_lt Nat.and_le_left (v.word_lt _)
  · intro k hk
    have hmask : (0xffffffff : Nat).testBit k = true := by
      rw [show (0xffffffff : Nat) = 2 ^ 32 - 1 from rfl, Nat.testBit_two_pow_sub_one]
      simpa using hk
    rw [Nat.testBit_and, Nat.testBit_xor, hmask, Nat.one_shiftLeft, Nat.testBit_two_pow]
    by_cases hbit : k = n % 32
    · simp [hbit]
    · simp [hbit, Ne.symm hbit]

theorem freeBit_freed (v : View) (n m : Nat) :
    (v.freed n).freeBit m = if m = n then true else v.freeBit m := by
  refine freeBit_put_bitmap v _ ?_ ?_ m
  · have hword : v.word (bitmapAddr n) < 2 ^ 32 := v.word_lt _
    have hbit : 1 <<< (n % 32) < 2 ^ 32 := by
      rw [Nat.one_shiftLeft]
      exact Nat.pow_lt_pow_right (by decide) (by omega)
    exact Nat.or_lt_two_pow hword hbit
  · intro k hk
    rw [Nat.testBit_or, Nat.one_shiftLeft, Nat.testBit_two_pow]
    by_cases hbit : k = n % 32
    · simp [hbit]
    · simp [hbit, Ne.symm hbit]

structure LowestFree (v : View) (n : Nat) : Prop where
  lt : n < v.nblocks
  free : v.freeBit n = true
  lowest : ∀ m < n, v.freeBit m = false

end View

open View

variable {full : Prop} {E : View → Prop} {v : View}

namespace View

theorem DiskOk.super_accessible (hdisk : v.DiskOk) {a : Nat} (hlow : superAddr ≤ a)
    (hhigh : a < blockAddr 2) : v.Accessible a := by
  intro _
  have hblock : blockOf a = 1 := by
    unfold superAddr blockAddr blockOf at *
    omega
  have hfirst : 1 < v.firstData := by
    unfold firstData
    omega
  rw [hblock]
  exact ⟨lt_of_lt_of_le hfirst hdisk.room, hdisk.reserved 1 hfirst⟩

theorem DiskOk.bitmap_accessible (hdisk : v.DiskOk) {n : Nat} (hn : n < v.nblocks) :
    v.Accessible (bitmapAddr n) := by
  intro _
  have hblock : blockOf (bitmapAddr n) < v.firstData := by
    unfold bitmapAddr blockAddr blockOf firstData
    omega
  exact ⟨lt_of_lt_of_le hblock hdisk.room, hdisk.reserved _ hblock⟩

theorem Valid.accessible {n a : Nat} (hvalid : v.Valid n) (hlow : blockAddr n ≤ a)
    (hhigh : a < blockAddr (n + 1)) : v.Accessible a := by
  intro _
  have hblock : blockOf a = n := by
    unfold blockAddr blockOf at *
    omega
  rw [hblock]
  exact hvalid.2

end View

theorem runs_allocFrom {left i : Nat} {Q : Int → View → Prop} (hdisk : v.DiskOk)
    (hend : i + left = v.nblocks) (hbelow : ∀ m < i, v.freeBit m = false)
    (hsome : ∀ n, v.LowestFree n → Q n (v.allocated n))
    (hnone : (∀ n < v.nblocks, v.freeBit n = false) → Q (-eNoDisk) v) :
    runs full (allocFrom left i) Q E v := by
  have hsize := hdisk.size
  induction left generalizing i with
  | zero =>
      have hi : i = v.nblocks := by omega
      exact runs_pure (hnone (hi ▸ hbelow))
  | succ left ih =>
      have hacc := hdisk.bitmap_accessible (show i < v.nblocks by omega)
      refine runs_bind (runs_load32 (runs_ite ?_ ?_) fun _ h => absurd hacc h)
      · intro hbit
        refine runs_bind (runs_storeAs ?_ fun _ h => absurd hacc h)
        have hlowest : v.LowestFree i := ⟨by omega, hbit, hbelow⟩
        refine runs_bind (runs_flushBlock (runs_pure (hsome i hlowest)) ?_)
        intro hbad
        refine absurd ?_ hbad
        unfold inCache bitmapAddr blockAddr
        simp only [decide_eq_true_eq]
        omega
      · intro hbit
        refine ih (by omega) ?_
        intro m hm
        obtain hm | rfl := Nat.lt_succ_iff_lt_or_eq.mp hm
        · exact hbelow m hm
        · exact Bool.eq_false_iff.mpr hbit

theorem runs_nblocks_of_ok {Q : Nat → View → Prop} (hdisk : v.DiskOk) (hQ : Q v.nblocks v) :
    runs full nblocks Q E v := by
  refine runs_nblocks hQ fun _ h => absurd (hdisk.super_accessible ?_ ?_) h
  · omega
  · unfold superAddr blockAddr
    omega

theorem runs_allocBlock {Q : Int → View → Prop} (hdisk : v.DiskOk)
    (hsome : ∀ n, v.LowestFree n → Q n (v.allocated n))
    (hnone : (∀ n < v.nblocks, v.freeBit n = false) → Q (-eNoDisk) v) :
    runs full allocBlock Q E v :=
  runs_bind (runs_nblocks_of_ok hdisk (runs_allocFrom hdisk (by omega) nofun hsome hnone))

theorem runs_freeBlock {n : Nat} {Q : Unit → View → Prop} (hdisk : v.DiskOk) (hn : n ≠ 0)
    (hlt : n < v.nblocks) (hQ : Q () (v.freed n)) : runs full (freeBlock n) Q E v := by
  have hacc := hdisk.bitmap_accessible hlt
  refine runs_ite (fun h => absurd h hn) fun _ => runs_bind (runs_load32 ?_ fun _ h => absurd hacc h)
  exact runs_storeAs hQ fun _ h => absurd hacc h

theorem runs_diskaddr_of_ok {n : Nat} {Q : Nat → View → Prop} (hdisk : v.DiskOk) (hn : n ≠ 0)
    (hlt : n < v.nblocks) (hQ : Q (blockAddr n) v) : runs full (diskaddr n) Q E v := by
  refine runs_bind (runs_nblocks_of_ok hdisk (runs_ite (fun h => by omega) fun _ => runs_pure ?_))
  have hsize := hdisk.size
  have haddr : (0x10000000 + n * 4096) % 0x100000000 = blockAddr n := by
    unfold blockAddr
    omega
  rw [haddr]
  exact hQ

end Fs

end ZynexOS
