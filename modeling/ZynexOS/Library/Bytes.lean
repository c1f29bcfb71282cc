import Mathlib

/-! # Byte-addressed memory -/

namespace Library

abbrev Bytes := Nat → BitVec 8

namespace Bytes

variable {x dst src i k first : Nat} {l : List (BitVec 8)}

def loadNat (m : Bytes) (a : Nat) : Nat → Nat
  | 0 => 0
  | n + 1 => (m a).toNat + 256 * loadNat m (a + 1) n

def storeNat (m : Bytes) (a n v : Nat) : Bytes := fun x =>
  if a ≤ x ∧ x < a + n then BitVec.ofNat 8 (v / 256 ^ (x - a)) else m x

def move (m : Bytes) (dst src n : Nat) : Bytes := fun x =>
  if dst ≤ x ∧ x < dst + n then m (src + (x - dst)) else m x

def copy (m : Bytes) (dst : Nat) (m' : Bytes) (src n : Nat) : Bytes := fun x =>
  if dst ≤ x ∧ x < dst + n then m' (src + (x - dst)) else m x

def fill (m : Bytes) (a n : Nat) (b : BitVec 8) : Bytes := fun x =>
  if a ≤ x ∧ x < a + n then b else m x

def copyList (m : Bytes) (a : Nat) (l : List (BitVec 8)) : Bytes := fun x =>
  if a ≤ x ∧ x < a + l.length then l.getD (x - a) 0 else m x

def slice (m : Bytes) (a n : Nat) : List (BitVec 8) := (List.range n).map fun i => m (a + i)

def storeRun (m : Bytes) (a first : Nat) : Nat → Bytes
  | 0 => m
  | n + 1 => (storeRun m a first n).storeNat (a + 4 * n) 4 (first + n)

variable {m m' : Bytes} {a b n v : Nat}

theorem loadNat_lt (m : Bytes) (a n : Nat) : loadNat m a n < 256 ^ n := by
  induction n generalizing a with
  | zero => simp [loadNat]
  | succ n ih =>
      have hbyte := (m a).isLt
      have hrest := ih (a + 1)
      rw [loadNat, pow_succ]
      omega

theorem loadNat_congr (hsame : ∀ x, a ≤ x → x < a + n → m x = m' x) :
    loadNat m a n = loadNat m' a n := by
  induction n generalizing a with
  | zero => rfl
  | succ n ih =>
      rw [loadNat, loadNat, hsame a le_rfl (by omega),
        ih fun x hle hlt => hsame x (by omega) (by omega)]

theorem loadNat_shift (hsame : ∀ i < n, m (a + i) = m' (b + i)) : loadNat m a n = loadNat m' b n := by
  induction n generalizing a b with
  | zero => rfl
  | succ n ih =>
      have hfirst : m a = m' b := hsame 0 (by omega)
      have hrest : ∀ i < n, m (a + 1 + i) = m' (b + 1 + i) := by
        intro i hi
        have h := hsame (i + 1) (by omega)
        rwa [← Nat.add_assoc, ← Nat.add_assoc, Nat.add_right_comm a, Nat.add_right_comm b] at h
      rw [loadNat, loadNat, hfirst, ih hrest]

theorem storeNat_apply_of_not_mem (hx : x < a ∨ a + n ≤ x) : storeNat m a n v x = m x :=
  if_neg (by omega)

theorem move_apply_of_not_mem (hx : x < dst ∨ dst + n ≤ x) :
    move m dst src n x = m x := if_neg (by omega)

theorem move_apply_add (hi : i < n) : move m dst src n (dst + i) = m (src + i) := by
  unfold move
  rw [if_pos (by omega), Nat.add_sub_cancel_left]

theorem fill_apply_of_not_mem {byte : BitVec 8} (hx : x < a ∨ a + n ≤ x) :
    fill m a n byte x = m x := if_neg (by omega)

theorem copyList_apply_of_not_mem (hx : x < a ∨ a + l.length ≤ x) :
    copyList m a l x = m x := if_neg (by omega)

theorem copyList_apply (hi : i < l.length) :
    copyList m a l (a + i) = l.getD i 0 := by
  rw [copyList, if_pos (by omega), Nat.add_sub_cancel_left]

@[simp]
theorem copy_zero : copy m a m' b 0 = m := by
  funext x
  exact if_neg (by omega)

theorem copy_apply_of_not_mem (hx : x < a ∨ a + n ≤ x) : copy m a m' b n x = m x :=
  if_neg (by omega)

theorem copy_apply (hi : i < n) : copy m a m' b n (a + i) = m' (b + i) := by
  rw [copy, if_pos (by omega), Nat.add_sub_cancel_left]

theorem copy_copy (k : Nat) :
    copy (copy m a m' b n) (a + n) m' (b + n) k = copy m a m' b (n + k) := by
  funext x
  simp only [copy]
  by_cases hsecond : a + n ≤ x ∧ x < a + n + k
  · rw [if_pos hsecond, if_pos (by omega)]
    congr 1
    omega
  · rw [if_neg hsecond]
    by_cases hfirst : a ≤ x ∧ x < a + n
    · rw [if_pos hfirst, if_pos (by omega)]
    · rw [if_neg hfirst, if_neg (by omega)]

theorem copy_of_copy {c : Nat} {mem : Bytes} :
    copy mem c (copy m a m' b n) a n = copy mem c m' b n := by
  funext x
  simp only [copy]
  by_cases hx : c ≤ x ∧ x < c + n
  · rw [if_pos hx, if_pos (by omega), Nat.add_sub_cancel_left, if_pos hx]
  · rw [if_neg hx, if_neg hx]

theorem copy_of_disjoint {c : Nat} {mem : Bytes} (hdisj : src + k ≤ a ∨ a + n ≤ src) :
    copy mem c (copy m a m' b n) src k = copy mem c m src k := by
  funext x
  simp only [copy]
  by_cases hx : c ≤ x ∧ x < c + k
  · rw [if_pos hx, if_neg (by omega), if_pos hx]
  · rw [if_neg hx, if_neg hx]

theorem slice_congr (hsame : ∀ x, a ≤ x → x < a + n → m x = m' x) : slice m a n = slice m' a n :=
  List.map_congr_left fun i hi => hsame (a + i) (by omega) (by have := List.mem_range.mp hi; omega)

theorem slice_copyList (m : Bytes) (a : Nat) (l : List (BitVec 8)) :
    slice (copyList m a l) a l.length = l := by
  refine List.ext_getElem (by simp [slice]) fun i hi hi' => ?_
  simp only [slice, List.getElem_map, List.getElem_range]
  rw [copyList_apply hi', List.getD_eq_getElem l 0 hi']

theorem storeRun_apply_of_not_mem (hx : x < a ∨ a + 4 * n ≤ x) :
    storeRun m a first n x = m x := by
  induction n with
  | zero => rfl
  | succ n ih => rw [storeRun, storeNat_apply_of_not_mem (by omega), ih (by omega)]

theorem loadNat_storeNat_tail (i k : Nat) (hk : i + k = n) :
    loadNat (storeNat m a n v) (a + i) k = v / 256 ^ i % 256 ^ k := by
  induction k generalizing i with
  | zero => simp [loadNat, Nat.mod_one]
  | succ k ih =>
      have hbyte : storeNat m a n v (a + i) = BitVec.ofNat 8 (v / 256 ^ i) := by
        rw [storeNat, if_pos (by omega), Nat.add_sub_cancel_left]
      have hrest : loadNat (storeNat m a n v) (a + i + 1) k = v / 256 ^ (i + 1) % 256 ^ k :=
        ih (i + 1) (by omega)
      have hnext : v / 256 ^ (i + 1) = v / 256 ^ i / 256 := by
        rw [pow_succ, ← Nat.div_div_eq_div_mul]
      rw [loadNat, hbyte, hrest, BitVec.toNat_ofNat, hnext, pow_succ' 256 k, Nat.mod_mul]

theorem loadNat_storeNat_self : loadNat (storeNat m a n v) a n = v % 256 ^ n := by
  simpa using loadNat_storeNat_tail 0 n (by omega)

theorem loadNat_storeNat_of_disjoint (hdisj : b + k ≤ a ∨ a + n ≤ b) :
    loadNat (storeNat m a n v) b k = loadNat m b k :=
  loadNat_congr fun _ _ _ => storeNat_apply_of_not_mem (by omega)

theorem loadNat_storeRun (hi : i < n) :
    loadNat (storeRun m a first n) (a + 4 * i) 4 = (first + i) % 2 ^ 32 := by
  induction n with
  | zero => exact absurd hi (Nat.not_lt_zero i)
  | succ n ih =>
      rw [storeRun]
      by_cases hlast : i = n
      · rw [hlast]
        exact loadNat_storeNat_self
      · rw [loadNat_storeNat_of_disjoint (by omega)]
        exact ih (by omega)

theorem loadNat_storeRun_of_disjoint (hdisj : b + k ≤ a ∨ a + 4 * n ≤ b) :
    loadNat (storeRun m a first n) b k = loadNat m b k :=
  loadNat_congr fun _ _ _ => storeRun_apply_of_not_mem (by omega)

theorem loadNat_copyList_of_disjoint
    (hdisj : b + k ≤ a ∨ a + l.length ≤ b) : loadNat (copyList m a l) b k = loadNat m b k :=
  loadNat_congr fun _ _ _ => copyList_apply_of_not_mem (by omega)

theorem loadNat_move_of_disjoint (hdisj : b + k ≤ dst ∨ dst + n ≤ b) :
    loadNat (move m dst src n) b k = loadNat m b k :=
  loadNat_congr fun _ _ _ => move_apply_of_not_mem (by omega)

theorem loadNat_fill_of_disjoint {byte : BitVec 8} (hdisj : b + k ≤ a ∨ a + n ≤ b) :
    loadNat (fill m a n byte) b k = loadNat m b k :=
  loadNat_congr fun _ _ _ => fill_apply_of_not_mem (by omega)

theorem loadNat_fill_ones (hle : a ≤ b) (hlt : b + k ≤ a + n) :
    loadNat (fill m a n 0xff) b k = 256 ^ k - 1 := by
  induction k generalizing b with
  | zero => rfl
  | succ k ih =>
      have hbyte : fill m a n 0xff b = 0xff := if_pos (by omega)
      have hpos : 0 < 256 ^ k := by positivity
      rw [loadNat, hbyte, ih (by omega) (by omega), pow_succ]
      show 255 + 256 * (256 ^ k - 1) = 256 ^ k * 256 - 1
      omega

theorem loadNat_eq_zero (hzero : ∀ x, a ≤ x → x < a + n → m x = 0) : loadNat m a n = 0 := by
  induction n generalizing a with
  | zero => rfl
  | succ n ih =>
      rw [loadNat, hzero a le_rfl (by omega), ih fun x hle hlt => hzero x (by omega) (by omega)]
      rfl

theorem loadNat_fill_zero (hle : a ≤ b) (hlt : b + k ≤ a + n) :
    loadNat (fill m a n 0) b k = 0 :=
  loadNat_eq_zero fun _ _ _ => if_pos (by omega)

theorem loadNat_div (hi : i < n) :
    BitVec.ofNat 8 (loadNat m a n / 256 ^ i) = m (a + i) := by
  induction n generalizing a i with
  | zero => exact absurd hi (Nat.not_lt_zero i)
  | succ n ih =>
      have hbyte := (m a).isLt
      cases i with
      | zero =>
          apply BitVec.eq_of_toNat_eq
          rw [loadNat, BitVec.toNat_ofNat]
          show ((m a).toNat + 256 * loadNat m (a + 1) n) / 256 ^ 0 % 256 = (m a).toNat
          omega
      | succ i =>
          have hrest : loadNat m a (n + 1) / 256 ^ (i + 1) = loadNat m (a + 1) n / 256 ^ i := by
            rw [pow_succ', ← Nat.div_div_eq_div_mul, loadNat]
            congr 1
            omega
          rw [hrest, ih (by omega)]
          congr 1
          omega

theorem storeNat_loadNat : storeNat m a n (loadNat m' b n) = copy m a m' b n := by
  funext x
  simp only [storeNat, copy]
  by_cases hx : a ≤ x ∧ x < a + n
  · rw [if_pos hx, if_pos hx, loadNat_div (by omega)]
  · rw [if_neg hx, if_neg hx]

end Bytes

end Library
