import Mathlib

/-! # Bit fields of machine words -/

namespace Library

variable {w : Nat}

theorem toNat_and_mask (word mask : BitVec w) {n : Nat} (hmask : mask.toNat = 2 ^ n - 1) :
    (word &&& mask).toNat = word.toNat % 2 ^ n := by
  rw [BitVec.toNat_and, hmask, Nat.and_two_pow_sub_one_eq_mod]

theorem toNat_and_not_mask (word mask : BitVec w) {n : Nat} (hmask : mask.toNat = 2 ^ n - 1) :
    (word &&& ~~~mask).toNat = word.toNat / 2 ^ n * 2 ^ n := by
  apply Nat.eq_of_testBit_eq
  intro i
  rw [BitVec.testBit_toNat, BitVec.getLsbD_and, BitVec.getLsbD_not, ← BitVec.testBit_toNat,
    ← BitVec.testBit_toNat, hmask, Nat.testBit_two_pow_sub_one, Nat.testBit_mul_two_pow]
  by_cases hi : n ≤ i
  · rw [Nat.testBit_div_two_pow, Nat.sub_add_cancel hi]
    by_cases hw : i < w
    · simp [hi, hw]
    · have hout : word.toNat.testBit i = false := by
        rw [BitVec.testBit_toNat]
        exact BitVec.getLsbD_of_ge word i (by omega)
      simp [hout]
  · simp [hi, Nat.lt_of_not_le hi]

theorem toNat_shiftRight (word : BitVec w) (n : Nat) : (word >>> n).toNat = word.toNat / 2 ^ n := by
  rw [BitVec.toNat_ushiftRight, Nat.shiftRight_eq_div_pow]

theorem toNat_shiftLeft (word : BitVec w) (n : Nat) :
    (word <<< n).toNat = word.toNat * 2 ^ n % 2 ^ w := by
  rw [BitVec.toNat_shiftLeft, Nat.shiftLeft_eq]

theorem getLsbD_eq_false_of_lt {flags : BitVec w} {n i : Nat} (hflags : flags.toNat < 2 ^ n)
    (hi : n ≤ i) : flags.getLsbD i = false := by
  rw [← BitVec.testBit_toNat]
  exact Nat.testBit_lt_two_pow (hflags.trans_le (Nat.pow_le_pow_right (by decide) hi))

theorem ushiftRight_eq_zero_of_lt {flags : BitVec w} {n : Nat} (hflags : flags.toNat < 2 ^ n) :
    flags >>> n = 0#w := by
  apply BitVec.eq_of_toNat_eq
  rw [toNat_shiftRight, Nat.div_eq_of_lt hflags, BitVec.toNat_ofNat, Nat.zero_mod]

theorem shiftLeft_and_eq_zero {field flags : BitVec w} {n : Nat} (hflags : flags.toNat < 2 ^ n) :
    (field <<< n) &&& flags = 0#w := by
  apply BitVec.eq_of_getLsbD_eq
  intro i hi
  rw [BitVec.getLsbD_and, BitVec.getLsbD_shiftLeft, BitVec.getLsbD_zero]
  by_cases hlow : i < n
  · simp [hlow]
  · rw [getLsbD_eq_false_of_lt hflags (Nat.le_of_not_lt hlow), Bool.and_false]

theorem and_not_eq_self {word mask : BitVec w} (hdisjoint : word &&& mask = 0#w) :
    word &&& ~~~mask = word := by
  apply BitVec.eq_of_getLsbD_eq
  intro i hi
  have hbit := congrArg (fun x => x.getLsbD i) hdisjoint
  simp only [BitVec.getLsbD_and, BitVec.getLsbD_zero] at hbit
  rw [BitVec.getLsbD_and, BitVec.getLsbD_not]
  cases hword : word.getLsbD i <;> simp_all

theorem and_not_eq_zero_iff {word mask : BitVec w} :
    word &&& ~~~mask = 0#w ↔ word &&& mask = word := by
  constructor
  · intro hzero
    apply BitVec.eq_of_getLsbD_eq
    intro i hi
    have hbit := congrArg (fun x => x.getLsbD i) hzero
    simp only [BitVec.getLsbD_and, BitVec.getLsbD_not, hi, BitVec.getLsbD_zero] at hbit
    rw [BitVec.getLsbD_and]
    cases hword : word.getLsbD i <;> simp_all
  · intro hself
    rw [← hself, BitVec.and_assoc, BitVec.and_not_self]
    exact BitVec.and_zero

end Library
