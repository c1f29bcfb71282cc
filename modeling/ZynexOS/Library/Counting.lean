import Mathlib

/-! # Counting references -/

namespace Library

open Function

variable {ι P : Type*} [DecidableEq P]

def count (S : Finset ι) (f : ι → Option P) (p : P) : Nat := ∑ i ∈ S, if f i = some p then 1 else 0

variable {S : Finset ι} {f g : ι → Option P} {i : ι} {p : P}

theorem count_congr (hsame : ∀ i ∈ S, f i = some p ↔ g i = some p) : count S f p = count S g p := by
  refine Finset.sum_congr rfl fun i hi => ?_
  simp only [hsame i hi]

theorem count_eq_zero_iff : count S f p = 0 ↔ ∀ i ∈ S, f i ≠ some p := by
  simp [count]

variable [DecidableEq ι]

theorem count_update_of_notMem (hi : i ∉ S) (v : Option P) :
    count S (update f i v) p = count S f p := by
  refine count_congr fun j hj => ?_
  rw [update_of_ne (ne_of_mem_of_not_mem hj hi)]

theorem count_update_of_mem (hi : i ∈ S) (v : Option P) :
    count S (update f i v) p + (if f i = some p then 1 else 0) =
      count S f p + if v = some p then 1 else 0 := by
  have hrest : ∑ j ∈ S.erase i, (if update f i v j = some p then 1 else 0) =
      ∑ j ∈ S.erase i, if f j = some p then 1 else 0 := by
    refine Finset.sum_congr rfl fun j hj => ?_
    rw [update_of_ne (Finset.ne_of_mem_erase hj)]
  simp only [count]
  rw [← Finset.add_sum_erase S _ hi, ← Finset.add_sum_erase S (fun j => if f j = some p then 1 else 0) hi,
    hrest, update_self]
  omega

end Library
