import Mathlib

/-! # Circular search -/

namespace Library

def ahead (n x y : Nat) : Nat := if x ≤ y then y - x else y + n - x

variable {n x y z : Nat}

theorem ahead_cases (n x y : Nat) :
    x ≤ y ∧ ahead n x y = y - x ∨ y < x ∧ ahead n x y = y + n - x := by
  unfold ahead
  split <;> omega

@[simp] theorem ahead_self (n x : Nat) : ahead n x x = 0 := by
  simp [ahead]

theorem ahead_pos (hx : x < n) (hne : y ≠ x) : 0 < ahead n x y := by
  have hxy := ahead_cases n x y
  omega

theorem ahead_inj (hx : x < n) (hy : y < n) (hz : z < n) (heq : ahead n x y = ahead n x z) :
    y = z := by
  have hxy := ahead_cases n x y
  have hxz := ahead_cases n x z
  omega

theorem ahead_between {c : Nat} (hx : x < n) (hy : y < n) (hz : z < n)
    (hcz : ahead n x c < ahead n x z) (hcy : 0 < ahead n c y) (hyz : ahead n c y < ahead n c z) :
    0 < ahead n x y ∧ ahead n x y < ahead n x z := by
  have hxc := ahead_cases n x c
  have hxy := ahead_cases n x y
  have hxz := ahead_cases n x z
  have hcy' := ahead_cases n c y
  have hcz' := ahead_cases n c z
  omega

theorem find_range'_le {p : Nat → Bool} {start len : Nat}
    (hfind : (List.range' start len).find? p = some y) (hz : start ≤ z) (hzlen : z < start + len)
    (hpz : p z = true) : y ≤ z := by
  by_contra hlt
  obtain ⟨-, before, after, hsplit, hbefore⟩ := List.find?_eq_some_iff_append.mp hfind
  have hmem : z ∈ List.range' start len := List.mem_range'_1.mpr ⟨hz, hzlen⟩
  rw [hsplit, List.mem_append, List.mem_cons] at hmem
  have hsorted : (before ++ y :: after).Pairwise (· < ·) := hsplit ▸ List.pairwise_lt_range'
  obtain hz' | rfl | hz' := hmem
  · have hno := hbefore z hz'
    rw [hpz] at hno
    cases hno
  · exact hlt le_rfl
  · have htail := List.pairwise_cons.mp (List.pairwise_append.mp hsorted).2.1
    exact hlt (htail.1 z hz').le

end Library
