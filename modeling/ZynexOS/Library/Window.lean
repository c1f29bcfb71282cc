import ZynexOS.Library.Circular

/-!
# Windows on a circle

The places of a ring of `n` places that are in use, from a head up to a tail.
-/

namespace Library

def window (n head len : Nat) : List Nat := (List.range len).map fun k => (head + k) % n

variable {n s a k len : Nat}

@[simp] theorem length_window (n head len : Nat) : (window n head len).length = len := by
  simp [window]

theorem window_mod (n s len : Nat) :
    window n (s % n) len = (List.range' s len).map fun k => k % n := by
  unfold window
  rw [List.range'_eq_map_range, List.map_map]
  refine List.map_congr_left fun k _ => ?_
  show (s % n + k) % n = (s + k) % n
  exact Nat.mod_add_mod s n k

theorem mem_window_mod {i : Nat} :
    i ∈ window n (s % n) len ↔ ∃ k, s ≤ k ∧ k < s + len ∧ i = k % n := by
  rw [window_mod, List.mem_map]
  constructor
  · rintro ⟨k, hk, rfl⟩
    obtain ⟨hle, hlt⟩ := List.mem_range'_1.mp hk
    exact ⟨k, hle, hlt, rfl⟩
  · rintro ⟨k, hle, hlt, rfl⟩
    exact ⟨k, List.mem_range'_1.mpr ⟨hle, hlt⟩, rfl⟩

theorem mod_ne_mod (hlt : s < a) (hlap : a < s + n) : a % n ≠ s % n := by
  intro hsame
  have hdvd : n ∣ a - s := (Nat.modEq_iff_dvd' hlt.le).mp hsame.symm
  have hle := Nat.le_of_dvd (by omega) hdvd
  omega

theorem ahead_mod (hle : s ≤ a) (hlap : a < s + n) : ahead n (s % n) (a % n) = a - s := by
  obtain ⟨d, rfl⟩ := Nat.exists_eq_add_of_le hle
  have hpos : 0 < n := by omega
  have hs := Nat.mod_lt s hpos
  have hahead := ahead_cases n (s % n) ((s + d) % n)
  have hmod : (s + d) % n = (s % n + d) % n := (Nat.mod_add_mod s n d).symm
  generalize s % n = x at hs hmod hahead ⊢
  by_cases hwrap : x + d < n
  · rw [Nat.mod_eq_of_lt hwrap] at hmod
    omega
  · have hturn : (x + d) % n = x + d - n := by
      rw [Nat.mod_eq_sub_mod (by omega), Nat.mod_eq_of_lt (by omega)]
    rw [hturn] at hmod
    omega

theorem map_range'_eq_drop {α : Type*} {l : List α} {f : Nat → α}
    (hget : ∀ k, s ≤ k → k < l.length → l[k]? = some (f k)) :
    (List.range' s (l.length - s)).map f = l.drop s := by
  refine List.ext_getElem (by simp) fun k hk hk' => ?_
  have hlt : s + k < l.length := by
    rw [List.length_drop] at hk'
    omega
  have hval := hget (s + k) (by omega) hlt
  rw [List.getElem?_eq_getElem hlt, Option.some.injEq] at hval
  rw [List.getElem_map, List.getElem_range'_1, List.getElem_drop]
  exact hval.symm

end Library
