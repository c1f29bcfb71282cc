import Mathlib

/-! # Computations that may fail -/

namespace Library

universe u v

variable {ε : Type u} {α β σ : Type v}

theorem bind_eq_ok {x : Except ε α} {f : α → Except ε β} {b : β} :
    x >>= f = .ok b ↔ ∃ a, x = .ok a ∧ f a = .ok b := by
  cases x with
  | error e => simp [Bind.bind, Except.bind]
  | ok a => simp [Bind.bind, Except.bind]

theorem pure_eq_ok {a b : α} : (pure a : Except ε α) = .ok b ↔ a = b := by
  simp [pure, Except.pure]

@[simp] theorem ok_bind (a : α) (f : α → Except ε β) : (Except.ok a : Except ε α) >>= f = f a := rfl

theorem throw_ne_ok {e : ε} {a : α} : (throw e : Except ε α) ≠ .ok a := nofun

theorem eq_ok_of_toOption {x : Except ε α} {a : α} (hsome : x.toOption = some a) : x = .ok a := by
  cases x with
  | error e => simp [Except.toOption] at hsome
  | ok b => simpa [Except.toOption] using hsome

theorem exists_ok {x : Except ε α} (hok : x.isOk = true) : ∃ a, x = .ok a := by
  cases x with
  | error e => cases hok
  | ok a => exact ⟨a, rfl⟩

theorem exists_of_toOption_map {x : Except ε α} {f : α → β} {b : β}
    (hmap : x.toOption.map f = some b) : ∃ a, x = .ok a ∧ f a = b := by
  cases x with
  | error e => simp [Except.toOption] at hmap
  | ok a => exact ⟨a, rfl, by simpa [Except.toOption] using hmap⟩

theorem foldlM_invariant {f : σ → α → Except ε σ} {P : σ → Prop} {xs : List α}
    (hstep : ∀ s x s', x ∈ xs → P s → f s x = .ok s' → P s') {s s' : σ}
    (hs : P s) (hfold : xs.foldlM f s = .ok s') : P s' := by
  induction xs generalizing s with
  | nil =>
      rw [List.foldlM_nil, pure_eq_ok] at hfold
      exact hfold ▸ hs
  | cons x xs ih =>
      rw [List.foldlM_cons, bind_eq_ok] at hfold
      obtain ⟨mid, hmid, hrest⟩ := hfold
      exact ih (fun s y s' hy => hstep s y s' (List.mem_cons_of_mem x hy))
        (hstep s x mid List.mem_cons_self hs hmid) hrest

theorem foldlM_succeeds {f : σ → α → Except ε σ} {P : List α → σ → Prop}
    (hstep : ∀ x xs s, P (x :: xs) s → ∃ s', f s x = .ok s' ∧ P xs s') {xs : List α} {s : σ}
    (hs : P xs s) : ∃ s', xs.foldlM f s = .ok s' ∧ P [] s' := by
  induction xs generalizing s with
  | nil => exact ⟨s, rfl, hs⟩
  | cons x xs ih =>
      obtain ⟨mid, hmid, hinv⟩ := hstep x xs s hs
      obtain ⟨last, hlast, hend⟩ := ih hinv
      exact ⟨last, by rw [List.foldlM_cons, hmid, ok_bind, hlast], hend⟩

end Library
