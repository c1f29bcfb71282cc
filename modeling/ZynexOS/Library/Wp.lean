import Mathlib

/-!
# Programs with a state and panics

A program of type `EStateM ε σ α` returns a value or panics, and leaves a state in both cases.
-/

namespace Library

variable {ε σ α β : Type}
variable {g : σ → σ} {s' : σ}

def wp (x : EStateM ε σ α) (Q : α → σ → Prop) (E : ε → σ → Prop) (s : σ) : Prop :=
  match x s with
  | .ok a s' => Q a s'
  | .error e s' => E e s'

variable {x : EStateM ε σ α} {f : α → EStateM ε σ β} {Q : α → σ → Prop} {E : ε → σ → Prop} {s : σ}

@[simp] theorem wp_pure (a : α) : wp (pure a) Q E s ↔ Q a s := Iff.rfl

@[simp] theorem wp_get {Q : σ → σ → Prop} : wp get Q E s ↔ Q s s := Iff.rfl

@[simp] theorem wp_modify {Q : PUnit → σ → Prop} :
    wp (modify g) Q E s ↔ Q ⟨⟩ (g s) := Iff.rfl

@[simp] theorem wp_throw (e : ε) : wp (throw e) Q E s ↔ E e s := Iff.rfl

theorem wp_bind {Q : β → σ → Prop} :
    wp (x >>= f) Q E s ↔ wp x (fun a s' => wp (f a) Q E s') E s := by
  unfold wp
  show (match EStateM.bind x f s with | .ok a s' => Q a s' | .error e s' => E e s') ↔ _
  unfold EStateM.bind
  cases x s with
  | ok a s' => rfl
  | error e s' => rfl

theorem wp_mono {Q' : α → σ → Prop} {E' : ε → σ → Prop} (hx : wp x Q E s)
    (hQ : ∀ a s', Q a s' → Q' a s') (hE : ∀ e s', E e s' → E' e s') : wp x Q' E' s := by
  unfold wp at hx ⊢
  cases hrun : x s with
  | ok a s' =>
      rw [hrun] at hx
      exact hQ a s' hx
  | error e s' =>
      rw [hrun] at hx
      exact hE e s' hx

theorem wp_bind_of {R : α → σ → Prop} {Q : β → σ → Prop} (hx : wp x R E s)
    (hf : ∀ a s', R a s' → wp (f a) Q E s') : wp (x >>= f) Q E s :=
  wp_bind.mpr (wp_mono hx hf fun _ _ h => h)

theorem wp_of_ok {a : α} (hrun : x s = .ok a s') : wp x Q E s ↔ Q a s' := by
  unfold wp
  rw [hrun]

theorem wp_of_error {e : ε} (hrun : x s = .error e s') : wp x Q E s ↔ E e s' := by
  unfold wp
  rw [hrun]

theorem bind_of_ok {a : α} (hrun : x s = .ok a s') : (x >>= f) s = f a s' := by
  show EStateM.bind x f s = _
  unfold EStateM.bind
  rw [hrun]

theorem bind_of_error {e : ε} (hrun : x s = .error e s') : (x >>= f) s = .error e s' := by
  show EStateM.bind x f s = _
  unfold EStateM.bind
  rw [hrun]

theorem get_bind {f : σ → EStateM ε σ β} : (get >>= f) s = f s s := rfl

theorem modify_bind {f : PUnit → EStateM ε σ β} : (modify g >>= f) s = f ⟨⟩ (g s) := rfl

theorem modify_run : (modify g : EStateM ε σ PUnit) s = .ok ⟨⟩ (g s) := rfl

end Library
