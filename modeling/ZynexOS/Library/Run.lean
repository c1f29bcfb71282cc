import Mathlib

/-! # Runs of a labelled system -/

namespace Library

variable {σ ε : Type*}

/-- `Reachable init step allowed s`: some run from a state in `init` ends in `s`, and each of its
steps was allowed in the state it was taken in. -/
inductive Reachable (init : σ → Prop) (step : σ → ε → σ → Prop) (allowed : σ → ε → Prop) :
    σ → Prop where
  | start {s : σ} (hinit : init s) : Reachable init step allowed s
  | next {s s' : σ} {e : ε} (hreach : Reachable init step allowed s) (hallowed : allowed s e)
      (hstep : step s e s') : Reachable init step allowed s'

variable {init : σ → Prop} {step : σ → ε → σ → Prop} {allowed : σ → ε → Prop}

/-- What holds initially and is preserved by every allowed step holds in every state reached. -/
theorem Reachable.invariant {P : σ → Prop} (hinit : ∀ s, init s → P s)
    (hstep : ∀ s e s', P s → allowed s e → step s e s' → P s') {s : σ}
    (hreach : Reachable init step allowed s) : P s := by
  induction hreach with
  | start h => exact hinit _ h
  | next hreach hallowed hnext ih => exact hstep _ _ _ ih hallowed hnext

theorem Reachable.script {next : σ → ε → Option σ}
    (hnext : ∀ s e s', next s e = some s' → allowed s e ∧ step s e s') {events : List (σ → ε)}
    {s s' : σ} (hreach : Reachable init step allowed s)
    (hrun : events.foldlM (fun s event => next s (event s)) s = some s') :
    Reachable init step allowed s' := by
  induction events generalizing s with
  | nil =>
      cases hrun
      exact hreach
  | cons event events ih =>
      rw [List.foldlM_cons] at hrun
      obtain ⟨mid, hmid, hrest⟩ := Option.bind_eq_some_iff.mp hrun
      obtain ⟨hallowed, hstep⟩ := hnext s (event s) mid hmid
      exact ih (hreach.next hallowed hstep) hrest

theorem Reachable.events {next : σ → ε → Option σ}
    (hnext : ∀ s e s', next s e = some s' → allowed s e ∧ step s e s') {events : List ε} {s s' : σ}
    (hreach : Reachable init step allowed s) (hrun : events.foldlM next s = some s') :
    Reachable init step allowed s' := by
  have hscript : (events.map fun event (_ : σ) => event).foldlM
      (fun s event => next s (event s)) s = some s' := by
    rw [List.foldlM_map]
    exact hrun
  exact hreach.script hnext hscript

theorem Reachable.observed {β : Type*} {view : σ → β} {x : β} {next : σ → ε → Option σ}
    (hnext : ∀ s e s', next s e = some s' → allowed s e ∧ step s e s') {events : List ε} {s : σ}
    (hreach : Reachable init step allowed s) (hrun : (events.foldlM next s).map view = some x) :
    ∃ s', Reachable init step allowed s' ∧ view s' = x := by
  obtain ⟨s', hs, hview⟩ := Option.map_eq_some_iff.mp hrun
  exact ⟨s', hreach.events hnext hs, hview⟩

def guarded (allowed : σ → ε → Prop) [∀ s e, Decidable (allowed s e)] (next : σ → ε → Option σ)
    (s : σ) (e : ε) : Option σ :=
  if allowed s e then next s e else none

theorem guarded_eq_some [∀ s e, Decidable (allowed s e)] {next : σ → ε → Option σ} (s : σ) (e : ε)
    (s' : σ) (hstep : guarded allowed next s e = some s') : allowed s e ∧ next s e = some s' := by
  unfold guarded at hstep
  split at hstep
  · next hallowed => exact ⟨hallowed, hstep⟩
  · cases hstep

theorem Reachable.steps {next : σ → ε → Option σ} (hnext : ∀ s e s', next s e = some s' → step s e s')
    {events : List ε} (hallowed : ∀ e ∈ events, ∀ s, allowed s e) {s s' : σ}
    (hreach : Reachable init step allowed s) (hrun : events.foldlM next s = some s') :
    Reachable init step allowed s' := by
  induction events generalizing s with
  | nil =>
      cases hrun
      exact hreach
  | cons event events ih =>
      rw [List.foldlM_cons] at hrun
      obtain ⟨mid, hmid, hrest⟩ := Option.bind_eq_some_iff.mp hrun
      refine ih (fun e he => hallowed e (List.mem_cons_of_mem _ he)) ?_ hrest
      exact hreach.next (hallowed event List.mem_cons_self s) (hnext s event mid hmid)

end Library
