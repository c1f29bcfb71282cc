import ZynexOS.Kern.Cpus

/-!
# Turns on one CPU

The history of one CPU records after each kernel entry whom `sched_yield` gave the CPU to, and the
statuses.
-/

namespace ZynexOS

namespace Kern

def yieldsIn (k : Kern) (dev : Int) (tf : Trapframe) : Except Panic (Option Kern) := do
  let c ← k.cur
  if (k.envs c).envStatus = .dying then
    let k ← k.envFree c
    pure (some { k with curenv := none })
  else
    let k := k.setEnv c { k.envs c with envTf := tf }
    match ← k.trapDispatch dev c with
    | (.run, _) => pure none
    | (.resched, k) => pure (some k)
    | (.back, k) =>
        match k.curenv with
        | none => pure (some k)
        | some e => if (k.envs e).envStatus = .running then pure none else pure (some k)

/-- `sched_yield` is called in a state in which the search from the start of `envs[]`, which it does
when there is no current environment any more, finds what the search from `c` would find; and `c`,
which ran last, is not found at once. -/
structure KeepsOrder (k : Kern) (c : Nat) : Prop where
  gaveUp : (k.envs c).envStatus ≠ .runnable
  gone : k.curenv = none → (∀ e < c, (k.envs e).envStatus ≠ .runnable) ∨
    ∀ e < nEnv, c ≤ e → (k.envs e).envStatus ≠ .runnable

end Kern

def Machine.yieldState (m : Machine) : Event → Option Kern
  | .trap cpu user =>
      ((m.enter cpu user).yieldsIn user.dev user.frame).toOption.join
  | .tick _ => some { m.kern with curenv := none }

structure Turn where
  dispatched : Option Nat
  status : Nat → EnvStatus

structure Rota where
  machine : Machine
  turns : List Turn

namespace Rota

def turnOf (m : Machine) (event : Event) (m' : Machine) : Turn where
  dispatched := if (m.yieldState event).isSome then m'.cpuEnv 0 else none
  status := fun e => (m'.kern.envs e).envStatus

inductive Step (r : Rota) : Event → Rota → Prop where
  | turn {event : Event} {m : Machine} (hcpu : event.cpu = 0) (hstep : r.machine.Step event m) :
      r.Step event ⟨m, turnOf r.machine event m :: r.turns⟩

def Starts (r : Rota) : Prop := r.machine.Boots ∧ r.turns = []

/-- An environment `e` that stays runnable from one dispatch of `x` to the next is dispatched in
between. -/
def SkipsNobody (turns : List Turn) : Prop :=
  ∀ (newer between older : List Turn) (first last : Turn) (x e : Nat),
    turns = newer ++ last :: (between ++ first :: older) → first.dispatched = some x →
      last.dispatched = some x → (∀ turn ∈ between, turn.dispatched ≠ some x) → e < nEnv → e ≠ x →
        (∀ turn ∈ last :: (between ++ [first]), turn.status e = .runnable) →
          ∃ turn ∈ between, turn.dispatched = some e

def InOrder (r : Rota) (event : Event) : Prop :=
  ∀ k c, r.machine.yieldState event = some k → r.machine.cpuEnv event.cpu = some c → k.KeepsOrder c

end Rota

end ZynexOS
