import ZynexOS.Kern.Env

/-!
# The scheduler

`sched_yield`, `sched_halt`, `env_run` and `env_destroy`. None of the first three returns: the state
they leave behind says with `curenv` which environment the CPU runs next, and `none` is a halted CPU.
-/

namespace ZynexOS

namespace Kern

/-- `env_run` up to the point where `env_pop_tf` restores the registers; `cpu` is `cpunum()`. -/
def envRun (k : Kern) (cpu e : Nat) : Kern :=
  let k : Kern := match k.curenv with
    | none => k
    | some c =>
        if (k.envs c).envStatus = .running then
          k.setEnv c { k.envs c with envStatus := .runnable }
        else k
  let env := k.envs e
  { k.setEnv e { env with
      envStatus := .running
      envRuns := env.envRuns + 1
      envCpunum := cpu } with
    curenv := some e }

def schedHalt (k : Kern) : Except Panic Kern :=
  if (List.range nEnv).all fun e =>
      decide ((k.envs e).envStatus ≠ .runnable ∧ (k.envs e).envStatus ≠ .running ∧
        (k.envs e).envStatus ≠ .dying) then
    .error .noRunnable
  else .ok { k with curenv := none }

def findRunnable (k : Kern) (slots : List Nat) : Option Nat :=
  slots.find? fun e => (k.envs e).envStatus = .runnable

def schedYield (k : Kern) (cpu : Nat) : Except Panic Kern :=
  match k.curenv with
  | none =>
      match k.findRunnable (List.range nEnv) with
      | some e => .ok (k.envRun cpu e)
      | none => k.schedHalt
  | some c =>
      match k.findRunnable (List.range' c (nEnv - c)) with
      | some e => .ok (k.envRun cpu e)
      | none =>
          match k.findRunnable (List.range c) with
          | some e => .ok (k.envRun cpu e)
          | none => if (k.envs c).envStatus = .running then .ok (k.envRun cpu c) else k.schedHalt

/-- `env_destroy`; the flag says whether it ended in `sched_yield` and so did not return. -/
def envDestroy (k : Kern) (e : Nat) : Except Panic (Bool × Kern) :=
  if (k.envs e).envStatus = .running ∧ k.curenv ≠ some e then
    .ok (false, k.setEnv e { k.envs e with envStatus := .dying })
  else do
    let k ← k.envFree e
    if k.curenv = some e then pure (true, { k with curenv := none }) else pure (false, k)

end Kern

end ZynexOS
