import ZynexOS.Kern.Machine

/-!
# Environments on CPUs

An environment that is `ENV_RUNNING` or `ENV_DYING` is meant to be the current one of one CPU.
-/

namespace ZynexOS

def EnvStatus.OnCpu (status : EnvStatus) : Prop := status = .running ∨ status = .dying

def Event.cpu : Event → Nat
  | .trap cpu _ | .tick cpu => cpu

namespace Machine

/-- An environment is current on one CPU at most, and on exactly one if its status says so. -/
structure Exclusive (m : Machine) : Prop where
  unique : ∀ cpu cpu' e, m.cpuEnv cpu = some e → m.cpuEnv cpu' = some e → cpu = cpu'
  onCpu : ∀ e, (m.kern.envs e).envStatus.OnCpu → ∃! cpu, m.cpuEnv cpu = some e

/-- `env_free(e)` has been called in a step that leaves `m'`: it gives up the page directory, without
which it cannot be called, and no other function does. -/
def Frees (m m' : Machine) (e : Nat) : Prop :=
  (m.kern.envs e).envPgdir ≠ 0 ∧ (m'.kern.envs e).envPgdir = 0

def FreesOwn (m : Machine) (cpu : Nat) (m' : Machine) : Prop :=
  ∀ e, m.Frees m' e → ∀ cpu', m.cpuEnv cpu' = some e → cpu' = cpu

/-- A call by environment `c` in state `k` that leaves alone what other CPUs run: a status stored by
`sys_env_set_status` is not one of a CPU, and neither the target of `sys_env_destroy` is dying nor a
receiving target of `sys_ipc_try_send` on a CPU, unless it is the caller. -/
structure Careful (k : Kern) (c : Nat) (tf : Trapframe) : Prop where
  setStatus : Kern.IsCall tf .envSetStatus →
    ∀ e status, k.envid2env (tf.a1.setWidth 32) true = .ok (some e) →
      (k.envs e).envStatus = .runnable ∨ (k.envs e).envStatus = .notRunnable →
      envStatusOf (tf.a2.setWidth 32).toNat = some status → ¬status.OnCpu
  destroy : Kern.IsCall tf .envDestroy →
    ∀ e, k.envid2env (tf.a1.setWidth 32) true = .ok (some e) → e ≠ c →
      (k.envs e).envStatus ≠ .dying
  send : Kern.IsCall tf .ipcTrySend →
    ∀ e, k.envid2env (tf.a1.setWidth 32) false = .ok (some e) → e ≠ c →
      (k.envs e).envIpcRecving = true → ¬(k.envs e).envStatus.OnCpu

/-- The run condition. The trap of a dying environment only frees it. -/
def CarefulEvent (m : Machine) : Event → Prop
  | .trap cpu user => ∀ c, m.cpuEnv cpu = some c → (m.kern.envs c).envStatus ≠ .dying →
      Careful (m.inCall cpu c user) c user.frame
  | .tick _ => True

end Machine

/-- Environment `e` is there, and neither `c` nor a child of `c`, and waits for no message. -/
structure Kern.Apart (k : Kern) (c e : Nat) : Prop where
  ne : e ≠ c
  live : (k.envs e).envStatus ≠ .free
  parent : (k.envs e).envParentId ≠ (k.envs c).envId
  recving : (k.envs e).envIpcRecving = false

end ZynexOS
