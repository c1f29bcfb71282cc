import ZynexOS.Kern.Machine

/-!
# The kernel stack of a CPU

`_alltraps_ret` sets `sscratch` to the kernel stack for the next trap. It finds the number of its CPU
in the `struct Env` that `tp` points to, which is loaded like any other register.
-/

namespace ZynexOS

def nCpu : Nat := 8

def envCpunumOff : Word := 316

def kernSp (cpu : Nat) : Word := kstacktop - BitVec.ofNat 64 (cpu * (kstksize + kstkgap))

def exitLoad (regs : Trapframe) : Word := regs.tp + envCpunumOff

/-- `sscratch`, from the word that was read: `mulw` multiplies 32 bits and extends the sign. -/
def exitScratch (cpunum : BitVec 32) : Word :=
  kstacktop - (cpunum * BitVec.ofNat 32 (kstksize + kstkgap)).signExtend 64

namespace Machine

/-- CPU `cpu` has left the kernel by reading `env_cpunum` of the environment it runs, an entry of the
table, and with its own kernel stack in `sscratch`. -/
def ExitsRight (m : Machine) (cpu : Nat) : Prop :=
  ∀ e, m.cpuEnv cpu = some e →
    e < nEnv ∧ exitLoad (m.regs cpu) = m.kern.envAddr e + envCpunumOff ∧
      exitScratch (BitVec.ofNat 32 (m.kern.envs e).envCpunum) = kernSp cpu

/-- The run condition: user code leaves `tp` as it found it, and a frame that is handed to
`sys_env_set_trapframe` has in `tp` the address of the environment that it is for. -/
def KeepsTp (m : Machine) : Event → Prop
  | .trap cpu user => ∀ c, m.cpuEnv cpu = some c →
      user.regs.tp = m.kern.envAddr c ∧
      (Kern.IsCall user.frame .envSetTrapframe → ∀ e frame,
        (m.inCall cpu c user).envid2env (user.regs.a1.setWidth 32) true = .ok (some e) →
        Kern.readTrapframe (m.inCall cpu c user).vm user.regs.a2 = .ok frame →
        frame.tp = m.kern.envAddr e)
  | .tick _ => True

end Machine

end ZynexOS
