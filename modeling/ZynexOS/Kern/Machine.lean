import ZynexOS.Kern.Trap

/-!
# The machine around the kernel

CPUs run user code or idle, and enter the kernel one at a time: the big kernel lock makes each entry,
from the trap to the restore of the registers, one step. What user code does between two traps shows
only in the registers and the memory the kernel finds.
-/

namespace ZynexOS

/-- The registers `_alltraps_ret` loads from a frame. A call whose number was 10, `SYS_yield`, has not
been advanced past its `ecall` yet. -/
def popTf (tf : Trapframe) : Trapframe :=
  if tf.origA0 = 10 then { tf with sepc := tf.sepc + 4 } else tf

/-- `regs cpu` is the register file of CPU `cpu` as it was when the CPU last left the kernel for
`cpuEnv cpu`; `none` is a halted CPU. -/
structure Machine where
  kern : Kern
  cpuEnv : Nat → Option Nat
  regs : Nat → Trapframe

/-- A trap from user mode, as the hardware and `_alltraps` hand it to `trap`: the registers at the
trap, `sstatus`, `stval` and `scause`, what a device call returns, and the contents of memory, about
which nothing is assumed. -/
structure UserTrap where
  regs : Trapframe
  status : Word
  stval : Word
  scause : Word
  dev : Int
  mem : Word → Option Word

def UserTrap.frame (trap : UserTrap) : Trapframe :=
  { trap.regs with
    status := trap.status, stval := trap.stval, scause := trap.scause, origA0 := trap.regs.a0 }

inductive Event where
  | trap (cpu : Nat) (trap : UserTrap)
  | tick (cpu : Nat)

namespace Machine

def enter (m : Machine) (cpu : Nat) (trap : UserTrap) : Kern :=
  { m.kern with
    curenv := m.cpuEnv cpu, sstatus := trap.status, vm := { m.kern.vm with mem := trap.mem } }

def inCall (m : Machine) (cpu c : Nat) (user : UserTrap) : Kern :=
  (m.enter cpu user).setEnv c { m.kern.envs c with envTf := user.frame }

/-- CPU `cpu` leaves the kernel in state `k`: `env_pop_tf` of the new current environment, if any. -/
def leave (m : Machine) (cpu : Nat) (k : Kern) : Machine :=
  { kern := k
    cpuEnv := Function.update m.cpuEnv cpu k.curenv
    regs := match k.curenv with
      | none => m.regs
      | some e => Function.update m.regs cpu (popTf (k.envs e).envTf) }

/-- One entry into the kernel: a trap from user mode, for which the hardware clears `SSTATUS_SPP`, or
the timer interrupt of a halted CPU. -/
inductive Step (m : Machine) : Event → Machine → Prop where
  | trap {cpu e : Nat} {trap : UserTrap} {k : Kern} (hrunning : m.cpuEnv cpu = some e)
      (hstatus : spp trap.status = false)
      (hkernel : (m.enter cpu trap).trap cpu trap.dev trap.frame = .ok k) :
      m.Step (.trap cpu trap) (m.leave cpu k)
  | tick {cpu : Nat} {k : Kern} (hidle : m.cpuEnv cpu = none)
      (hkernel : ({ m.kern with curenv := none } : Kern).schedYield cpu = .ok k) :
      m.Step (.tick cpu) (m.leave cpu k)

def exec (m : Machine) : Event → Except Panic Machine
  | .trap cpu trap => do
      let k ← (m.enter cpu trap).trap cpu trap.dev trap.frame
      pure (m.leave cpu k)
  | .tick cpu => do
      let k ← ({ m.kern with curenv := none } : Kern).schedYield cpu
      pure (m.leave cpu k)

end Machine

/-! ### Boot -/

/-- `riscv_init` up to the first `sched_yield`: the environment table starts out as zeroes, and the
programs are loaded in order. -/
def Kern.boot (vm : Vm) (kernPgdir envsAddr sstatus : Word) (programs : List (Kern.Image × EnvType)) :
    Except Panic Kern :=
  programs.foldlM (fun k program => k.envCreate program.1 program.2)
    (Kern.envInit
      { vm := vm
        kernPgdir := kernPgdir
        envsAddr := envsAddr
        envs := fun _ => {}
        envFreeList := none
        curenv := none
        sstatus := sstatus })

def Machine.start (k : Kern) : Machine where
  kern := k
  cpuEnv := fun _ => none
  regs := fun _ => {}

def Machine.Boots (m : Machine) : Prop :=
  ∃ vm kernPgdir envsAddr sstatus programs k, spp sstatus = false ∧
    Kern.boot vm kernPgdir envsAddr sstatus programs = .ok k ∧ m = Machine.start k

end ZynexOS
