import ZynexOS.Kern.Cpus

/-!
# The big kernel lock

`lock_kernel` and `unlock_kernel` in `riscv_init`, `boot_aps`, `mp_main`, `trap`, `sched_halt` and
`env_pop_tf`. Each `atomic_raw_xchg` is a step of its own, and the steps of the CPUs interleave in any
order. A CPU in the kernel works on the data that it finds there, and has stored its results when it
comes to `unlock_kernel`. The programs that `riscv_init` loads are there from the start.
-/

namespace ZynexOS

inductive CpuStatus where
  | unused
  | started
  | halted
deriving DecidableEq

/-- `(tf->status & SSTATUS_SPP) >> SPP_SHIFT`. A halted CPU is in supervisor mode. -/
def Event.spp : Event → Bool
  | .trap _ user => ZynexOS.spp user.status
  | .tick _ => true

inductive CpuPc where
  | off
  /-- In `boot_aps`, with the CPUs that are still to be started, and in its wait for one of them. -/
  | boot (aps : List Nat)
  | await (ap : Nat) (aps : List Nat)
  | mpMain
  | user
  | idle
  /-- At the start of `trap`, at its first `lock_kernel`, and at the test of `SSTATUS_SPP`. -/
  | trap (event : Event)
  | relock (event : Event)
  | test (event : Event)
  /-- At the second `lock_kernel` of `trap`, or at the one of `mp_main`. -/
  | lock (event : Event)
  | kernel (event : Event) (found : Machine)
  | halt
  | unlock
  /-- In `env_pop_tf`, behind `unlock_kernel`. -/
  | pop (e : Nat)
  /-- In the monitor, or in the loop at the start of `trap`. -/
  | dead (inside : Bool)

def CpuPc.inside : CpuPc → Bool
  | .boot _ | .await _ _ | .kernel _ _ | .halt | .unlock => true
  | .test event => event.spp
  | .dead inside => inside
  | _ => false

/-- `holder` is the field `cpu` that `struct spinlock` has with `DEBUG_SPINLOCK`, and `regs` are the
registers that each CPU has loaded. -/
structure LockSys where
  locked : Bool
  holder : Option Nat
  panicstr : Bool
  cpuStatus : Nat → CpuStatus
  machine : Machine
  regs : Nat → Trapframe
  pc : Nat → CpuPc

namespace LockSys

def goto (s : LockSys) (cpu : Nat) (pc : CpuPc) : LockSys :=
  { s with pc := Function.update s.pc cpu pc }

def setStatus (s : LockSys) (cpu : Nat) (status : CpuStatus) : LockSys :=
  { s with cpuStatus := Function.update s.cpuStatus cpu status }

def spinLock (s : LockSys) (cpu : Nat) (next : CpuPc) : LockSys :=
  if s.locked then s else { s with locked := true, holder := some cpu }.goto cpu next

def spinUnlock (s : LockSys) : LockSys := { s with locked := false, holder := none }

/-- `sbi_boot_ap`, which does nothing to a CPU that has been started. -/
def sbiBootAp (s : LockSys) (ap : Nat) : LockSys :=
  match s.pc ap with
  | .off => s.goto ap .mpMain
  | _ => s

def panic (s : LockSys) (cpu : Nat) (inside : Bool) : LockSys :=
  { s with panicstr := true }.goto cpu (.dead inside)

/-- The next step of CPU `cpu`; in user mode it is `user`, a trap. -/
def exec (s : LockSys) (cpu : Nat) (user : UserTrap) : Option LockSys :=
  match s.pc cpu with
  | .off | .dead _ => none
  | .boot [] => some (s.goto cpu (.kernel (.tick cpu) s.machine))
  | .boot (ap :: aps) => some ((s.sbiBootAp ap).goto cpu (.await ap aps))
  | .await ap aps => if s.cpuStatus ap = .started then some (s.goto cpu (.boot aps)) else some s
  | .mpMain => some ((s.setStatus cpu .started).goto cpu (.lock (.tick cpu)))
  | .user => if spp user.status then none else some (s.goto cpu (.trap (.trap cpu user)))
  | .idle => some (s.goto cpu (.trap (.tick cpu)))
  | .trap event =>
      -- `atomic_raw_xchg(&thiscpu->cpu_status, CPU_STARTED) == CPU_HALTED`
      if s.panicstr then some (s.goto cpu (.dead false))
      else some ((s.setStatus cpu .started).goto cpu
        (if s.cpuStatus cpu = .halted then .relock event else .test event))
  | .relock event => some (s.spinLock cpu (.test event))
  | .test event =>
      if event.spp then some (s.goto cpu (.kernel event s.machine))
      else if (s.machine.cpuEnv cpu).isNone then some (s.panic cpu false)
      else some (s.goto cpu (.lock event))
  | .lock event => some (s.spinLock cpu (.kernel event s.machine))
  | .kernel event found =>
      match found.exec event with
      | .error .noRunnable => some (s.goto cpu (.dead true))
      | .error _ => some (s.panic cpu true)
      | .ok m => some ({ s with machine := m }.goto cpu
          (if (m.cpuEnv cpu).isNone then .halt else .unlock))
  | .halt => some ((s.setStatus cpu .halted).goto cpu .unlock)
  | .unlock => some (s.spinUnlock.goto cpu
      (match s.machine.cpuEnv cpu with
        | none => .idle
        | some e => .pop e))
  -- `_alltraps_ret` loads the registers after the lock has been given up
  | .pop e => some ({ s with
      regs := Function.update s.regs cpu (popTf (s.machine.kern.envs e).envTf) }.goto cpu .user)

def Step (s : LockSys) (label : Nat × UserTrap) (s' : LockSys) : Prop :=
  s.exec label.1 label.2 = some s'

/-- The CPUs that `boot_aps` starts: those in `cpu_mask` as `mp_init` leaves it. -/
def apsOf (ncpu hartid : Nat) : List Nat :=
  if ncpu = 1 then [] else
    (List.range (if 1 ≤ ncpu ∧ ncpu ≤ 8 then ncpu else 1)).filter (· != hartid)

def start (m : Machine) (ncpu hartid : Nat) : LockSys where
  locked := true
  holder := some hartid
  panicstr := false
  cpuStatus := fun _ => .unused
  machine := m
  regs := fun _ => {}
  pc := Function.update (fun _ => .off) hartid (.boot (apsOf ncpu hartid))

def Boots (s : LockSys) : Prop := ∃ m ncpu hartid, m.Boots ∧ s = start m ncpu hartid

/-- `kernel_lock` is taken exactly while a CPU is in the code that it protects, and that CPU has taken
it; so no CPU waits for itself in `spin_lock`. The assertion of `trap` holds. -/
structure Disciplined (s : LockSys) : Prop where
  locked : s.locked = s.holder.isSome
  inside : ∀ cpu, (s.pc cpu).inside = true ↔ s.holder = some cpu
  curenv : ∀ cpu event, s.pc cpu = .test event → event.spp = false → s.machine.cpuEnv cpu ≠ none

/-- The entries that CPUs make into the kernel are `allowed` by the data they find. -/
def Enters (allowed : Machine → Event → Prop) (s : LockSys) (label : Nat × UserTrap) : Prop :=
  ∀ event found, s.pc label.1 = .kernel event found → allowed found event

/-- The run condition for the registers: the calls are careful, and while a CPU loads the registers of
an environment, which it does without the lock, no other CPU makes a call that can change them. -/
def Undisturbed (s : LockSys) (label : Nat × UserTrap) : Prop :=
  s.Enters Machine.CarefulEvent label ∧ ∀ cpu e, s.pc cpu = .pop e →
    s.Enters (fun found event => ∀ c, found.cpuEnv event.cpu = some c → found.kern.Apart c e) label

end LockSys

end ZynexOS
