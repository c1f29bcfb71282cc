import ZynexOS.Kern.Cpus
import ZynexOS.Kern.Ipc

/-!
# Where environments resume

The saved program counter is moved past an `ecall` in three places: `trap_dispatch`, the calls that
complete a call of another environment, and `_alltraps_ret` for a frame with `orig_a0 = 10`.
-/

namespace ZynexOS

/-- What the last trap of an environment asks of its next instruction: nothing, the instruction at `pc`,
or nothing before the receive of the `ecall` at `pc` has completed. -/
inductive Due where
  | unknown
  | next (pc : Word)
  | blocked (pc : Word)
deriving DecidableEq

def Due.complete : Due → Due
  | .blocked pc => .next (pc + 4)
  | due => due

structure Watched where
  machine : Machine
  due : Nat → Due

namespace Watched

/-- What becomes due for other environments by a call in `k`: the child of a fork and the receiver of a
message are past the `ecall`, and a frame that is stored replaces what was due. -/
def dueOthers (due : Nat → Due) (k : Kern) (user : UserTrap) : Nat → Due :=
  if user.calls .exofork then
    match k.envFreeList with
    | some e => Function.update due e (.next (user.regs.sepc + 4))
    | none => due
  else if user.calls .ipcTrySend then
    match Observed.sentTo k user with
    | some e => Function.update due e (due e).complete
    | none => due
  else if user.calls .envSetTrapframe then
    match k.envid2env (user.regs.a1.setWidth 32) true with
    | .ok (some e) => Function.update due e .unknown
    | _ => due
  else due

/-- What becomes due for the environment that made a call. A call that neither returns nor yields nor
receives has destroyed it. -/
def dueCaller (user : UserTrap) : SysExit → Due
  | .ret _ => .next (user.regs.sepc + 4)
  | .resched =>
      if user.calls .yield then .next (user.regs.sepc + 4)
      else if user.calls .ipcRecv then .blocked user.regs.sepc
      else .unknown

def dueAfter (w : Watched) (cpu c : Nat) (user : UserTrap) : Nat → Due :=
  if (w.machine.kern.envs c).envStatus = .dying then Function.update w.due c .unknown
  else
    match Cause.ofScause user.scause with
    | .timer | .interrupt | .breakpoint => Function.update w.due c (.next user.regs.sepc)
    | .pageFault | .other => Function.update w.due c .unknown
    | .syscall =>
        let k := w.machine.inCall cpu c user
        match k.syscall user.dev user.regs.a0 user.regs.a1 user.regs.a2 user.regs.a3 user.regs.a4
            user.regs.a5 with
        | .ok (exit, _) => Function.update (dueOthers w.due k user) c (dueCaller user exit)
        | .error _ => w.due

inductive Step (w : Watched) : Event → Watched → Prop where
  | trap {cpu c : Nat} {user : UserTrap} {m : Machine} (hrunning : w.machine.cpuEnv cpu = some c)
      (hstep : w.machine.Step (.trap cpu user) m) :
      w.Step (.trap cpu user) ⟨m, w.dueAfter cpu c user⟩
  | tick {cpu : Nat} {m : Machine} (hstep : w.machine.Step (.tick cpu) m) :
      w.Step (.tick cpu) ⟨m, w.due⟩

def Starts (w : Watched) : Prop := w.machine.Boots ∧ ∀ e, w.due e = .unknown

def ResumesRight (w : Watched) (cpu : Nat) : Prop :=
  ∀ e pc, w.machine.cpuEnv cpu = some e → w.due e = .next pc → (w.machine.regs cpu).sepc = pc

/-- The run condition. A breakpoint or an interrupt other than the timer's is not taken with 10 in a0;
the receiver of a message is another environment that is not due anywhere; `sys_env_set_trapframe`
names another environment; and `sys_exofork` does not find its caller on the free list. -/
def Sane (w : Watched) : Event → Prop
  | .trap cpu user =>
      ∀ c, w.machine.cpuEnv cpu = some c →
        let k := w.machine.inCall cpu c user
        (Cause.ofScause user.scause = .breakpoint ∨ Cause.ofScause user.scause = .interrupt →
          user.regs.a0 ≠ 10) ∧
        (∀ e, user.calls .ipcTrySend → k.envid2env (user.regs.a1.setWidth 32) false = .ok (some e) →
          (k.envs e).envIpcRecving = true → e ≠ c ∧ ∀ pc, w.due e ≠ .next pc) ∧
        (user.calls .envSetTrapframe →
          k.envid2env (user.regs.a1.setWidth 32) true ≠ .ok (some c)) ∧
        (user.calls .exofork → k.envFreeList ≠ some c)
  | .tick _ => True

end Watched

end ZynexOS
