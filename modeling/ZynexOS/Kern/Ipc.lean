import ZynexOS.Kern.Machine

/-!
# Receives and sends as user programs see them

A receive is outstanding from the `ecall` that issues it until the environment is back in user mode
past that `ecall`; resumed at the `ecall` itself, the environment only executes it again.
-/

namespace ZynexOS

inductive IpcEvent where
  | recv (e : Nat) (dstva : Word)
  | send (e : Nat)
  | back (e : Nat) (value : Word)
deriving DecidableEq

def IpcEvent.env : IpcEvent → Nat
  | .recv e _ => e
  | .send e => e
  | .back e _ => e

def badDstva (dstva : Word) : Bool := dstva < utop ∧ dstva.toNat % pgSize ≠ 0

inductive Phase where
  | idle
  | pending (dstva : Word)
  | delivered
deriving DecidableEq

/-- The one order that is right: a receive is issued, one send is delivered to it, it returns 0; a
receive with a bad address returns `-E_INVAL`. -/
def Phase.next : Phase → IpcEvent → Option Phase
  | .idle, .recv _ dstva => some (.pending dstva)
  | .pending dstva, .send _ => if badDstva dstva then none else some .delivered
  | .pending dstva, .back _ value =>
      if badDstva dstva ∧ value = BitVec.ofInt 64 (-eInval) then some .idle else none
  | .delivered, .back _ value => if value = 0 then some .idle else none
  | _, _ => none

def phaseOf (e : Nat) : List IpcEvent → Option Phase
  | [] => some .idle
  | event :: log => if event.env = e then (phaseOf e log).bind (·.next event) else phaseOf e log

def Paired (log : List IpcEvent) : Prop := ∀ e, (phaseOf e log).isSome

def UserTrap.calls (user : UserTrap) (no : Sysno) : Prop :=
  Cause.ofScause user.scause = .syscall ∧ Sysno.ofWord user.regs.a0 = some no

instance (user : UserTrap) (no : Sysno) : Decidable (user.calls no) :=
  inferInstanceAs (Decidable (_ ∧ _))

/-- Interrupts, and the calls `sys_yield`, `sys_ipc_try_send`, `sys_ipc_recv`, `sys_env_set_status`. -/
def UserTrap.IsIpc (user : UserTrap) : Prop :=
  Cause.ofScause user.scause = .timer ∨ Cause.ofScause user.scause = .interrupt ∨
    user.calls .yield ∨ user.calls .ipcTrySend ∨ user.calls .ipcRecv ∨ user.calls .envSetStatus

structure Observed where
  machine : Machine
  waiting : Nat → Option Word
  log : List IpcEvent

namespace Observed

def sentTo (k : Kern) (user : UserTrap) : Option Nat :=
  if user.calls .ipcTrySend then
    match k.syscall user.dev user.regs.a0 user.regs.a1 user.regs.a2 user.regs.a3 user.regs.a4
        user.regs.a5 with
    | .ok (.ret 0, _) => (k.envid2env (user.regs.a1.setWidth 32) false).toOption.join
    | _ => none
  else none

def waitingIn (o : Observed) (c : Nat) (user : UserTrap) : Nat → Option Word :=
  if user.calls .ipcRecv then Function.update o.waiting c (some user.regs.sepc) else o.waiting

def logIn (o : Observed) (cpu c : Nat) (user : UserTrap) : List IpcEvent :=
  if user.calls .ipcRecv then
    if o.waiting c = none then .recv c user.regs.a1 :: o.log else o.log
  else
    match sentTo (o.machine.inCall cpu c user) user with
    | some e => .send e :: o.log
    | none => o.log

/-- CPU `cpu` is back in user mode in `m`: if its environment is past the `ecall` of its outstanding
receive, that receive has returned. -/
def resume (waiting : Nat → Option Word) (log : List IpcEvent) (m : Machine) (cpu : Nat) : Observed :=
  match m.cpuEnv cpu with
  | none => ⟨m, waiting, log⟩
  | some e =>
      match waiting e with
      | none => ⟨m, waiting, log⟩
      | some pc =>
          if (m.regs cpu).sepc = pc then ⟨m, waiting, log⟩
          else ⟨m, Function.update waiting e none, .back e (m.regs cpu).a0 :: log⟩

/-- One step. An environment that was resumed at the `ecall` of its outstanding receive has executed
nothing since, so its registers at the trap are those it was resumed with. -/
inductive Step (o : Observed) : Event → Observed → Prop where
  | trap {cpu c : Nat} {user : UserTrap} {m : Machine} (hrunning : o.machine.cpuEnv cpu = some c)
      (hclass : user.IsIpc)
      (hecall : ∀ pc, o.waiting c = some pc → (o.machine.regs cpu).sepc = pc →
        user.regs = o.machine.regs cpu)
      (hstep : o.machine.Step (.trap cpu user) m) :
      o.Step (.trap cpu user) (resume (o.waitingIn c user) (o.logIn cpu c user) m cpu)
  | tick {cpu : Nat} {m : Machine} (hstep : o.machine.Step (.tick cpu) m) :
      o.Step (.tick cpu) (resume o.waiting o.log m cpu)

def Starts (o : Observed) : Prop :=
  o.machine.Boots ∧ (∀ e, o.waiting e = none) ∧ o.log = []

/-- The run condition: no receive has a bad address, and no send names an environment that is running
on a CPU with a receive outstanding. -/
def Orderly (o : Observed) : Event → Prop
  | .trap cpu user =>
      (user.calls .ipcRecv → badDstva user.regs.a1 = false) ∧
      ∀ c e, o.machine.cpuEnv cpu = some c → user.calls .ipcTrySend →
        (o.machine.inCall cpu c user).envid2env (user.regs.a1.setWidth 32) false = .ok (some e) →
        o.waiting e ≠ none → ∀ cpu', o.machine.cpuEnv cpu' ≠ some e
  | .tick _ => True

end Observed

end ZynexOS
