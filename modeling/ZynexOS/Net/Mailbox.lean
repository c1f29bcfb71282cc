import ZynexOS.Kern.Layout
import ZynexOS.Library.Run
import ZynexOS.Library.Window

/-!
# Mailboxes of the network server

The mailbox calls of `net/lwip/jos/arch/sys_arch.c` on one mailbox that is not freed, with the
semaphores below them and `thread_wait` of `thread.c`. One thread runs until it yields, and then any
thread may be the next. The clock can advance at any point.
-/

namespace ZynexOS

open Library

def mboxSlots : Nat := 32

def sysArchNowait : Nat := 0xfffffffe

def sysArchTimeout : Nat := 0xffffffff

structure SysSem where
  counter : Nat
  waiters : Nat

def SysSem.v (sem : SysSem) : Nat := sem.counter + 2 ^ 16 * sem.waiters

inductive MboxSem where
  | queuedMsg
  | freeMsg
deriving DecidableEq

structure SysMbox where
  head : Int
  nextq : Int
  msg : Int → Word

namespace SysMbox

/-- The queued messages, oldest first. If `head` and `nextq` are the same, all slots are in use. -/
def queue (m : SysMbox) : List Word :=
  if m.head = -1 then []
  else
    let n := ahead mboxSlots m.head.toNat m.nextq.toNat
    (window mboxSlots m.head.toNat (if n = 0 then mboxSlots else n)).map fun i : Nat => m.msg i

def push (m : SysMbox) (msg : Word) : Option SysMbox :=
  if m.nextq = m.head then none
  else
    let slot := m.nextq
    some { nextq := Int.tmod (slot + 1) mboxSlots
           msg := Function.update m.msg slot msg
           head := if m.head = -1 then slot else m.head }

def pop (m : SysMbox) : Option (Word × SysMbox) :=
  let slot := m.head
  if slot = -1 then none
  else
    let head := Int.tmod (slot + 1) mboxSlots
    some (m.msg slot, { m with head := if head = m.nextq then -1 else head })

end SysMbox

/-- `sys_arch_mbox_tryfetch` is `fetch SYS_ARCH_NOWAIT`. -/
inductive MboxCall where
  | post (msg : Word)
  | trypost (msg : Word)
  | fetch (tmMsec : Nat)
deriving DecidableEq

namespace MboxCall

def sem : MboxCall → MboxSem
  | .post _ | .trypost _ => .freeMsg
  | .fetch _ => .queuedMsg

def tmMsec : MboxCall → Nat
  | .post _ | .trypost _ => 0
  | .fetch tmMsec => tmMsec

end MboxCall

structure SemWait where
  call : MboxCall
  waited : Nat
  a : Nat
  sleepUntil : Nat
  curV : Nat
deriving DecidableEq

inductive MboxPc where
  | idle
  | test (call : MboxCall) (waited : Nat)
  | enter (w : SemWait)
  | loop (w : SemWait) (s p : Nat)
  | yielded (w : SemWait) (s : Nat)
  | awake (w : SemWait)
deriving DecidableEq

def MboxPc.Switches : MboxPc → Prop
  | .idle | .yielded _ _ => True
  | _ => False

instance : (pc : MboxPc) → Decidable pc.Switches
  | .idle | .yielded _ _ => inferInstanceAs (Decidable True)
  | .test _ _ | .enter _ | .loop _ _ _ | .awake _ => inferInstanceAs (Decidable False)

def MboxPc.SleepsOn (sem : MboxSem) : MboxPc → Prop
  | .yielded w _ => w.call.sem = sem
  | _ => False

instance (sem : MboxSem) : (pc : MboxPc) → Decidable (pc.SleepsOn sem)
  | .yielded _ _ => inferInstanceAs (Decidable (_ = _))
  | .idle | .test _ _ | .enter _ | .loop _ _ _ | .awake _ => inferInstanceAs (Decidable False)

/-- `posted` and `fetched` list the messages that have been queued and taken. `failed` is set by the
assertion in `sys_mbox_post` and by the panic in `sys_arch_mbox_fetch`. -/
structure MboxSys where
  mbox : SysMbox
  sems : MboxSem → SysSem
  pc : Nat → MboxPc
  wakeup : Nat → Bool
  running : Nat
  ticks : Nat
  posted : List Word
  fetched : List Word
  failed : Bool

inductive MboxEvent where
  | tick
  | switch (t : Nat)
  | call (call : MboxCall)
  | step

namespace MboxSys

def now (s : MboxSys) : Nat := s.ticks * 10 % 2 ^ 32

def semSignal (s : MboxSys) (sem : MboxSem) : MboxSys :=
  let e := { s.sems sem with counter := ((s.sems sem).counter + 1) % 2 ^ 16 }
  if e.waiters = 0 then { s with sems := Function.update s.sems sem e }
  else
    { s with
      sems := Function.update s.sems sem { e with waiters := 0 }
      wakeup := fun t => s.wakeup t || decide ((s.pc t).SleepsOn sem) }

def queueMsg (s : MboxSys) (msg : Word) : Option MboxSys :=
  match s.mbox.push msg with
  | none => none
  | some mbox => some ({ s with mbox := mbox, posted := s.posted ++ [msg] }.semSignal .queuedMsg)

def finish (s : MboxSys) (waited : Nat) : MboxCall → MboxSys
  | .post msg => (s.queueMsg msg).getD { s with failed := true }
  | .trypost msg => (s.queueMsg msg).getD s
  | .fetch _ =>
      if waited = sysArchTimeout then s
      else
        match s.mbox.pop with
        | none => { s with failed := true }
        | some (msg, mbox) =>
            { s with mbox := mbox, fetched := s.fetched ++ [msg] }.semSignal .freeMsg

def goto (s : MboxSys) (pc : MboxPc) : MboxSys :=
  { s with pc := Function.update s.pc s.running pc }

def semTest (s : MboxSys) (call : MboxCall) (waited : Nat) : MboxSys :=
  let e := s.sems call.sem
  if call.tmMsec = 0 ∨ waited < call.tmMsec then
    if 0 < e.counter then
      { s with sems := Function.update s.sems call.sem { e with counter := e.counter - 1 } }.finish
        waited call |>.goto .idle
    else if call.tmMsec = sysArchNowait then s.goto .idle
    else
      let sleepUntil := if call.tmMsec = 0 then 0xffffffff
        else (s.now + (call.tmMsec - waited)) % 2 ^ 32
      let e := { e with waiters := 1 }
      { s with sems := Function.update s.sems call.sem e }.goto
        (.enter ⟨call, waited, s.now, sleepUntil, e.v⟩)
  else s.goto .idle

def advance (s : MboxSys) : Option MboxSys :=
  match s.pc s.running with
  | .idle => none
  | .test call waited => some (s.semTest call waited)
  | .enter w =>
      some ({ s with wakeup := Function.update s.wakeup s.running false }.goto (.loop w s.now s.now))
  | .loop w start p =>
      if w.sleepUntil ≤ p ∨ p < start ∨ (s.sems w.call.sem).v ≠ w.curV ∨ s.wakeup s.running then
        some ({ s with wakeup := Function.update s.wakeup s.running false }.goto (.awake w))
      else some (s.goto (.yielded w start))
  | .yielded w start => some (s.goto (.loop w start s.now))
  | .awake w =>
      some (s.goto (.test w.call ((w.waited + (s.now + 2 ^ 32 - w.a)) % 2 ^ 32)))

def exec (s : MboxSys) : MboxEvent → Option MboxSys
  | .tick =>
      let ticks := (s.ticks + 1) % 2 ^ 32
      if ticks * 10 % 2 ^ 32 < ticks then none else some { s with ticks := ticks }
  | .switch t => if (s.pc s.running).Switches then some { s with running := t } else none
  | .call call => if s.pc s.running = .idle then some (s.goto (.test call 0)) else none
  | .step => s.advance

def Step (s : MboxSys) (event : MboxEvent) (s' : MboxSys) : Prop := s.exec event = some s'

/-- `sys_mbox_new` has just returned. It does not reset the flags of the semaphores. -/
structure Starts (s : MboxSys) : Prop where
  head : s.mbox.head = -1
  nextq : s.mbox.nextq = 0
  queuedMsg : (s.sems .queuedMsg).counter = 0
  freeMsg : (s.sems .freeMsg).counter = mboxSlots
  idle : ∀ t, s.pc t = .idle
  clock : s.ticks * 10 < 2 ^ 32
  posted : s.posted = []
  fetched : s.fetched = []
  safe : s.failed = false

/-- The counters and `head` agree with the queue, the messages that were taken followed by those in the
queue are those that were posted, and neither the assertion nor the panic has been reached. -/
structure MboxRight (s : MboxSys) : Prop where
  freeMsg : (s.sems .freeMsg).counter + s.mbox.queue.length = mboxSlots
  queuedMsg : (s.sems .queuedMsg).counter = s.mbox.queue.length
  head : s.mbox.head = -1 ↔ s.mbox.queue = []
  fifo : s.posted = s.fetched ++ s.mbox.queue
  safe : s.failed = false

end MboxSys

end ZynexOS
