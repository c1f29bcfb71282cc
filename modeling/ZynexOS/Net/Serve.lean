import ZynexOS.Kern.Layout
import ZynexOS.Library.Run

/-!
# The request buffers of the network server

`net/serv.c`. The main thread takes a slot, blocks the whole process in `ipc_recv`, and then handles a
timer message itself, drops a message without a page, or starts a thread. A serving thread can end
where the main thread yields. The calls of lwIP, the clock, `malloc` and the other environments are part
of an event.
-/

namespace ZynexOS

open Library

def queueSize : Nat := 20

def reqva : Nat := 0x0ffff000 - queueSize * pgSize

/-- `NSREQ_INPUT`; the socket calls are the codes from 1 up to `NSREQ_SOCKET`, which is 9. -/
def nsreqInput : Int := 10

def nsreqTimer : Int := 12

def timerInterval : Nat := 250

/-- What `ipc_recv` gives the server: the value, its sender, and the permission word that the sender
passed along with a page. `sys_ipc_try_send` does not ask for `PTE_V` in it. -/
structure NsMessage where
  reqno : Int
  whom : Nat
  page : Option Word

def NsMessage.perm (m : NsMessage) : Word := m.page.getD 0

structure StArgs where
  reqno : Int
  whom : Nat
  req : Nat

inductive ServePc where
  | top
  | recv (va : Nat)
  | timer (va whom : Nat)
  | panicked
deriving DecidableEq

structure NetServer where
  buse : Nat → Bool
  mapped : Nat → Bool
  threads : List StArgs
  pc : ServePc
  timerEnvid : Nat
  replies : List (Nat × Int)

inductive ServeEvent where
  | receive
  | message (m : NsMessage) (args thread : Bool)
  /-- The main thread runs again after `elapsed` milliseconds; `sent` is false when the timer environment
  no longer exists. -/
  | timerDone (elapsed : Nat) (sent : Bool)
  /-- The serving thread `k` gets the result `lwip` and finishes; `sent` is false when the environment
  that it serves no longer exists. -/
  | threadDone (k : Nat) (lwip : Int) (sent : Bool)

/-- `get_buffer`, without the store: the slot that it finds. -/
def getBuffer (buse : Nat → Bool) : Option Nat := (List.range queueSize).find? fun i => !buse i

def bufferVa (i : Nat) : Nat := reqva + i * pgSize

def serveResult (reqno lwip : Int) : Int :=
  if 1 ≤ reqno ∧ reqno ≤ 9 then lwip
  else if reqno = nsreqInput then 0
  else -eInval

def usedSlots (buse : Nat → Bool) : Nat := (List.range queueSize).countP buse

namespace NetServer

def putBuffer (s : NetServer) (va : Nat) : NetServer :=
  { s with buse := Function.update s.buse ((va - reqva) / pgSize) false }

def pageUnmap (s : NetServer) (va : Nat) : NetServer :=
  { s with mapped := Function.update s.mapped va false }

def serveThread (s : NetServer) (args : StArgs) (lwip : Int) (sent : Bool) : NetServer :=
  if args.reqno = nsreqInput then (s.putBuffer args.req).pageUnmap args.req
  else if sent then
    let s := { s with replies := (args.whom, serveResult args.reqno lwip) :: s.replies }
    (s.putBuffer args.req).pageUnmap args.req
  else { s with pc := .panicked }

def serveMessage (s : NetServer) (va : Nat) (m : NsMessage) (args thread : Bool) : NetServer :=
  if m.reqno = nsreqTimer then
    if m.whom = s.timerEnvid then { s with pc := .timer va m.whom }
    else { s.putBuffer va with pc := .top }
  else if m.perm &&& pteV = 0 then { s with pc := .top }
  else if args then
    -- the result of thread_create is not looked at
    if thread then
      { s with pc := .top, threads := { reqno := m.reqno, whom := m.whom, req := va } :: s.threads }
    else { s with pc := .top }
  else { s with pc := .panicked }

def exec (s : NetServer) (event : ServeEvent) : Option NetServer :=
  match event, s.pc with
  | .receive, .top =>
      match getBuffer s.buse with
      | none => some { s with pc := .panicked }
      | some i =>
          some { s with pc := .recv (bufferVa i), buse := Function.update s.buse i true }
  | .message m args thread, .recv va =>
      let s := if m.page.isSome then { s with mapped := Function.update s.mapped va true } else s
      some (s.serveMessage va m args thread)
  | .timerDone elapsed sent, .timer va whom =>
      if sent then
        let timeout : Nat := (timerInterval + 2 ^ 32 - elapsed % 2 ^ 32) % 2 ^ 32
        some { s.putBuffer va with pc := .top, replies := (whom, timeout) :: s.replies }
      else some { s with pc := .panicked }
  | .threadDone k lwip sent, .top | .threadDone k lwip sent, .timer _ _ =>
      match s.threads[k]? with
      | none => none
      | some args => some ({ s with threads := s.threads.eraseIdx k }.serveThread args lwip sent)
  | _, _ => none

def Step (s : NetServer) (event : ServeEvent) (s' : NetServer) : Prop := s.exec event = some s'

structure Starts (s : NetServer) : Prop where
  buse : ∀ i, s.buse i = false
  mapped : ∀ i < queueSize, s.mapped (bufferVa i) = false
  threads : s.threads = []
  pc : s.pc = .top

/-- After each iteration the slots in use are those of the unfinished threads, and there is one to get
while there are fewer of these than slots. A free slot has no page. -/
structure Accounted (s : NetServer) : Prop where
  used : s.pc = .top → usedSlots s.buse = s.threads.length
  room : s.pc = .top → s.threads.length < queueSize → ∃ i, getBuffer s.buse = some i
  unmapped : ∀ i < queueSize, s.buse i = false → s.mapped (bufferVa i) = false

/-- A timer message comes without a page and every other one with a page whose permissions name
`PTE_V`, and if there is memory for the arguments of the thread there is memory for the thread. -/
def Orderly (_s : NetServer) : ServeEvent → Prop
  | .message m args thread =>
      if m.reqno = nsreqTimer then m.page = none
      else m.perm &&& pteV ≠ 0 ∧ (args = true → thread = true)
  | _ => True

end NetServer

end ZynexOS
