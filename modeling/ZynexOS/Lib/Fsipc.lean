import ZynexOS.Kern.Ipc
import ZynexOS.Library.Run

/-!
# Requests to the file server

`fsipc` of `lib/riscv/file.c` with `ipc_send` and `ipc_recv` of `lib/riscv/ipc.c`, and the loop `serve`
of `fs/serv.c`. The kernel lock makes each system call one step. Between two system calls of one
environment the others make theirs, in any order, and memory changes.
-/

namespace ZynexOS

def pageArg (pg : Word) : Word := if pg = 0 then 0xffffffffffffffff else pg

def fsipcPerm : BitVec 32 := (pteV ||| pteW ||| pteU ||| pteR).setWidth 32

def fsreqOpen : BitVec 32 := 1

def fsreqVa : Word := 0x0ffff000

namespace Kern

def callBy (k : Kern) (e : Nat) (no a1 a2 a3 a4 : Word) : Except Panic (SysExit × Kern) :=
  { k with curenv := some e }.syscall 0 no a1 a2 a3 a4 0

def ipcSendOnce (k : Kern) (e : Nat) (toEnv : BitVec 32) (val pg : Word) (perm : BitVec 32) :
    Except Panic (SysExit × Kern) :=
  k.callBy e 12 (toEnv.signExtend 64) val (pageArg pg) (perm.signExtend 64)

def ipcRecvCall (k : Kern) (e : Nat) (pg : Word) : Except Panic (SysExit × Kern) :=
  k.callBy e 13 (pageArg pg) 0 0 0

def ipcFindFs (k : Kern) : BitVec 32 :=
  match (List.range nEnv).find? fun e => (k.envs e).envType = .fs with
  | some e => (k.envs e).envId
  | none => 0

def CanRun (k : Kern) (e : Nat) : Prop :=
  (k.envs e).envStatus = .runnable ∨ (k.envs e).envStatus = .running

instance (k : Kern) (e : Nat) : Decidable (k.CanRun e) := inferInstanceAs (Decidable (_ ∨ _))

end Kern

def ipcRecvValue (env : Env) (r : Int) : Word :=
  if r < 0 then BitVec.ofInt 64 r else env.envIpcValue

/-! ### The two programs -/

inductive Client where
  | idle
  | sending (type : BitVec 32) (dstva : Word)
  | sent (dstva : Word)
  | receiving
  | panicked
deriving DecidableEq

inductive Server where
  | idle
  | receiving
  | replying (whom r : BitVec 32) (pg : Word) (perm : BitVec 32)
  | replied
  | panicked
deriving DecidableEq

structure Answer where
  whom : BitVec 32
  req : BitVec 32
  r : BitVec 32
deriving DecidableEq

structure Parties where
  client : Nat
  server : Nat
  fsipcbuf : Word
  distinct : client ≠ server
  below : pageArg fsipcbuf < utop

/-- `fsenv` is the static variable of `fsipc`. The last three fields list, in order, the requests that
the client has sent, the results that the server has computed, and the values that the calls of `fsipc`
have returned. -/
structure FsSystem where
  kern : Kern
  fsenv : BitVec 32
  client : Client
  server : Server
  requests : List (BitVec 32)
  answers : List Answer
  results : List (BitVec 32)

/-- The client calls `fsipc`; the client or the server goes on, the latter with the outcome `r`, `pg`
and `perm` if it gets to handle a request; another environment sends or receives; memory changes. -/
inductive FsEvent where
  | call (type : BitVec 32) (dstva : Word)
  | client
  | server (r : BitVec 32) (pg : Word) (perm : BitVec 32)
  | send (e : Nat) (envid : BitVec 32) (val pg : Word) (perm : BitVec 32)
  | recv (e : Nat) (pg : Word)
  | memory (vm : Vm)

namespace FsSystem

def finish (p : Parties) (s : FsSystem) (r : Int) : FsSystem :=
  { s with
    client := .idle
    results := s.results ++ [(ipcRecvValue (s.kern.envs p.client) r).setWidth 32] }

def clientStep (p : Parties) (s : FsSystem) : Option FsSystem :=
  match s.client with
  | .idle | .panicked => none
  | .sending type dstva =>
      match s.kern.ipcSendOnce p.client s.fsenv (type.setWidth 64) p.fsipcbuf fsipcPerm with
      | .ok (.ret r, k) =>
          if 0 ≤ r then
            some { s with kern := k, client := .sent dstva, requests := s.requests ++ [type] }
          else if r = -eIpcNotRecv then some { s with kern := k }
          else some { s with kern := k, client := .panicked }
      | _ => none
  | .sent dstva =>
      match s.kern.ipcRecvCall p.client dstva with
      | .ok (.resched, k) => some { s with kern := k, client := .receiving }
      | .ok (.ret r, k) => some ({ s with kern := k }.finish p r)
      | .error _ => none
  | .receiving => some (s.finish p (s.kern.envs p.client).envTf.a0.toInt)

/-- The body of `serve` behind `ipc_recv`: a request without a page is dropped. Only `serve_open` sends
a page back. -/
def serve (p : Parties) (s : FsSystem) (r : BitVec 32) (pg : Word) (perm : BitVec 32) :
    Option FsSystem :=
  let env := s.kern.envs p.server
  let req := env.envIpcValue.setWidth 32
  if env.envIpcPerm &&& pteV.setWidth 32 = 0 then some { s with server := .idle }
  else if req ≠ fsreqOpen ∧ (pg ≠ 0 ∨ perm ≠ env.envIpcPerm) then none
  else some { s with
    server := .replying env.envIpcFrom r pg perm
    answers := s.answers ++ [⟨env.envIpcFrom, req, r⟩] }

def serverStep (p : Parties) (s : FsSystem) (r : BitVec 32) (pg : Word) (perm : BitVec 32) :
    Option FsSystem :=
  match s.server with
  | .panicked => none
  | .idle =>
      match s.kern.ipcRecvCall p.server fsreqVa with
      | .ok (.resched, k) => some { s with kern := k, server := .receiving }
      | .ok (.ret _, k) => { s with kern := k }.serve p r pg perm
      | .error _ => none
  | .receiving => s.serve p r pg perm
  | .replying whom r pg perm =>
      match s.kern.ipcSendOnce p.server whom (r.signExtend 64) pg perm with
      | .ok (.ret r, k) =>
          if 0 ≤ r then some { s with kern := k, server := .replied }
          else if r = -eIpcNotRecv then some { s with kern := k }
          else some { s with kern := k, server := .panicked }
      | _ => none
  | .replied =>
      match s.kern.callBy p.server 6 0 fsreqVa 0 0 with
      | .ok (_, k) => some { s with kern := k, server := .idle }
      | .error _ => none

def Other (p : Parties) (s : FsSystem) (e : Nat) : Prop :=
  e < nEnv ∧ e ≠ p.client ∧ e ≠ p.server ∧ s.kern.CanRun e

instance (p : Parties) (s : FsSystem) (e : Nat) : Decidable (s.Other p e) :=
  inferInstanceAs (Decidable (_ ∧ _))

def exec (p : Parties) (s : FsSystem) : FsEvent → Option FsSystem
  | .call type dstva =>
      if s.kern.CanRun p.client ∧ s.client = .idle then
        some { s with
          fsenv := if s.fsenv = 0 then s.kern.ipcFindFs else s.fsenv
          client := .sending type dstva }
      else none
  | .client => if s.kern.CanRun p.client then s.clientStep p else none
  | .server r pg perm => if s.kern.CanRun p.server then s.serverStep p r pg perm else none
  | .send e envid val pg perm =>
      if s.Other p e then
        match s.kern.ipcSendOnce e envid val pg perm with
        | .ok (_, k) => some { s with kern := k }
        | .error _ => none
      else none
  | .recv e pg =>
      if s.Other p e then
        match s.kern.ipcRecvCall e pg with
        | .ok (_, k) => some { s with kern := k }
        | .error _ => none
      else none
  | .memory vm => some { s with kern := { s.kern with vm := vm } }

def Step (p : Parties) (s : FsSystem) (event : FsEvent) (s' : FsSystem) : Prop :=
  s.exec p event = some s'

end FsSystem

namespace Kern

def IdsInOrder (k : Kern) : Prop :=
  ∀ e, (k.envs e).envStatus ≠ .free → envx (k.envs e).envId = e

structure FirstFs (k : Kern) (f : Nat) : Prop where
  inTable : f < nEnv
  type : (k.envs f).envType = .fs
  first : ∀ e < f, (k.envs e).envType ≠ .fs

end Kern

namespace FsSystem

structure Starts (p : Parties) (s : FsSystem) : Prop where
  ids : s.kern.IdsInOrder
  firstFs : s.kern.FirstFs p.server
  clientLive : s.kern.CanRun p.client
  serverLive : s.kern.CanRun p.server
  clientQuiet : (s.kern.envs p.client).envIpcRecving = false
  serverQuiet : (s.kern.envs p.server).envIpcRecving = false
  fsenv : s.fsenv = 0
  client : s.client = .idle
  server : s.server = .idle
  requests : s.requests = []
  answers : s.answers = []
  results : s.results = []

def answersTo (p : Parties) (s : FsSystem) : List Answer :=
  s.answers.filter fun a => a.whom = (s.kern.envs p.client).envId

/-- The value of the `i`-th call of `fsipc` is the result that the server computed for the `i`-th
request of the client. -/
def OwnReplies (p : Parties) (s : FsSystem) : Prop :=
  ∀ (i : Nat) (r : BitVec 32), s.results[i]? = some r → ∃ a : Answer, (s.answersTo p)[i]? = some a ∧
    s.requests[i]? = some a.req ∧ a.r = r

/-- The run condition: the client passes `fsipc` no address that `sys_ipc_recv` rejects, and no other
environment sends to the client while it is in `sys_ipc_recv`. -/
def Undisturbed (p : Parties) (s : FsSystem) : FsEvent → Prop
  | .call _ dstva => badDstva (pageArg dstva) = false
  | .send _ envid _ _ _ => envid = (s.kern.envs p.client).envId →
      (s.kern.envs p.client).envIpcRecving = false
  | _ => True

end FsSystem

end ZynexOS
