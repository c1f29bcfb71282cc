import ZynexOS.Lib.Fork
import ZynexOS.Library.Run

/-!
# The reference counts of a pipe

`dup`, `close` and `close_all` of `lib/riscv/fd.c`, `pipe`, `_pipeisclosed` and `devpipe_close` of
`lib/riscv/pipe.c` and `pageref`, in any number of processes on one CPU. A process is interrupted
between any two of its system calls and reads of shared memory. There is memory for the page tables.
Of an address space the entries of the page table are modelled, and of a page what it is for.
-/

namespace ZynexOS

/-- What a page is for. Pages that do not belong to the pipe are descriptors, of another pipe or of a
device without data pages, or anything else, and are marked `PTE_SHARE` or not. -/
inductive Page where
  | readFd
  | writeFd
  | data
  | otherFd (pipe : Bool)
  | other (share : Bool)
deriving DecidableEq

namespace Page

def IsEnd (p : Page) : Prop := p = readFd ∨ p = writeFd

def OfPipe (p : Page) : Prop := p.IsEnd ∨ p = data

def isPipe : Page → Bool
  | readFd | writeFd => true
  | otherFd pipe => pipe
  | data | other _ => false

def share : Page → Bool
  | other share => share
  | _ => true

end Page

def maxFd : Nat := 32

def fdPn (i : Int) : Nat := ((pnWindow + i) % 2 ^ 20).toNat

def dataPn (pn : Nat) : Nat := (pn + maxFd) % 2 ^ 20

def FdInRange (i : Int) : Prop := 0 ≤ i ∧ i < maxFd

instance (i : Int) : Decidable (FdInRange i) := inferInstanceAs (Decidable (_ ∧ _))

def nenv : Nat := 1024

abbrev EnvSlot := Fin nenv

inductive AfterClose where
  | ret
  | dup (old new : Int)
  | closeAll (i : Nat)
deriving DecidableEq

inductive FdPc where
  | user
  | dead
  | embryo (parent : EnvSlot)
  /-- `sys_uvpt_pte` of `close`, of `fd_close`, and the calls of `sys_page_unmap`. -/
  | closeLookup (fd : Int) (after : AfterClose)
  | fdClose (fd : Int) (after : AfterClose)
  | unmapFd (fd : Int) (after : AfterClose)
  | unmapData (fd : Int) (after : AfterClose)
  | unmapFdAgain (fd : Int) (after : AfterClose)
  /-- `sys_uvpt_pte` and `sys_page_map` of `dup`, and what follows `err`. -/
  | dupLookup (old new : Int)
  | dupData (old new : Int)
  | dupMapData (old new : Int)
  | dupFd (old new : Int)
  | dupMapFd (old new : Int)
  | dupErrFd (new : Int)
  | dupErrData (new : Int)
  /-- `sys_copy_shared_pages` and `sys_env_set_status` of `fork`. -/
  | forkCopy (child : EnvSlot)
  | forkRun (child : EnvSlot)
  | destroy
  /-- `pipeisclosed`. `start` is how often the process had run when `n` was read. -/
  | isClosedLookup (fd : Int)
  | readRuns (fd : Int)
  | refFd (fd : Int) (start : Nat)
  | readFdRef (fd : Int) (start : Nat) (pte : Option Page)
  | refData (fd : Int) (start : Nat) (a : Nat)
  | readDataRef (fd : Int) (start : Nat) (a : Nat) (pte : Option Page)
  | compare (fd : Int) (start : Nat) (a b : Nat)
  | returned (fd : Int) (closed : Bool)
deriving DecidableEq

namespace FdPc

def Changing : FdPc → Prop
  | closeLookup _ _ | fdClose _ _ | unmapFd _ _ | unmapData _ _ | unmapFdAgain _ _ => True
  | dupLookup _ _ | dupData _ _ | dupMapData _ _ | dupFd _ _ | dupMapFd _ _ => True
  | dupErrFd _ | dupErrData _ => True
  | _ => False

def runnable : FdPc → Bool
  | dead | embryo _ => false
  | _ => true

def round : FdPc → Option Nat
  | refFd _ start | readFdRef _ start _ | refData _ start _ => some start
  | readDataRef _ start _ _ | compare _ start _ _ => some start
  | _ => none

end FdPc

/-- `runs` is the number of times that a process has run; `env_runs` is this number in 32 bits. -/
structure FdSys where
  table : EnvSlot → Nat → Option Page
  pc : EnvSlot → FdPc
  runs : EnvSlot → Nat
  refs : Page → Nat
  cur : EnvSlot

inductive FdEvent where
  | dup (old new : Int)
  | close (fd : Int)
  | fork (child : EnvSlot)
  | exit
  | pipeisclosed (fd : Int)
  | step
  | resume (next : EnvSlot)

namespace FdSys

/-! ### The kernel -/

def setEntry (s : FdSys) (e : EnvSlot) (pn : Nat) (entry : Option Page) : FdSys :=
  { s with table := Function.update s.table e (Function.update (s.table e) pn entry) }

def pageRemove (s : FdSys) (e : EnvSlot) (pn : Nat) : FdSys :=
  match s.table e pn with
  | none => s
  | some p =>
      { s.setEntry e pn none with
        refs := Function.update s.refs p ((s.refs p + (2 ^ 16 - 1)) % 2 ^ 16) }

def pageInsert (s : FdSys) (e : EnvSlot) (pn : Nat) (p : Page) : FdSys :=
  if s.table e pn = some p then s
  else
    let s := s.pageRemove e pn
    { s.setEntry e pn (some p) with refs := Function.update s.refs p ((s.refs p + 1) % 2 ^ 16) }

def copyPage (child : EnvSlot) (s : FdSys) (pn : Nat) : FdSys :=
  match s.table s.cur pn with
  | none => s
  | some p => if p.share then s.pageInsert child pn p else s

def copyShared (s : FdSys) (child : EnvSlot) : FdSys :=
  (List.range' pnWindow 64).foldl (copyPage child) s

def envFree (s : FdSys) (e : EnvSlot) : FdSys :=
  (List.range (2 ^ 20)).foldl (fun s pn => s.pageRemove e pn) s

def goto (s : FdSys) (pc : FdPc) : FdSys := { s with pc := Function.update s.pc s.cur pc }

def sysret (s : FdSys) (pc : FdPc) : FdSys :=
  { s.goto pc with runs := Function.update s.runs s.cur (s.runs s.cur + 1) }

def exofork (s : FdSys) (child : EnvSlot) : FdSys :=
  { s with
    table := Function.update s.table child fun _ => none
    pc := Function.update s.pc child (.embryo s.cur)
    runs := Function.update s.runs child 0 }

/-! ### The library -/

def pte (s : FdSys) (pn : Nat) : Option Page := s.table s.cur pn

def pageref (s : FdSys) : Option Page → Nat
  | none => 0
  | some p => s.refs p

end FdSys

def closeAllFrom (i : Nat) : FdPc :=
  if i < maxFd then .closeLookup i (.closeAll i) else .destroy

def AfterClose.pc : AfterClose → FdPc
  | ret => .user
  | dup old new => .dupData old new
  | closeAll i => closeAllFrom (i + 1)

def closePc (fd : Int) (after : AfterClose) : FdPc :=
  if FdInRange fd then .closeLookup fd after else after.pc

namespace FdSys

/-- The running process is at `pc`, and goes on; the result is `none` where it does not execute one of
the functions. -/
def advance (s : FdSys) : FdPc → Option FdSys
  | .user | .dead | .embryo _ => none
  | .closeLookup fd after =>
      some (s.sysret (if s.pte (fdPn fd) = none then after.pc else .fdClose fd after))
  | .fdClose fd after =>
      some <| s.sysret <| match s.pte (fdPn fd) with
        | none => after.pc
        | some p => if p.isPipe then .unmapFd fd after else .unmapFdAgain fd after
  | .unmapFd fd after => some ((s.pageRemove s.cur (fdPn fd)).sysret (.unmapData fd after))
  | .unmapData fd after =>
      some ((s.pageRemove s.cur (dataPn (fdPn fd))).sysret (.unmapFdAgain fd after))
  | .unmapFdAgain fd after => some ((s.pageRemove s.cur (fdPn fd)).sysret after.pc)
  | .dupLookup old new =>
      some (s.sysret (if s.pte (fdPn old) = none then .user else closePc new (.dup old new)))
  | .dupData old new =>
      some (s.sysret
        (if s.pte (dataPn (fdPn old)) = none then .dupFd old new else .dupMapData old new))
  | .dupMapData old new =>
      match s.pte (dataPn (fdPn old)) with
      | none => some (s.sysret (.dupErrFd new))
      | some p => some ((s.pageInsert s.cur (dataPn (fdPn new)) p).sysret (.dupFd old new))
  | .dupFd old new => some (s.sysret (.dupMapFd old new))
  | .dupMapFd old new =>
      match s.pte (fdPn old) with
      | none => some (s.sysret (.dupErrFd new))
      | some p => some ((s.pageInsert s.cur (fdPn new) p).sysret .user)
  | .dupErrFd new => some ((s.pageRemove s.cur (fdPn new)).sysret (.dupErrData new))
  | .dupErrData new => some ((s.pageRemove s.cur (dataPn (fdPn new))).sysret .user)
  | .forkCopy child => some ((s.copyShared child).sysret (.forkRun child))
  | .forkRun child =>
      some (FdSys.sysret { s with pc := Function.update s.pc child .user } .user)
  | .destroy => some ((s.envFree s.cur).goto .dead)
  | .isClosedLookup fd =>
      some (s.sysret (if s.pte (fdPn fd) = none then .user else .readRuns fd))
  | .readRuns fd => some (s.goto (.refFd fd (s.runs s.cur)))
  | .refFd fd start => some (s.sysret (.readFdRef fd start (s.pte (fdPn fd))))
  | .readFdRef fd start pte => some (s.goto (.refData fd start (s.pageref pte)))
  | .refData fd start a => some (s.sysret (.readDataRef fd start a (s.pte (dataPn (fdPn fd)))))
  | .readDataRef fd start a pte => some (s.goto (.compare fd start a (s.pageref pte)))
  | .compare fd start a b =>
      -- `n == nn`, with `nn = thisenv->env_runs - 2`
      if BitVec.ofNat 32 start = BitVec.ofNat 32 (s.runs s.cur) - 2 then
        some (s.goto (.returned fd (a = b)))
      else some (s.goto (.readRuns fd))
  | .returned _ _ => some (s.goto .user)

def call (s : FdSys) (pc : FdPc) : Option FdSys :=
  match s.pc s.cur with
  | .user => some (s.goto pc)
  | _ => none

def exec (s : FdSys) : FdEvent → Option FdSys
  | .dup old new => s.call (if FdInRange old then .dupLookup old new else .user)
  | .close fd => s.call (closePc fd .ret)
  | .fork child =>
      match s.pc s.cur, s.pc child with
      | .user, .dead => some ((s.exofork child).sysret (.forkCopy child))
      | _, _ => none
  | .exit => s.call (closeAllFrom 0)
  | .pipeisclosed fd => s.call (if FdInRange fd then .isClosedLookup fd else .user)
  | .step => s.advance (s.pc s.cur)
  | .resume next =>
      if (s.pc next).runnable then
        some { s with cur := next, runs := Function.update s.runs next (s.runs next + 1) }
      else none

def Step (s : FdSys) (event : FdEvent) (s' : FdSys) : Prop := s.exec event = some s'

/-! ### `pipe` -/

def fdAlloc (s : FdSys) : Option Nat := (List.range maxFd).find? fun i => s.pte (fdPn i) = none

/-- `pipe` in the running process; the result is `none` if there are not two free descriptors. The pages
of the pipe are new. -/
def pipe (s : FdSys) : Option FdSys := do
  let fd0 ← s.fdAlloc
  let s := s.pageInsert s.cur (fdPn fd0) .readFd
  let fd1 ← s.fdAlloc
  let s := s.pageInsert s.cur (fdPn fd1) .writeFd
  let s := s.pageInsert s.cur (dataPn (fdPn fd0)) .data
  pure (s.pageInsert s.cur (dataPn (fdPn fd1)) .data)

structure BeforePipe (s : FdSys) : Prop where
  running : s.pc s.cur = .user
  unmapped : ∀ e pn p, s.table e pn = some p → ¬p.OfPipe
  refs : ∀ p, p.OfPipe → s.refs p = 0
  pc : ∀ e, s.pc e = .user ∨ s.pc e = .dead

def Starts (s : FdSys) : Prop := ∃ before : FdSys, before.BeforePipe ∧ before.pipe = some s

/-! ### What is expected of the counts -/

def Gone (s : FdSys) (p : Page) : Prop := ∀ e pn, s.table e pn ≠ some p

structure CountsRight (s : FdSys) : Prop where
  atLeast : s.refs .readFd + s.refs .writeFd ≤ s.refs .data
  equal : (∀ e, ¬(s.pc e).Changing) → s.refs .data = s.refs .readFd + s.refs .writeFd
  closedRead : ∀ e fd, s.pc e = .returned fd true → s.table e (fdPn fd) = some .readFd →
    s.Gone .writeFd
  closedWrite : ∀ e fd, s.pc e = .returned fd true → s.table e (fdPn fd) = some .writeFd →
    s.Gone .readFd

/-- The run condition: `dup` is called with a new descriptor in range, and no process is resumed so
often in a round of `_pipeisclosed` that `env_runs` comes around. -/
def InBounds (s : FdSys) : FdEvent → Prop
  | .dup _ new => FdInRange new
  | .resume next => ∀ start, (s.pc next).round = some start → s.runs next + 1 < start + 2 ^ 32
  | _ => True

end FdSys

end ZynexOS
