import ZynexOS.Library.LinkedList
import ZynexOS.Library.Wp
import ZynexOS.Net.Mailbox

/-!
# Tables of semaphores and mailboxes

The free entries of each table of `net/lwip/jos/arch/sys_arch.c` are on a list, and have the flag
`freed`. An index that is not in its table is used like any other: the tables go on in both directions
with what the memory around them holds.
-/

namespace ZynexOS

open Library

def nsem : Nat := 256

def nmbox : Nat := 128

def sysSemNull : Int := -1

def sysMboxNull : Int := -1

structure SysSemEntry where
  freed : Int
  gen : BitVec 32
  counter : BitVec 16
  waiters : BitVec 16

structure SysMboxEntry where
  freed : Int
  head : Int
  nextq : Int
  queuedMsg : Int
  freeMsg : Int

/-- `outside` is not part of the program. It tells if an access has left the tables. -/
structure SysTables where
  sems : Int → SysSemEntry
  semFree : Links Int
  mboxes : Int → SysMboxEntry
  mboxFree : Links Int
  outside : Bool

inductive SysStop where
  | assertion
  | nullPointer

abbrev SysM := EStateM SysStop SysTables

namespace SysTables

/-- Some of the entries are not in a table of this size. -/
def leaves (size : Nat) (entries : List Int) : Bool :=
  entries.any fun i => !(decide (0 ≤ i) && decide (i < size))

def touch (s : SysTables) (size : Nat) (entries : List Int) : SysTables :=
  { s with outside := s.outside || leaves size entries }

def setSem (s : SysTables) (sem : Int) (entry : SysSemEntry) : SysTables :=
  { s.touch nsem [sem] with sems := Function.update s.sems sem entry }

def setMbox (s : SysTables) (mbox : Int) (entry : SysMboxEntry) : SysTables :=
  { s.touch nmbox [mbox] with mboxes := Function.update s.mboxes mbox entry }

def insertSem (s : SysTables) (sem : Int) : SysTables :=
  { s.touch nsem (s.semFree.insertAccess sem) with semFree := s.semFree.insertHead sem }

def insertMbox (s : SysTables) (mbox : Int) : SysTables :=
  { s.touch nmbox (s.mboxFree.insertAccess mbox) with mboxFree := s.mboxFree.insertHead mbox }

def removeSem (s : SysTables) (sem : Int) : Option SysTables :=
  (s.semFree.remove sem).map fun links =>
    { s.touch nsem (s.semFree.removeAccess sem) with semFree := links }

def removeMbox (s : SysTables) (mbox : Int) : Option SysTables :=
  (s.mboxFree.remove mbox).map fun links =>
    { s.touch nmbox (s.mboxFree.removeAccess mbox) with mboxFree := links }

end SysTables

def sysAssert (cond : SysTables → Bool) : SysM Unit := do
  let s ← get
  if cond s then pure () else throw .assertion

def sysDeref (access : SysTables → Option SysTables) : SysM Unit := do
  match access (← get) with
  | some s => set s
  | none => throw .nullPointer

def sysSemNew (count : BitVec 8) : SysM Int := do
  let s ← get
  match s.semFree.first with
  | none => pure sysSemNull
  | some se =>
      sysDeref fun s => s.removeSem se
      sysAssert fun s => (s.sems se).freed ≠ 0
      modify fun s => s.setSem se { s.sems se with freed := 0 }
      modify fun s => s.setSem se { s.sems se with counter := count.setWidth 16 }
      modify fun s => s.setSem se { s.sems se with gen := (s.sems se).gen + 1 }
      pure se

def sysSemFree (sem : Int) : SysM Unit := do
  modify fun s => s.touch nsem [sem]
  sysAssert fun s => (s.sems sem).freed = 0
  modify fun s => s.setSem sem { s.sems sem with freed := 1 }
  modify fun s => s.setSem sem { s.sems sem with gen := (s.sems sem).gen + 1 }
  modify fun s => s.insertSem sem

def sysMboxFree (mbox : Int) : SysM Unit := do
  modify fun s => s.touch nmbox [mbox]
  sysAssert fun s => (s.mboxes mbox).freed = 0
  sysSemFree ((← get).mboxes mbox).queuedMsg
  sysSemFree ((← get).mboxes mbox).freeMsg
  modify fun s => s.insertMbox mbox
  modify fun s => s.setMbox mbox { s.mboxes mbox with freed := 1 }

def sysMboxNew (size : Int) : SysM Int := do
  sysAssert fun _ => size < mboxSlots
  let s ← get
  match s.mboxFree.first with
  | none => pure sysMboxNull
  | some mbe =>
      sysDeref fun s => s.removeMbox mbe
      sysAssert fun s => (s.mboxes mbe).freed ≠ 0
      modify fun s => s.setMbox mbe { s.mboxes mbe with freed := 0 }
      modify fun s => s.setMbox mbe { s.mboxes mbe with head := -1 }
      modify fun s => s.setMbox mbe { s.mboxes mbe with nextq := 0 }
      let queued ← sysSemNew 0
      modify fun s => s.setMbox mbe { s.mboxes mbe with queuedMsg := queued }
      let free ← sysSemNew (BitVec.ofNat 8 mboxSlots)
      modify fun s => s.setMbox mbe { s.mboxes mbe with freeMsg := free }
      let s ← get
      if (s.mboxes mbe).queuedMsg = sysSemNull ∨ (s.mboxes mbe).freeMsg = sysSemNull then do
        sysMboxFree mbe
        pure sysMboxNull
      else pure mbe

def SysTables.addSem (s : SysTables) (i : Nat) : SysTables :=
  (s.setSem i { s.sems i with freed := 1 }).insertSem i

def SysTables.addMbox (s : SysTables) (i : Nat) : SysTables :=
  (s.setMbox i { s.mboxes i with freed := 1 }).insertMbox i

def sysInit : SysM Unit := do
  modify fun s => (List.range nsem).foldl SysTables.addSem s
  modify fun s => (List.range nmbox).foldl SysTables.addMbox s

/-! ### Runs -/

inductive SysCall where
  | init
  | semNew (count : BitVec 8)
  | semFree (sem : Int)
  | mboxNew (size : Int)
  | mboxFree (mbox : Int)
  | other (sems : Int → SysSemEntry) (mboxes : Int → SysMboxEntry)

def SysTables.around (s : SysTables) (sems : Int → SysSemEntry) (mboxes : Int → SysMboxEntry) :
    SysTables :=
  { s with
    sems := fun i => if 0 ≤ i ∧ i < nsem then s.sems i else sems i
    mboxes := fun i => if 0 ≤ i ∧ i < nmbox then s.mboxes i else mboxes i }

def SysCall.run : SysCall → SysM Unit
  | .init => sysInit
  | .semNew count => do
      let _ ← sysSemNew count
  | .semFree sem => sysSemFree sem
  | .mboxNew size => do
      let _ ← sysMboxNew size
  | .mboxFree mbox => sysMboxFree mbox
  | .other sems mboxes => modify fun s => s.around sems mboxes

def SysStep (s : SysTables) (call : SysCall) (s' : SysTables) : Prop := call.run s = .ok () s'

def SysReady (s : SysTables) : Prop :=
  ∃ start : SysTables, start.semFree.first = none ∧ start.mboxFree.first = none ∧
    start.outside = false ∧ sysInit start = .ok () s

namespace SysTables

def freeSems (s : SysTables) : Set Int := {i | 0 ≤ i ∧ i < nsem ∧ (s.sems i).freed = 1}

def freeMboxes (s : SysTables) : Set Int := {i | 0 ≤ i ∧ i < nmbox ∧ (s.mboxes i).freed = 1}

/-- `l` has entries of the table only, and each of them once if and only if its flag is 1. -/
structure FlagsMatch (size : Nat) (freed : Int → Int) (l : List Int) : Prop where
  inside : ∀ i ∈ l, 0 ≤ i ∧ i < size
  count : ∀ i : Int, 0 ≤ i → i < size → (l.count i = 1 ↔ freed i = 1)
  once : ∀ i : Int, l.count i ≤ 1

def ListsMatch (s : SysTables) : Prop :=
  (∃ l, Chain s.semFree.next s.semFree.first l ∧ FlagsMatch nsem (fun i => (s.sems i).freed) l) ∧
    ∃ l, Chain s.mboxFree.next s.mboxFree.first l ∧
      FlagsMatch nmbox (fun i => (s.mboxes i).freed) l

/-- If `sys_mbox_new` returns no mailbox, the same entries are free as before and no access has left
the tables. -/
def FailsCleanly (s : SysTables) (size : Int) : Prop :=
  ∀ s', sysMboxNew size s = .ok sysMboxNull s' →
    s'.freeSems = s.freeSems ∧ s'.freeMboxes = s.freeMboxes ∧ (s'.outside = true → s.outside = true)

/-- There is a mailbox but one semaphore only, and the place before `sems` does not look like a free
entry. -/
def HalfFails (s : SysTables) (size : Int) : Prop :=
  size < mboxSlots ∧ s.freeMboxes.Nonempty ∧ (∃ i, s.freeSems = {i}) ∧ (s.sems (-1)).freed = 0

end SysTables

/-- What callers do: `sys_init` once, indices of the tables, and no mailbox when one semaphore is
left and `sems[-1]` can be freed. -/
def SysUse (s : SysTables) : SysCall → Prop
  | .init => False
  | .semNew _ => True
  | .semFree sem => 0 ≤ sem ∧ sem < nsem
  | .mboxNew size => ¬s.HalfFails size
  | .mboxFree mbox => 0 ≤ mbox ∧ mbox < nmbox
  | .other _ _ => True

end ZynexOS
