import ZynexOS.Kern.PageTree
import ZynexOS.Library.Run

/-!
# The page tables of a running kernel

The calls that change page tables, from the end of `mem_init` on. Next to the kernel's state the
system records for which directory each page-table page was allocated, which pages `page_alloc` has
handed out and are not mapped yet, and which leaf entries `mem_init` has filled in.
-/

namespace ZynexOS

open Library

structure TableSys where
  kern : Kern
  owner : Nat → Option Nat
  held : List Nat
  fixed : Word → Bool

inductive TableEvent where
  | envAlloc (parentId : BitVec 32)
  | pageAlloc (zero : Bool)
  | pageFree (pp : Nat)
  | walk (e : Nat) (va : Word)
  | insert (e pp : Nat) (va : Word) (perm : BitVec 32)
  | remove (e : Nat) (va : Word)
  | envFree (e : Nat)

def TableEvent.env : TableEvent → Option Nat
  | .walk e _ | .insert e _ _ _ | .remove e _ | .envFree e => some e
  | _ => none

namespace TableSys

def dirPage (pgdir : Word) : Nat := pgnum (pgdir - kernbase)

def pgdir (s : TableSys) (e : Nat) : Word := (s.kern.envs e).envPgdir

def Live (s : TableSys) (e : Nat) : Prop := (s.kern.envs e).envStatus ≠ .free

instance (s : TableSys) (e : Nat) : Decidable (s.Live e) := inferInstanceAs (Decidable (_ ≠ _))

/-- The directory for which a walk of `va` allocates: `kern_pgdir` when it goes through an entry that
is shared with it. -/
def walkOwner (s : TableSys) (e : Nat) (va : Word) : Nat :=
  let entry := s.kern.vm.mem (entryAddr (s.pgdir e) (pd0x va))
  if entry ≠ some 0 ∧ entry = s.kern.vm.mem (entryAddr s.kern.kernPgdir (pd0x va)) then
    dirPage s.kern.kernPgdir
  else dirPage (s.pgdir e)

def made (old new : Vm) (d : Nat) (owner : Nat → Option Nat) (p : Nat) : Option Nat :=
  if (new.pages p).ppRef = (old.pages p).ppRef then owner p else some d

def freed (old new : Vm) (owner : Nat → Option Nat) (p : Nat) : Option Nat :=
  if (new.pages p).ppRef = 0 ∧ (old.pages p).ppRef ≠ 0 then none else owner p

def setVm (s : TableSys) (vm : Vm) : TableSys := { s with kern := { s.kern with vm := vm } }

def exec (s : TableSys) : TableEvent → Option TableSys
  | .envAlloc parentId =>
      match s.kern.envAlloc parentId with
      | .ok (.inl e, k) =>
          let d := dirPage (k.envs e).envPgdir
          some { s with kern := k, owner := Function.update s.owner d (some d) }
      | .ok (.inr _, k) => some { s with kern := k }
      | .error _ => none
  | .pageAlloc zero =>
      match s.kern.vm.pageAlloc zero with
      | .ok (some pp, vm) => some { s.setVm vm with held := pp :: s.held }
      | .ok (none, vm) => some (s.setVm vm)
      | .error _ => none
  | .pageFree pp =>
      match s.kern.vm.pageFree pp with
      | .ok vm => some { s.setVm vm with held := s.held.erase pp }
      | .error _ => none
  | .walk e va =>
      if s.Live e then
        match s.kern.vm.pgdirWalk (s.pgdir e) va true with
        | .ok (_, vm) =>
            some { s.setVm vm with owner := made s.kern.vm vm (s.walkOwner e va) s.owner }
        | .error _ => none
      else none
  | .insert e pp va perm =>
      if s.Live e then
        match s.kern.vm.pgdirWalk (s.pgdir e) va true,
            s.kern.vm.pageInsert (s.pgdir e) (some pp) va perm with
        | .ok (_, mid), .ok (ret, vm) =>
            some { s.setVm vm with
              owner := freed s.kern.vm vm (made s.kern.vm mid (s.walkOwner e va) s.owner)
              held := if ret = 0 then s.held.erase pp else s.held }
        | _, _ => none
      else none
  | .remove e va =>
      if s.Live e then
        match s.kern.vm.pageRemove (s.pgdir e) va with
        | .ok vm => some { s.setVm vm with owner := freed s.kern.vm vm s.owner }
        | .error _ => none
      else none
  | .envFree e =>
      if s.Live e then
        match s.kern.envFree e with
        | .ok k => some { s with kern := k, owner := freed s.kern.vm k.vm s.owner }
        | .error _ => none
      else none

def slotFree (s : TableSys) (e : Nat) (va : Word) : Bool :=
  match s.kern.vm.pgdirWalkThrough (s.pgdir e) va with
  | .ok (some slot) => !s.fixed slot
  | _ => true

/-- A page that may be mapped: one that `page_alloc` has returned, or that is mapped already, but no
page table. -/
def dataPage (s : TableSys) (pp : Nat) : Bool :=
  pp < s.kern.vm.npages && s.owner pp == none &&
    (s.held.contains pp || (s.kern.vm.pages pp).ppRef != 0)

/-- The calls after which the tables are still what they are taken for: no walk goes through the self
map, only data pages are mapped, with flags below bit 10 and fewer than 65535 references, and the
mappings of `mem_init` are left alone. -/
def sane (s : TableSys) : TableEvent → Bool
  | .envAlloc _ => true
  | .pageAlloc _ => true
  | .pageFree pp => s.held.contains pp
  | .walk _ va => pd0x va != pd0x uvpt
  | .insert e pp va perm =>
      pd0x va != pd0x uvpt && s.slotFree e va && s.dataPage pp &&
        (s.kern.vm.pages pp).ppRef != 65535 && decide (perm.toNat < 2 ^ 10)
  | .remove e va => pd0x va != pd0x uvpt && s.slotFree e va
  | .envFree _ => true

/-- What `mem_init` leaves: no environment, and the tables of `kern_pgdir`, whose leaf entries are all
in `fixed`. Pages that are neither free nor tables have no references. -/
structure Starts (s : TableSys) : Prop where
  tables : ∃ n kd T, s.kern.vm.Shows n T.toPt ∧
    Forest n kd (fun p i => s.fixed (slotAddr p i)) T ∧ s.kern.kernPgdir = pageKva kd ∧
    T.own = s.owner ∧ T.self = some (pd0x uvpt) ∧ (∀ p, T.other p = 0) ∧
    ∀ p, T.ref p = if s.owner p ≠ none ∧ p ≠ kd then 1 else 0
  envs : ∀ e, ¬ s.Live e
  held : s.held = []

def Reached : TableSys → Prop :=
  Reachable Starts (fun s event s' => s.exec event = some s') fun s event => s.sane event

/-- The page `p` is not free, nobody refers to it, and nobody has been given it. -/
def Lost (s : TableSys) (p : Nat) : Prop :=
  (s.kern.vm.pages p).ppRef = 0 ∧ ¬ s.kern.vm.OnFreeList p ∧ p ∉ s.held

/-! ### The walk of an address -/

/-- `pde` decodes to the physical address of a page that was allocated as a page table of the directory
`d`, or of `kern_pgdir`; the self map may lead to the directory itself. -/
def Decodes (s : TableSys) (d : Nat) (self : Bool) (pde : Word) : Prop :=
  ∃ c, c < s.kern.vm.npages ∧ pdePhy pde = page2pa c ∧
    (s.owner c = some d ∨ s.owner c = some (dirPage s.kern.kernPgdir) ∨ self = true ∧ c = d)

def Meets (s : TableSys) (d : Nat) : Bool → List Nat → Word → Prop
  | _, [], _ => True
  | top, i :: path, table =>
      ∃ pde, s.kern.vm.mem (entryAddr table i) = some pde ∧ (pde &&& pteV ≠ 0 →
        s.Decodes d (top && i == pd0x uvpt) pde ∧ s.Meets d false path (pdePhy pde + kernbase))

def WalksTables (s : TableSys) (e : Nat) (va : Word) : Prop :=
  s.Meets (dirPage (s.pgdir e)) true (path va) (s.pgdir e)

end TableSys

end ZynexOS
