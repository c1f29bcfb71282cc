import ZynexOS.Kern.Layout

/-!
# Physical pages and page tables

The page allocator and the four-level page tables of `kern/riscv/pmap.c`. A `struct PageInfo *` is
the index of the page in `pages[]`, and `NULL` is `none`. Every access the kernel makes through a
pointer is a `load` or a `store` at a kernel virtual address: the direct map of physical memory is
part of `mem`, and so is whatever else the current address space maps. An address where `mem` is
`none` is not mapped, and touching it is a kernel-mode page fault.
-/

namespace ZynexOS

inductive Panic where
  | kaddr (pa : Word)
  | paddr (kva : Word)
  | pa2page (pa : Word)
  | ppRefNonzero (pp : Nat)
  | ppLinkNotNull (pp : Nat)
  | assertPpRef (pp : Nat)
  | assertWalk
  | assertCaller
  | pageFault (va : Word)
  | nullPageInfo
  | nullCurenv
  | pageAlloc
  | envAlloc (code : Int)
  | badImage
  | noRunnable
deriving DecidableEq, Repr

structure PageInfo where
  ppLink : Option Nat
  ppRef : BitVec 16
deriving DecidableEq, Inhabited, Repr

structure Vm where
  npages : Nat
  mem : Word → Option Word
  pages : Nat → PageInfo
  pageFreeList : Option Nat

namespace Vm

def load (vm : Vm) (addr : Word) : Except Panic Word :=
  match vm.mem addr with
  | some word => .ok word
  | none => .error (.pageFault addr)

def store (vm : Vm) (addr word : Word) : Except Panic Vm :=
  match vm.mem addr with
  | some _ => .ok { vm with mem := Function.update vm.mem addr (some word) }
  | none => .error (.pageFault addr)

def setPage (vm : Vm) (pp : Nat) (info : PageInfo) : Vm :=
  { vm with pages := Function.update vm.pages pp info }

def incRef (vm : Vm) (pp : Nat) : Vm :=
  vm.setPage pp { vm.pages pp with ppRef := (vm.pages pp).ppRef + 1 }

def kaddr (vm : Vm) (pa : Word) : Except Panic Word :=
  if vm.npages ≤ pgnum pa then .error (.kaddr pa) else .ok (pa + kernbase)

def paddr (kva : Word) : Except Panic Word :=
  if kva < kernbase then .error (.paddr kva) else .ok (kva - kernbase)

def pa2page (vm : Vm) (pa : Word) : Except Panic Nat :=
  if vm.npages ≤ pgnum pa then .error (.pa2page pa) else .ok (pgnum pa)

/-- `memset(kva, 0, PGSIZE)`: it faults at the first word that is not mapped. -/
def memsetPage (vm : Vm) (kva : Word) : Except Panic Vm :=
  match (List.range 512).find? fun i => vm.mem (entryAddr kva i) = none with
  | some i => .error (.pageFault (entryAddr kva i))
  | none => .ok { vm with
      mem := fun addr => if (addr - kva).toNat < pgSize then some 0 else vm.mem addr }

/-! ### The page allocator -/

def pageAlloc (vm : Vm) (zero : Bool) : Except Panic (Option Nat × Vm) :=
  match vm.pageFreeList with
  | none => .ok (none, vm)
  | some pp => do
      let vm := { vm with pageFreeList := (vm.pages pp).ppLink }
      let vm := vm.setPage pp { vm.pages pp with ppLink := none }
      if zero then
        let kva ← vm.kaddr (page2pa pp)
        let vm ← vm.memsetPage kva
        pure (some pp, vm)
      else
        pure (some pp, vm)

def pageFree (vm : Vm) (pp : Nat) : Except Panic Vm :=
  if (vm.pages pp).ppRef ≠ 0 then .error (.ppRefNonzero pp)
  else if (vm.pages pp).ppLink ≠ none then .error (.ppLinkNotNull pp)
  else
    .ok { vm.setPage pp { vm.pages pp with ppLink := vm.pageFreeList } with
      pageFreeList := some pp }

def pageDecref (vm : Vm) (pp : Nat) : Except Panic Vm :=
  let vm := vm.setPage pp { vm.pages pp with ppRef := (vm.pages pp).ppRef - 1 }
  if (vm.pages pp).ppRef = 0 then vm.pageFree pp else .ok vm

/-! ### Walking the page tables -/

def nextTable (vm : Vm) (table : Word) (idx : Nat) : Except Panic (Option Word) := do
  let pde ← vm.load (entryAddr table idx)
  if pde &&& pteV = 0 then pure none
  else
    let next ← vm.kaddr (pdePhy pde)
    pure (some next)

def pgdirWalkThrough (vm : Vm) (pgdir va : Word) : Except Panic (Option Word) := do
  match ← vm.nextTable pgdir (pd0x va) with
  | none => pure none
  | some table1 =>
      match ← vm.nextTable table1 (pd1x va) with
      | none => pure none
      | some table2 =>
          match ← vm.nextTable table2 (pd2x va) with
          | none => pure none
          | some table3 => pure (some (entryAddr table3 (ptx va)))

/-- One of the two upper levels of `pgdir_create_page_level`: when entry `idx` of `table` is invalid
it is pointed at the page `pg` and a further page is allocated. The result is the next table and the
page that is still to be linked; it is `none` when that allocation fails. -/
def linkLevel (vm : Vm) (table : Word) (idx pg : Nat) :
    Except Panic (Option (Word × Nat) × Vm) := do
  let pde ← vm.load (entryAddr table idx)
  if pde &&& pteV = 0 then
    let vm ← vm.store (entryAddr table idx) (pdeEntry (page2pa pg) ||| pteV)
    match ← vm.pageAlloc true with
    | (none, vm) => pure (none, vm)
    | (some pg', vm) =>
        let vm := vm.incRef pg'
        let pde ← vm.load (entryAddr table idx)
        let next ← vm.kaddr (pdePhy pde)
        pure (some (next, pg'), vm)
  else
    let next ← vm.kaddr (pdePhy pde)
    pure (some (next, pg), vm)

def fillEntry (vm : Vm) (table : Word) (idx pg : Nat) : Except Panic Vm := do
  let pde ← vm.load (entryAddr table idx)
  if pde &&& pteV = 0 then vm.store (entryAddr table idx) (pdeEntry (page2pa pg) ||| pteV)
  else pure vm

def linkLeaf (vm : Vm) (table : Word) (idx pg : Nat) : Except Panic (Word × Vm) := do
  let vm ← vm.fillEntry table idx pg
  let pde ← vm.load (entryAddr table idx)
  let next ← vm.kaddr (pdePhy pde)
  pure (next, vm)

def pgdirCreatePageLevel (vm : Vm) (pgdir va : Word) : Except Panic (Option Word × Vm) := do
  match ← vm.pageAlloc true with
  | (none, vm) => pure (none, vm)
  | (some pg, vm) =>
      let vm := vm.incRef pg
      match ← vm.linkLevel pgdir (pd0x va) pg with
      | (none, vm) => pure (none, vm)
      | (some (table1, pg), vm) =>
          match ← vm.linkLevel table1 (pd1x va) pg with
          | (none, vm) => pure (none, vm)
          | (some (table2, pg), vm) =>
              let (table3, vm) ← vm.linkLeaf table2 (pd2x va) pg
              pure (some (entryAddr table3 (ptx va)), vm)

def pgdirWalk (vm : Vm) (pgdir va : Word) (create : Bool) : Except Panic (Option Word × Vm) := do
  match ← vm.pgdirWalkThrough pgdir va with
  | some slot => pure (some slot, vm)
  | none => if create then vm.pgdirCreatePageLevel pgdir va else pure (none, vm)

/-! ### Mapping pages -/

def pageLookup (vm : Vm) (pgdir va : Word) : Except Panic (Option (Nat × Word)) := do
  match ← vm.pgdirWalkThrough pgdir va with
  | none => pure none
  | some slot =>
      let pte ← vm.load slot
      if pte = 0 then pure none
      else
        let pp ← vm.pa2page (ptePhy pte)
        pure (some (pp, slot))

def pageRemove (vm : Vm) (pgdir va : Word) : Except Panic Vm := do
  match ← vm.pageLookup pgdir va with
  | none => pure vm
  | some (pp, slot) =>
      if (vm.pages pp).ppRef = 0 then throw (.assertPpRef pp)
      else
        let vm ← vm.pageDecref pp
        vm.store slot 0

def insertMask : Word := 0xffc00000000003ff

/-- The entry `page_insert` writes; `perm` is the C `int`, which is sign-extended when it is or-ed
into the entry. -/
def newEntry (pp : Nat) (perm : BitVec 32) : Word :=
  pteEntry (page2pa pp) ||| perm.signExtend 64 ||| pteV

/-- `page_insert` once the walk has given it the slot: the reference is counted, unless the slot maps
the page already, and the entry is written. -/
def writeEntry (vm : Vm) (pgdir va slot : Word) (pp : Nat) (perm : BitVec 32) :
    Except Panic Vm := do
  let pte ← vm.load slot
  if pte = 0 then (vm.incRef pp).store slot (newEntry pp perm)
  else if pte &&& ~~~insertMask ≠ pteEntry (page2pa pp) then
    let vm ← vm.pageRemove pgdir va
    (vm.incRef pp).store slot (newEntry pp perm)
  else vm.store slot (newEntry pp perm)

def takeHead (vm : Vm) (pp : Nat) : Vm :=
  if vm.pageFreeList = some pp then { vm with pageFreeList := (vm.pages pp).ppLink } else vm

def pageInsert (vm : Vm) (pgdir : Word) (pp : Option Nat) (va : Word) (perm : BitVec 32) :
    Except Panic (Int × Vm) := do
  match ← vm.pgdirWalk pgdir va true with
  | (none, vm) => pure (-eNoMem, vm)
  | (some slot, vm) =>
      match pp with
      | none => throw .nullPageInfo
      | some pp =>
          let vm ← vm.writeEntry pgdir va slot pp perm
          pure (0, vm.takeHead pp)

def bootMapRegion (vm : Vm) (pgdir va : Word) (n : Nat) (pa perm : Word) : Except Panic Vm :=
  match n with
  | 0 => .ok vm
  | n + 1 => do
      match ← vm.pgdirWalk pgdir va true with
      | (none, _) => throw .assertWalk
      | (some slot, vm) =>
          let vm ← vm.store slot (pteEntry pa ||| perm ||| pteV)
          vm.bootMapRegion pgdir (va + BitVec.ofNat 64 pgSize) n (pa + BitVec.ofNat 64 pgSize) perm

end Vm

end ZynexOS
