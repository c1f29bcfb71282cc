import Mathlib

/-!
# `fork` and `spawn`

`lib/riscv/fork.c` and `lib/riscv/spawn.c`, with the system calls they make on the address spaces of the
parent and of the child. An address space maps page numbers to physical pages; there is memory for the
page tables. `next` is the physical page that `page_alloc` gives out next, and no page from there on is
mapped. Of the flags of an entry, the accessed and dirty bits, which the hardware sets and `PTE_SYSCALL`
leaves out, are not modelled, and an entry that is there has `PTE_V`.
-/

namespace ZynexOS

/-- The flags of an entry. `PTE_CONTINUED` is bit 8, `PTE_SHARE` is bit 9, and `PTE_COW` is both. -/
structure Perm where
  read : Bool
  write : Bool
  exec : Bool
  user : Bool
  bit8 : Bool
  bit9 : Bool
deriving DecidableEq

namespace Perm

def cow : Perm := ⟨true, false, true, true, true, true⟩

def all : Perm := ⟨true, true, true, true, false, false⟩

def readWrite : Perm := ⟨true, true, false, true, false, false⟩

def IsShare (p : Perm) : Prop := p.bit9 = true ∧ p.bit8 = false

def IsCow (p : Perm) : Prop := p.bit9 = true ∧ p.bit8 = true

end Perm

structure Mapping where
  frame : Nat
  perm : Perm
deriving DecidableEq

abbrev Space := Nat → Option Mapping

def pnText : Nat := 0x800

def pnTemp : Nat := 0x400

def pnStack : Nat := 0xfffffcffeffff

def pnXstack : Nat := 0xfffffbffeffff

def pnWindow : Nat := 0xD0000

inductive Side where
  | parent
  | child
deriving DecidableEq

structure Family where
  space : Side → Space
  data : Nat → Nat → BitVec 8
  next : Nat

namespace Family

def Bounded (s : Family) : Prop := ∀ side pn m, s.space side pn = some m → m.frame < s.next

def set (s : Family) (side : Side) (pn : Nat) (m : Option Mapping) : Family :=
  { s with space := Function.update s.space side (Function.update (s.space side) pn m) }

def pageAlloc (s : Family) (side : Side) (pn : Nat) (perm : Perm) : Family :=
  { s.set side pn (some ⟨s.next, perm⟩) with
    data := Function.update s.data s.next fun _ => 0, next := s.next + 1 }

/-- `sys_page_map`; the result is `none` if it is refused, because the source is not mapped, or not
writable and is to be mapped writable. -/
def pageMap (s : Family) (src : Side) (srcPn : Nat) (dst : Side) (dstPn : Nat) (perm : Perm) :
    Option Family :=
  match s.space src srcPn with
  | none => none
  | some m => if perm.write ∧ ¬m.perm.write then none else some (s.set dst dstPn (some ⟨m.frame, perm⟩))

/-! ### `fork` -/

def duppage (s : Family) (pn : Nat) : Option Family := do
  let s ← s.pageMap .parent pn .child pn .cow
  s.pageMap .parent pn .parent pn .cow

def textPages (endVa : Nat) : List Nat := List.range' pnText ((endVa + 4095) / 4096 - pnText)

def dupPages (endVa : Nat) : List Nat := textPages endVa ++ [pnStack]

/-- A round of the loop of `sys_copy_shared_pages`. A page with `PTE_SHARE` is mapped as it is, so
`sys_page_map` does not refuse. -/
def copySharedPage (s : Family) (pn : Nat) : Family :=
  match s.space .parent pn with
  | none => s
  | some m =>
      if m.perm.bit9 then
        s.set .child pn (some ⟨m.frame, { m.perm with bit9 := true, user := true }⟩)
      else s

def copySharedPages (s : Family) : Family :=
  (List.range' pnWindow 64).foldl copySharedPage s

def exofork (s : Family) : Family :=
  { s with space := Function.update s.space .child fun _ => none }

def fork (s : Family) (endVa : Nat) : Option Family := do
  let s ← (dupPages endVa).foldlM duppage s.exofork
  let s := s.copySharedPages
  pure (s.pageAlloc .child pnXstack .readWrite)

/-! ### `spawn` -/

structure Load where
  pn : Nat
  perm : Perm
  fromFile : Bool

/-- A page is filled at `UTEMP`, mapped for the child, and unmapped again. What is read into it is left
out. -/
def viaTemp (s : Family) (pn : Nat) (perm : Perm) : Family :=
  let frame := s.next
  ((s.pageAlloc .parent pnTemp .readWrite).set .child pn (some ⟨frame, perm⟩)).set .parent pnTemp none

def loadPage (s : Family) (load : Load) : Family :=
  if load.fromFile then s.viaTemp load.pn load.perm else s.pageAlloc .child load.pn load.perm

def spawn (s : Family) (loads : List Load) : Family :=
  (loads.foldl loadPage (s.exofork.viaTemp pnStack .readWrite)).copySharedPages

/-! ### Writes -/

def pgfault (s : Family) (side : Side) (pn : Nat) : Option Family := do
  let frame := s.next
  let s := s.pageAlloc side pnTemp .all
  -- `memmove(UTEMP, addr, PGSIZE)`
  let m ← s.space side pn
  let s := { s with data := Function.update s.data frame (s.data m.frame) }
  let s ← s.pageMap side pnTemp side pn .all
  pure (s.set side pnTemp none)

def store (s : Family) (m : Mapping) (off : Nat) (byte : BitVec 8) : Family :=
  { s with data := Function.update s.data m.frame (Function.update (s.data m.frame) off byte) }

/-- A process writes a byte of a page. If the page is mapped and not writable, the handler runs, and the
instruction is executed again. -/
def write (s : Family) (side : Side) (pn off : Nat) (byte : BitVec 8) : Option Family := do
  let m ← s.space side pn
  if m.perm.write then pure (s.store m off byte)
  else
    let s ← s.pgfault side pn
    let m ← s.space side pn
    if m.perm.write then pure (s.store m off byte) else none

def read (s : Family) (side : Side) (pn off : Nat) : Option (BitVec 8) :=
  (s.space side pn).map fun m => s.data m.frame off

end Family

/-! ### What is expected of shared pages -/

def InWindow (pn : Nat) : Prop := pnWindow ≤ pn ∧ pn < pnWindow + 64

instance (pn : Nat) : Decidable (InWindow pn) := inferInstanceAs (Decidable (_ ∧ _))

namespace Family

/-- Pages of the parent before, `s`, that are marked `PTE_SHARE` are mapped by the child after, in `s'`,
in the same way. Of others, the child does not share a writable page with the parent. -/
structure SharesRight (s s' : Family) : Prop where
  shared : ∀ pn m, s.space .parent pn = some m → m.perm.IsShare → s'.space .child pn = some m
  unshared : ∀ pn m, s.space .parent pn = some m → ¬m.perm.IsShare →
    ∀ m', s'.space .child pn = some m' → m'.frame = m.frame →
      m'.perm.write = false ∧
        ∀ m'', s'.space .parent pn = some m'' → m''.frame = m.frame → m''.perm.write = false

def SharingRight (s : Family) (endVa : Nat) (loads : List Load) : Prop :=
  (∀ s', s.fork endVa = some s' → s.SharesRight s') ∧ s.SharesRight (s.spawn loads)

def Forkable (s : Family) (endVa : Nat) : Prop :=
  ∀ pn ∈ dupPages endVa, (s.space .parent pn).isSome = true

/-- The condition: pages marked `PTE_SHARE` are in the window, have `PTE_U`, and are not among those that
`fork` makes copy-on-write; and pages of the window that are marked `PTE_COW` are not writable. -/
structure Shareable (s : Family) (endVa : Nat) : Prop where
  window : ∀ pn m, s.space .parent pn = some m → m.perm.IsShare → InWindow pn ∧ m.perm.user = true
  notDup : s.Forkable endVa → ∀ pn m, s.space .parent pn = some m → m.perm.IsShare →
    pn ∉ dupPages endVa
  cow : ∀ pn m, s.space .parent pn = some m → m.perm.IsCow → InWindow pn → m.perm.write = false

/-! ### What is expected of copied pages -/

def Maps (s : Family) (pn : Nat) : Prop := pn ≠ pnXstack ∧ (s.space .parent pn).isSome = true

structure Write where
  side : Side
  pn : Nat
  off : Nat
  byte : BitVec 8

def run (s : Family) (writes : List Write) : Option Family :=
  writes.foldlM (fun s w => s.write w.side w.pn w.off w.byte) s

def ownView (writes : List Write) (side : Side) (pn off : Nat) (old : BitVec 8) : BitVec 8 :=
  writes.foldl (fun byte w => if w.side = side ∧ w.pn = pn ∧ w.off = off then w.byte else byte) old

def Private (s : Family) : Prop :=
  ∀ pn m, s.Maps pn → s.space .parent pn = some m → ¬m.perm.IsShare

/-- `fork` returns; the child has every page of the parent, with the contents it had; and whatever the
two write then, each sees its own writes only. -/
def ForkCopies (s : Family) (endVa : Nat) : Prop :=
  ∃ s', s.fork endVa = some s' ∧
    (∀ pn, s.Maps pn → ∀ off, s'.read .child pn off = s.read .parent pn off) ∧
    ∀ writes : List Write, (∀ w ∈ writes, s.Maps w.pn) →
      ∃ s'', s'.run writes = some s'' ∧ ∀ side pn off, s.Maps pn →
        s''.read side pn off = (s.read .parent pn off).map (ownView writes side pn off)

/-- The condition: the pages of the program and the page of the stack are mapped, and there are no
others, apart from pages marked `PTE_COW` in the window that are not writable. -/
structure Forks (s : Family) (endVa : Nat) : Prop where
  mapped : s.Forkable endVa
  covered : ∀ pn m, s.Maps pn → s.space .parent pn = some m → pn ∈ dupPages endVa ∨
    (InWindow pn ∧ m.perm.IsCow ∧ m.perm.write = false)

end Family

end ZynexOS
