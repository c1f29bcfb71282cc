import ZynexOS.Kern.Pmap
import ZynexOS.Library.Chain

/-!
# The page allocator at boot

Kernel data is allocated upwards from the end of the kernel image until the free list exists.
-/

namespace ZynexOS

open Library

def sizeofPageInfo : Nat := 16
def sizeofEnv : Nat := 368

def firmmem (size : Word) : Word := roundup size pgSize

def npagesBasemem : Nat := 0x200000 / pgSize

def extPage : Nat := 0x200000 / pgSize

def mpentryPage : Nat := 0x100000 / pgSize

/-! ### `boot_alloc` -/

def bootBytes (n : BitVec 32) : Word :=
  (BitVec.ofNat 32 ((n.toNat / pgSize + 1) * pgSize)).signExtend 64

/-- `boot_alloc(n)`: the result and the new value of `nextfree`, which is 0 before the first call.
`kernEnd` is the symbol `end`. -/
def bootAlloc (kernEnd : Word) (n : BitVec 32) (nextfree : Word) : Word × Word :=
  let nextfree := if nextfree = 0 then roundup kernEnd pgSize else nextfree
  if n = 0 then (nextfree, nextfree)
  else (nextfree, roundup (nextfree + bootBytes n) pgSize)

def bootAllocs (kernEnd : Word) : List (BitVec 32) → Word → List Word × Word
  | [], nextfree => ([], nextfree)
  | n :: ns, nextfree =>
      let (result, nextfree) := bootAlloc kernEnd n nextfree
      let (results, nextfree) := bootAllocs kernEnd ns nextfree
      (result :: results, nextfree)

def memInitSizes (npages : Nat) : List (BitVec 32) :=
  [BitVec.ofNat 32 pgSize, BitVec.ofNat 32 (sizeofPageInfo * npages),
    BitVec.ofNat 32 (sizeofEnv * nEnv)]

/-! ### `page_init` -/

namespace Vm

def markUsed (vm : Vm) (i : Nat) : Vm := vm.setPage i ⟨none, 0⟩

def pushFree (vm : Vm) (i : Nat) : Vm :=
  { vm.setPage i ⟨vm.pageFreeList, 0⟩ with pageFreeList := some i }

def pushBase (vm : Vm) (i : Nat) : Vm := if mpentryPage = i then vm.markUsed i else vm.pushFree i

def forPages (vm : Vm) (lo hi : Nat) (body : Vm → Nat → Vm) : Vm :=
  (List.range' lo (hi - lo)).foldl body vm

def pageInit (vm : Vm) (firmmem kernEnd nextfree : Word) : Except Panic Vm := do
  let vm := vm.forPages 0 (firmmem.toNat / pgSize) markUsed
  let vm := vm.forPages (firmmem.toNat / pgSize) npagesBasemem pushBase
  let next ← paddr (bootAlloc kernEnd 0 nextfree).1
  let used := (next - phymemoff).toNat / pgSize
  let vm := vm.forPages extPage used markUsed
  pure (vm.forPages (max extPage used) vm.npages pushFree)

def clearedPages (npages : Nat) (mem : Word → Option Word) : Vm := ⟨npages, mem, fun _ => ⟨none, 0⟩, none⟩

/-- `mem_init` up to and including `page_init`, for a firmware of `firmware` bytes. -/
def memInit (npages : Nat) (mem : Word → Option Word) (firmware kernEnd : Word) : Except Panic Vm :=
  (clearedPages npages mem).pageInit (firmmem firmware) kernEnd
    (bootAllocs kernEnd (memInitSizes npages) 0).2

def pageAllocs (vm : Vm) : List Bool → Except Panic (List (Option Nat) × Vm)
  | [] => .ok ([], vm)
  | zero :: zeros => do
      let (result, vm) ← vm.pageAlloc zero
      let (results, vm) ← vm.pageAllocs zeros
      pure (result :: results, vm)

end Vm

/-! ### What they are for -/

def dataEnd (start : Nat) (sizes : List (BitVec 32)) : Nat :=
  sizes.foldl (fun fin n => if n = 0 then fin else fin + (n.toNat / 4096 + 1) * 4096) start

def dataStart (kernEnd : Word) : Nat := (kernEnd.toNat + 4095) / 4096 * 4096

def bootEnd (npages : Nat) (kernEnd : Word) : Nat :=
  dataEnd (dataStart kernEnd) (memInitSizes npages)

def ramStart : Nat := kernbase.toNat + phymemoff.toNat

structure FitsRam (npages : Nat) (kernEnd : Word) : Prop where
  low : ramStart ≤ kernEnd.toNat
  high : bootEnd npages kernEnd ≤ ramStart + npages * 4096
  top : bootEnd npages kernEnd < 2 ^ 64

def PageMeets (p lo hi : Nat) : Prop := ∃ x, lo ≤ x ∧ x < hi ∧ x / 4096 = p

structure Unused (npages firmmem used p : Nat) : Prop where
  lt : p < npages
  firmware : ¬PageMeets p 0 firmmem
  mpentry : ¬PageMeets p 0x100000 0x101000
  kernel : ¬PageMeets p 0x200000 used

/-- The blocks at `results`, for `sizes` bytes each, are page aligned, do not overlap and are below
`fin`. -/
structure Blocks (sizes : List (BitVec 32)) (results : List Word) (fin : Nat) : Prop where
  length : results.length = sizes.length
  aligned : ∀ result ∈ results, result.toNat % 4096 = 0
  apart : (results.zip sizes).Pairwise fun b c => b.1.toNat + b.2.toNat ≤ c.1.toNat
  inside : ∀ b ∈ results.zip sizes, b.1.toNat + b.2.toNat ≤ fin

def DirectMapped (npages : Nat) (mem : Word → Option Word) : Prop :=
  ∀ pp < npages, ∀ i < 512, mem (entryAddr (pageKva pp) i) ≠ none

def FreePages (vm : Vm) (S : Nat → Prop) (l : List Nat) : Prop :=
  Chain (fun p => (vm.pages p).ppLink) vm.pageFreeList l ∧ l.Nodup ∧ ∀ p, p ∈ l ↔ S p

/-! ### The allocator over time -/

inductive AllocOp where
  | alloc (zero : Bool)
  | free (pp : Nat)
  | decref (pp : Nat)
  | incref (pp : Nat)

namespace Vm

def applyPage (vm : Vm) : AllocOp → Except Panic Vm
  | .alloc zero => do
      let (_, vm) ← vm.pageAlloc zero
      pure vm
  | .free pp => vm.pageFree pp
  | .decref pp => vm.pageDecref pp
  | .incref pp => pure (vm.incRef pp)

def PagesReady (vm : Vm) : Prop :=
  ∃ npages mem firmware kernEnd, memInit npages mem firmware kernEnd = .ok vm

def Free (vm : Vm) (l : List Nat) : Prop :=
  Chain (fun p => (vm.pages p).ppLink) vm.pageFreeList l

def ListSound (vm : Vm) : Prop := ∃ l, vm.Free l ∧ l.Nodup

def OnFreeList (vm : Vm) (p : Nat) : Prop :=
  ∃ l, Chain (fun p => (vm.pages p).ppLink) vm.pageFreeList l ∧ p ∈ l

def LastFree (vm : Vm) (pp : Nat) : Prop := ∃ l, vm.Free (l ++ [pp])

def FreesLast (vm : Vm) : AllocOp → Prop
  | .free pp => vm.LastFree pp ∧ (vm.pages pp).ppRef = 0
  | .decref pp => vm.LastFree pp ∧ (vm.pages pp).ppRef = 1
  | _ => False

end Vm

end ZynexOS
