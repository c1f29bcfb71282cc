import ZynexOS.Library.Bytes
import ZynexOS.Library.Run

/-!
# `malloc` and `free`

`lib/riscv/malloc.c`. Pages of the window from `mbegin` to `mend` are allocated and used to fill
successive requests. The last four bytes of a page count the references to it: one for each block that
ends in the page, and one for `mptr` while it points into the middle of the page. In a run of several
pages, all but the last have `PTE_CONTINUED` and no counter.
-/

namespace ZynexOS

open Library

namespace Malloc

def mbegin : Nat := 0x08000000

def mend : Nat := 0x10000000

def maxMalloc : Nat := 1024 * 1024

def roundUp8 (n : Nat) : Nat := (n + 7) % 2 ^ 64 / 8 * 8

def pageOf (a : Nat) : Nat := a / 4096

def counterAddr (p : Nat) : Nat := 4096 * p + 4092

structure Heap where
  mapped : Nat → Bool
  continued : Nat → Bool
  mem : Bytes
  mptr : Nat

inductive Panic where
  | assertion (a : Nat)
  | fault (a : Nat)
  | fuel
deriving DecidableEq

abbrev HeapM := EStateM Panic Heap

namespace Heap

def counter (h : Heap) (p : Nat) : Nat := h.mem.loadNat (counterAddr p) 4

def setCounter (h : Heap) (p v : Nat) : Heap := { h with mem := h.mem.storeNat (counterAddr p) 4 v }

def setMptr (h : Heap) (a : Nat) : Heap := { h with mptr := a }

def pageAlloc (h : Heap) (p : Nat) (cont : Bool) : Heap :=
  { h with
    mapped := Function.update h.mapped p true, continued := Function.update h.continued p cont
    mem := h.mem.fill (4096 * p) 4096 0 }

def pageUnmap (h : Heap) (p : Nat) : Heap :=
  { h with
    mapped := Function.update h.mapped p false, continued := Function.update h.continued p false }

def pagesFor (n : Nat) : Nat := (n + 4095) / 4096

/-- `isfree`. The test is behind the loop, and is made once, for the last page. -/
def isfree (h : Heap) (v n : Nat) : Bool :=
  ¬(mend ≤ v + 4096 * pagesFor n ∨
    (pagesFor n ≠ 0 ∧ h.mapped (pageOf v + (pagesFor n - 1)) = true))

end Heap

open Heap

def touchCounter (p : Nat) : HeapM Unit := do
  let h ← get
  if h.mapped p then pure () else throw (.fault (counterAddr p))

def addRef (p : Nat) : HeapM Unit := do
  touchCounter p
  modify fun h => h.setCounter p (h.counter p + 1)

def dropRef (p : Nat) : HeapM Unit := do
  touchCounter p
  modify fun h => h.setCounter p (h.counter p + (2 ^ 32 - 1))
  modify fun h => if h.counter p = 0 then h.pageUnmap p else h

def freeRun : Nat → Nat → HeapM Nat
  | 0, _ => throw .fuel
  | fuel + 1, c => do
      let h ← get
      if h.continued c then
        modify fun h => h.pageUnmap c
        if mbegin ≤ 4096 * (c + 1) ∧ 4096 * (c + 1) < mend then freeRun fuel (c + 1)
        else throw (.assertion (4096 * (c + 1)))
      else pure c

def free (v : Nat) : HeapM Unit :=
  if v = 0 then pure ()
  else if mbegin ≤ v ∧ v < mend then do
    let c ← freeRun (pageOf mend) (pageOf v)
    dropRef c
  else throw (.assertion v)

def findSpace (n : Nat) : Nat → Nat → HeapM Bool
  | 0, _ => throw .fuel
  | fuel + 1, nwrap => do
      let h ← get
      if h.isfree h.mptr (n + 4) then pure true
      else if h.mptr + 4096 = mend then
        modify fun h => h.setMptr mbegin
        if nwrap + 1 = 2 then pure false else findSpace n fuel (nwrap + 1)
      else
        modify fun h => h.setMptr (h.mptr + 4096)
        findSpace n fuel nwrap

/-- `for (; i >= 0; i -= PGSIZE) sys_page_unmap(0, mptr + i)`, with `i` pages below the current one. -/
def unmapDown (p : Nat) : Nat → HeapM Unit
  | 0 => modify fun h => h.pageUnmap p
  | i + 1 => do
      modify fun h => h.pageUnmap (p + (i + 1))
      unmapDown p i

/-- The loop that allocates the pages of a run from page `p` on, `pages` in all, with `left` to go.
There is memory for `avail` of them. -/
def allocPages (p pages avail : Nat) : Nat → HeapM Bool
  | 0 => pure true
  | left + 1 => do
      let i := pages - (left + 1)
      if i < avail then
        modify fun h => h.pageAlloc (p + i) (i + 1 < pages)
        allocPages p pages avail left
      else
        unmapDown p i
        pure false

def newRun (n avail : Nat) : HeapM Nat := do
  if ← findSpace n (2 * pageOf mend) 0 then
    let h ← get
    let p := pageOf h.mptr
    let pages := pagesFor (n + 4)
    if ← allocPages p pages avail pages then
      modify fun h => h.setCounter (p + (pages - 1)) 2
      modify fun h => h.setMptr (h.mptr + n)
      pure h.mptr
    else pure 0
  else pure 0

def leavePage : HeapM Unit := do
  let h ← get
  if h.mptr % 4096 ≠ 0 then
    free h.mptr
    modify fun h => h.setMptr ((h.mptr + 4096) / 4096 * 4096)
  else pure ()

def Heap.Fits (h : Heap) (n : Nat) : Prop :=
  h.mptr % 4096 ≠ 0 ∧ pageOf h.mptr = pageOf (h.mptr + n + 3)

instance (h : Heap) (n : Nat) : Decidable (h.Fits n) := inferInstanceAs (Decidable (_ ∧ _))

def place (n avail : Nat) : HeapM Nat := do
  let h ← get
  if h.Fits n then
    addRef (pageOf h.mptr)
    modify fun h => h.setMptr (h.mptr + n)
    pure h.mptr
  else
    leavePage
    newRun n avail

def malloc (n avail : Nat) : HeapM Nat := do
  modify fun h => if h.mptr = 0 then h.setMptr mbegin else h
  if maxMalloc ≤ roundUp8 n then pure 0 else place (roundUp8 n) avail

/-! ### Runs -/

structure Block where
  ptr : Nat
  size : Nat
deriving DecidableEq

/-- A process with its heap. `written` is what the process has stored into its blocks, and what it
found there when it got them. -/
structure Process where
  heap : Heap
  live : List Block
  written : Bytes
  panicked : Bool

inductive Event where
  | malloc (n : BitVec 64) (avail : Nat)
  | free (b : Block)
  | store (b : Block) (i : Nat) (byte : BitVec 8)

namespace Process

def exec (s : Process) : Event → Option Process
  | .malloc n avail =>
      match malloc n.toNat avail s.heap with
      | .ok 0 heap => some { s with heap := heap }
      | .ok v heap =>
          some { s with
            heap := heap, live := ⟨v, n.toNat⟩ :: s.live
            written := fun x => if v ≤ x ∧ x < v + n.toNat then heap.mem x else s.written x }
      | .error _ heap => some { s with heap := heap, panicked := true }
  | .free b =>
      if b ∈ s.live then
        match free b.ptr s.heap with
        | .ok _ heap => some { s with heap := heap, live := s.live.erase b }
        | .error _ heap => some { s with heap := heap, panicked := true }
      else none
  | .store b i byte =>
      if b ∈ s.live ∧ i < b.size then
        some { s with
          heap := { s.heap with mem := Function.update s.heap.mem (b.ptr + i) byte }
          written := Function.update s.written (b.ptr + i) byte }
      else none

def Step (s : Process) (event : Event) (s' : Process) : Prop := s.exec event = some s'

structure Starts (s : Process) : Prop where
  unmapped : ∀ p, s.heap.mapped p = false
  continued : ∀ p, s.heap.continued p = false
  mptr : s.heap.mptr = 0
  live : s.live = []
  panicked : s.panicked = false

/-- The bytes of a block are writable and in the window, belong to no other block and to no counter,
and have not been changed. -/
structure BlocksRight (s : Process) : Prop where
  inside : ∀ b ∈ s.live, mbegin ≤ b.ptr ∧ b.ptr + b.size ≤ mend
  writable : ∀ b ∈ s.live, ∀ i < b.size, s.heap.mapped (pageOf (b.ptr + i)) = true
  apart : s.live.Pairwise fun a b => a.ptr + a.size ≤ b.ptr ∨ b.ptr + b.size ≤ a.ptr
  counters : ∀ b ∈ s.live, ∀ i < b.size, ∀ p, s.heap.mapped p = true → s.heap.continued p = false →
    b.ptr + i < counterAddr p ∨ counterAddr p + 4 ≤ b.ptr + i
  contents : ∀ b ∈ s.live, ∀ i < b.size, s.heap.mem (b.ptr + i) = s.written (b.ptr + i)
  running : s.panicked = false

end Process

/-! ### The condition -/

namespace Heap

def Unused (h : Heap) (p : Nat) : Prop :=
  h.mapped p = false ∨ (h.mptr % 4096 ≠ 0 ∧ pageOf h.mptr = p ∧ h.counter p = 1)

def scanStart (h : Heap) : Nat :=
  if h.mptr = 0 then mbegin else if h.mptr % 4096 = 0 then h.mptr else 4096 * (pageOf h.mptr + 1)

def Passes (h : Heap) (pages v : Nat) : Prop :=
  v + 4096 * pages < mend ∧ h.Unused (pageOf v + (pages - 1))

end Heap

def scanNext (v : Nat) : Nat := if v + 4096 = mend then mbegin else v + 4096

inductive Scans (passes : Nat → Prop) : Nat → Nat → Prop where
  | here (v : Nat) : Scans passes v v
  | next {v w : Nat} (hfails : ¬passes v) (hscan : Scans passes (scanNext v) w) : Scans passes v w

/-- The run condition of a request for `n` bytes, rounded up, that is not too large: a counter that is
incremented does not overflow, and where the scan ends, all pages of the run are unused and not only the
last. -/
structure Heap.Manages (h : Heap) (n : Nat) : Prop where
  counter : h.Fits n → h.counter (pageOf h.mptr) + 1 < 2 ^ 32
  space : ¬h.Fits n → ∀ v, Scans (h.Passes (pagesFor (n + 4))) h.scanStart v →
    h.Passes (pagesFor (n + 4)) v → ∀ i < pagesFor (n + 4), h.Unused (pageOf v + i)

/-- The run condition: sizes can be rounded up, and requests that are not too large are managed. -/
def Process.Manageable (s : Process) : Event → Prop
  | .malloc n _ =>
      n.toNat + 7 < 2 ^ 64 ∧
      (roundUp8 n.toNat < maxMalloc → s.heap.Manages (roundUp8 n.toNat))
  | _ => True

end Malloc

end ZynexOS
