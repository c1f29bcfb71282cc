import ZynexOS.Fs.State

/-!
# The bytes of a program that the kernel loads

`region_alloc` and `load_icode` with the bytes that are copied. An entry of a page table is found by 36
bits of the number of the page. `kern_pgdir` has entries of its own, except for the slots that it shares
with `e->env_pgdir`. The entry of `UVPT` does not point to a table: a walk through it panics or faults,
and so does an access.
-/

namespace ZynexOS

structure LoadHeader where
  pType : Nat
  pOffset : Nat
  pVa : Nat
  pFilesz : Nat
  pMemsz : Nat

structure ElfImage where
  eMagic : Nat
  phdrs : List LoadHeader
  bytes : Nat → BitVec 8

def pageIndex (pn : Nat) : Nat := pn % 2 ^ 36

def pageSlot (pn : Nat) : Nat := pageIndex pn / 2 ^ 27

def selfSlot : Nat := 256

def CanonicalPage (pn : Nat) : Prop := pn < 2 ^ 35 ∨ 2 ^ 52 - 2 ^ 35 ≤ pn ∧ pn < 2 ^ 52

instance (pn : Nat) : Decidable (CanonicalPage pn) := inferInstanceAs (Decidable (_ ∨ _))

def stackPn : Nat := 0xfffffcffeffff

/-- `env` and `kern` are what `e->env_pgdir` and `kern_pgdir` map, by the place in the tables, where `kern`
counts only in the slots that are not `shared`. The pages from `next` on are free. -/
structure Loader where
  env : Nat → Option Nat
  kern : Nat → Option Nat
  shared : Nat → Bool
  data : Nat → Nat → BitVec 8
  next : Nat

namespace Loader

def pageInsert (s : Loader) (pn : Nat) : Option Loader :=
  if pageSlot pn = selfSlot then none
  else some { s with env := Function.update s.env (pageIndex pn) (some s.next), next := s.next + 1 }

def mapPage (s : Loader) (pn : Nat) : Option Loader := do
  let s ← s.pageInsert pn
  some { s with shared := Function.update s.shared (pageSlot pn) true }

def mapPages (s : Loader) (pn : Nat) : Nat → Option Loader
  | 0 => some s
  | n + 1 => do
      let s ← s.mapPages pn n
      s.mapPage (pn + n)

def regionAlloc (s : Loader) (va len : Nat) : Option Loader :=
  let start := va / 4096 * 4096
  let stop := uint64 (start + len + 4095) / 4096 * 4096
  s.mapPages (start / 4096) ((stop - start) / 4096)

def kernPage (s : Loader) (pn : Nat) : Option Nat :=
  if pageSlot pn = selfSlot ∨ ¬CanonicalPage pn then none
  else if s.shared (pageSlot pn) then s.env (pageIndex pn)
  else s.kern (pageIndex pn)

def store (s : Loader) (a : Nat) (byte : BitVec 8) : Option Loader := do
  let frame ← s.kernPage (a / 4096)
  some { s with
    data := Function.update s.data frame (Function.update (s.data frame) (a % 4096) byte) }

def fill (s : Loader) (a : Nat) (byte : Nat → BitVec 8) : Nat → Option Loader
  | 0 => some s
  | n + 1 => do
      let s ← s.fill a byte n
      s.store (a + n) (byte n)

def loadSegment (image : ElfImage) (s : Loader) (ph : LoadHeader) : Option Loader :=
  if ph.pType = 1 then
    if ph.pMemsz < ph.pFilesz then none
    else do
      let s ← s.regionAlloc ph.pVa ph.pMemsz
      let s ← s.fill ph.pVa (fun k => image.bytes (ph.pOffset + k)) ph.pFilesz
      if ph.pFilesz ≠ ph.pMemsz then
        s.fill (ph.pVa + ph.pFilesz) (fun _ => 0) (ph.pMemsz - ph.pFilesz)
      else some s
  else some s

def loadIcode (s : Loader) (image : ElfImage) : Option Loader :=
  if image.eMagic ≠ 0x464C457F then none
  else do
    let s ← image.phdrs.foldlM (loadSegment image) s
    s.pageInsert stackPn

/-! ### What is expected -/

def envByte (s : Loader) (a : Nat) : Option (BitVec 8) :=
  if pageSlot (a / 4096) = selfSlot ∨ ¬CanonicalPage (a / 4096) then none
  else (s.env (pageIndex (a / 4096))).map fun frame => s.data frame (a % 4096)

def Bounded (s : Loader) : Prop :=
  ∀ i frame, s.env i = some frame ∨ s.kern i = some frame → frame < s.next

end Loader

def ElfImage.segments (image : ElfImage) : List LoadHeader := image.phdrs.filter fun ph => ph.pType = 1

def ElfImage.byteAt (image : ElfImage) (ph : LoadHeader) (k : Nat) : BitVec 8 :=
  if k < ph.pFilesz then image.bytes (ph.pOffset + k) else 0

def LoadHeader.Disjoint (ph ph' : LoadHeader) : Prop :=
  ∀ k < ph.pMemsz, ∀ k' < ph'.pMemsz, (ph.pVa + k) / 4096 ≠ (ph'.pVa + k') / 4096

/-- An image as the kernel expects it: with the magic number, and with segments below `UTOP` that touch
no common page. -/
structure ElfImage.WellFormed (image : ElfImage) : Prop where
  magic : image.eMagic = 0x464C457F
  filesz : ∀ ph ∈ image.segments, ph.pFilesz ≤ ph.pMemsz
  va : ∀ ph ∈ image.segments, ph.pVa < 2 ^ 64
  utop : ∀ ph ∈ image.segments, 0 < ph.pMemsz → ph.pVa + ph.pMemsz ≤ 0xfffffd7ff0000000
  disjoint : image.segments.Pairwise LoadHeader.Disjoint

/-- `region_alloc` maps all pages of the segments, and `load_icode` loads them, without a page fault,
whatever is in memory. -/
structure ElfImage.Loads (image : ElfImage) : Prop where
  region : ∀ ph ∈ image.segments, ∀ s : Loader, ∃ s', s.regionAlloc ph.pVa ph.pMemsz = some s' ∧
    ∀ k < ph.pMemsz, ∃ frame, s.next ≤ frame ∧
      s'.env (pageIndex ((ph.pVa + k) / 4096)) = some frame
  contents : ∀ s : Loader, s.Bounded → ∃ s', s.loadIcode image = some s' ∧
    ∀ ph ∈ image.segments, ∀ k < ph.pMemsz, s'.envByte (ph.pVa + k) = some (image.byteAt ph k)

/-- A page that can be loaded: its addresses are canonical, it is not in the slot of `UVPT`, and it is not
the stack page. -/
structure LoadablePage (pn : Nat) : Prop where
  canonical : CanonicalPage pn
  slot : pageSlot pn ≠ selfSlot
  stack : pn ≠ stackPn

/-- The segment does not touch more pages than its length rounded up has, and all can be loaded. -/
structure LoadHeader.Fits (ph : LoadHeader) : Prop where
  pages : 0 < ph.pMemsz → ph.pVa % 4096 + ph.pMemsz ≤ (ph.pMemsz + 4095) / 4096 * 4096
  loadable : ∀ k < ph.pMemsz, LoadablePage ((ph.pVa + k) / 4096)

end ZynexOS
