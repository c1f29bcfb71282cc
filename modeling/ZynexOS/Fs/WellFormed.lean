import ZynexOS.Fs.Dir

/-!
# Well-formed file systems

A pointer is named by its file and its index, which is that of a file block or the one of the indirect
block.
-/

namespace ZynexOS

namespace Fs

inductive Index where
  | indirect
  | data (i : Nat)
deriving DecidableEq, Repr

def Index.InRange : Index → Prop
  | .indirect => True
  | .data i => i < 1034

namespace View

def firstData (v : View) : Nat := 2 + (v.nblocks + 32767) / 32768

def Valid (v : View) (n : Nat) : Prop := v.firstData ≤ n ∧ n < v.nblocks ∧ v.freeBit n = false

def slotAddr (v : View) (f i : Nat) : Nat :=
  if i < 10 then directAddr f i else blockAddr (v.word (indirectAddr f)) + 4 * (i - 10)

def ptr (v : View) (f : Nat) : Index → Nat
  | .indirect => v.word (indirectAddr f)
  | .data i => if 10 ≤ i ∧ v.word (indirectAddr f) = 0 then 0 else v.word (v.slotAddr f i)

def fileSize (v : View) (f : Nat) : Int := int32 (v.word (sizeAddr f))

def IsDir (v : View) (f : Nat) : Prop := v.word (typeAddr f) = fTypeDir

def dirBlocks (v : View) (f : Nat) : Nat := (v.fileSize f).toNat / 4096

def entryAddr (n j : Nat) : Nat := blockAddr n + 256 * j

inductive Reach (v : View) : Nat → Prop where
  | root : v.Reach rootAddr
  | entry {dir i j : Nat} (hdir : v.Reach dir) (htype : v.IsDir dir) (hi : i < v.dirBlocks dir)
      (hj : j < 16) (hname : v.mem (entryAddr (v.ptr dir (.data i)) j) ≠ 0) :
      v.Reach (entryAddr (v.ptr dir (.data i)) j)

structure DiskOk (v : View) : Prop where
  size : v.nblocks ≤ 0xC0000
  room : v.firstData ≤ v.nblocks
  reserved : ∀ n < v.firstData, v.freeBit n = false

def NoBlocks (v : View) (e : Nat) : Prop :=
  ¬v.IsDir e ∧ v.ptr e .indirect = 0 ∧ ∀ i < 10, v.ptr e (.data i) = 0

/-- Every block pointer in the tree is valid and no block is pointed to twice; every directory is made
of whole blocks, all of them allocated, and its unused entries are empty. -/
structure WellFormed (v : View) : Prop where
  disk : v.DiskOk
  valid : ∀ f idx, v.Reach f → idx.InRange → v.ptr f idx ≠ 0 → v.Valid (v.ptr f idx)
  apart : ∀ f f' idx idx', v.Reach f → v.Reach f' → idx.InRange → idx'.InRange →
    v.ptr f idx ≠ 0 → v.ptr f idx = v.ptr f' idx' → f = f' ∧ idx = idx'
  dirSize : ∀ dir, v.Reach dir → v.IsDir dir →
    0 ≤ v.fileSize dir ∧ v.fileSize dir ≤ maxFileSize ∧ v.fileSize dir % 4096 = 0
  dense : ∀ dir i, v.Reach dir → v.IsDir dir → i < v.dirBlocks dir → v.ptr dir (.data i) ≠ 0
  unused : ∀ dir i j, v.Reach dir → v.IsDir dir → i < v.dirBlocks dir → j < 16 →
    v.mem (entryAddr (v.ptr dir (.data i)) j) = 0 → v.NoBlocks (entryAddr (v.ptr dir (.data i)) j)

end View

end Fs

end ZynexOS
