import ZynexOS.Fs.Format

/-!
# The contents of files

Byte `p` of a file is byte `p % 4096` of its block `p / 4096`; a file can have holes.
-/

namespace ZynexOS

namespace Fs

open Library

namespace View

structure Trimmed (v : View) : Prop where
  size : ∀ f, v.Reach f → 0 ≤ v.fileSize f
  tail : ∀ f i, v.Reach f → i < 1034 → v.blocks f ≤ i → v.ptr f (.data i) = 0

def HasByte (v : View) (f p : Nat) : Prop := v.ptr f (.data (p / 4096)) ≠ 0

def byteAddr (v : View) (f p : Nat) : Nat := blockAddr (v.ptr f (.data (p / 4096))) + p % 4096

def byte (v : View) (f p : Nat) : BitVec 8 := v.mem (v.byteAddr f p)

/-- Files other than `f` have the same sizes, block pointers and contents. The contents of the directory
that `f` is in may differ in the description of `f`. -/
structure SameOthers (v v' : View) (f : Nat) : Prop where
  reach : ∀ g, v'.Reach g ↔ v.Reach g
  size : ∀ g, v.Reach g → g ≠ f → v'.fileSize g = v.fileSize g
  ptr : ∀ g idx, v.Reach g → g ≠ f → idx.InRange → v'.ptr g idx = v.ptr g idx
  contents : ∀ g i x, v.Reach g → g ≠ f → i < 1034 → v.ptr g (.data i) ≠ 0 →
    blockOf x = v.ptr g (.data i) → x < f ∨ f + 256 ≤ x → v'.mem x = v.mem x

/-! ### Writing -/

structure Wrote (v v' : View) (f buf count offset : Nat) : Prop where
  wellFormed : v'.WellFormed
  trimmed : v'.Trimmed
  size : v'.fileSize f = max (v.fileSize f) (offset + count : Nat)
  written : ∀ i < count, v'.HasByte f (offset + i) ∧ v'.byte f (offset + i) = v.mem (buf + i)
  kept : ∀ p : Nat, (p : Int) < v.fileSize f → p < offset ∨ offset + count ≤ p → v.HasByte f p →
    v'.HasByte f p ∧ v'.byte f p = v.byte f p
  others : SameOthers v v' f

/-- The bytes of `f` from `offset` on that are known after the write are delivered at `buf'`, `n` of
them. -/
structure Delivers (v v' : View) (f buf count offset buf' n offset' : Nat) : Prop where
  written : ∀ i < n, offset ≤ offset' + i → offset' + i < offset + count →
    v'.mem (buf' + i) = v.mem (buf + (offset' + i - offset))
  kept : ∀ i < n, (offset' + i : Int) < v.fileSize f →
    offset' + i < offset ∨ offset + count ≤ offset' + i → v.HasByte f (offset' + i) →
    v'.mem (buf' + i) = v.byte f (offset' + i)

/-! ### Truncation -/

def Beyond (size : Nat) : Index → Prop
  | .indirect => (size + 4095) / 4096 ≤ 10
  | .data i => (size + 4095) / 4096 ≤ i

structure TruncatedTo (v v' : View) (f newsize : Nat) : Prop where
  wellFormed : v'.WellFormed
  trimmed : v'.Trimmed
  size : v'.fileSize f = newsize
  cleared : ∀ idx, idx.InRange → Beyond newsize idx → v'.ptr f idx = 0
  ptr : ∀ idx, idx.InRange → ¬Beyond newsize idx → v'.ptr f idx = v.ptr f idx
  nblocks : v'.nblocks = v.nblocks
  freed : ∀ m < v.nblocks, v'.freeBit m = true ↔
    v.freeBit m = true ∨ m ≠ 0 ∧ ∃ idx, idx.InRange ∧ Beyond newsize idx ∧ v.ptr f idx = m
  kept : ∀ p < newsize, v.HasByte f p → v'.byte f p = v.byte f p
  others : SameOthers v v' f

end View

end Fs

end ZynexOS
