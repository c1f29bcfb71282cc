import ZynexOS.Fs.Proof.Tree

/-!
# Files that grow

`file_get_block` allocates nothing, the block itself, or the indirect block and then the block.
-/

namespace ZynexOS

open Library

namespace Fs

variable {lo hi : Nat}

def slots (lo hi : Nat) : Finset Index :=
  (Finset.Ico lo hi).image Index.data ∪ if lo < hi ∧ 10 < hi then {Index.indirect} else ∅

theorem data_mem_slots {i : Nat} : Index.data i ∈ slots lo hi ↔ lo ≤ i ∧ i < hi := by
  unfold slots
  split <;> simp

theorem indirect_mem_slots : Index.indirect ∈ slots lo hi ↔ lo < hi ∧ 10 < hi := by
  unfold slots
  split
  · next h => simpa using h
  · next h => simpa using h

theorem slots_subset {lo' hi' : Nat} (hlo : lo' ≤ lo) (hhi : hi ≤ hi') :
    slots lo hi ⊆ slots lo' hi' := by
  intro idx hidx
  cases idx with
  | indirect =>
      rw [indirect_mem_slots] at hidx ⊢
      omega
  | data i =>
      rw [data_mem_slots] at hidx ⊢
      omega

theorem inRange_of_mem_slots (hhi : hi ≤ 1034) {idx : Index} (hidx : idx ∈ slots lo hi) :
    idx.InRange := by
  cases idx with
  | indirect => trivial
  | data i =>
      have := (data_mem_slots.mp hidx).2
      show i < 1034
      omega

namespace View

variable {v v' w : View} {f n : Nat} {idx : Index}
variable {i : Nat} {J : View → Prop}

def HasSlot (v : View) (f : Nat) : Index → Prop
  | .indirect => True
  | .data i => 10 ≤ i → v.ptr f .indirect ≠ 0

def ptrAddr (v : View) (f : Nat) : Index → Nat
  | .indirect => indirectAddr f
  | .data i => v.slotAddr f i

def withPtr (v : View) (f : Nat) (idx : Index) (n : Nat) : View :=
  match idx with
  | .indirect => v.withIndirect f n
  | .data i => v.withData f i n

theorem grows_withPtr (hok : v.FileOk f) (hidx : idx.InRange) (hptr : v.ptr f idx = 0)
    (hslot : v.HasSlot f idx) (hfree : v.LowestFree n) : Grows v (v.withPtr f idx n) f idx n := by
  cases idx with
  | indirect => exact grows_indirect hok hfree hptr
  | data i => exact grows_data hok hfree hidx hslot

/-- `J` is kept when one of the pointers in `s` is set to a new block. -/
def KeptByGrowth (f : Nat) (s : Finset Index) (J : View → Prop) : Prop :=
  ∀ (v : View) (idx : Index) (n : Nat), idx ∈ s → v.FileOk f → J v → v.ptr f idx = 0 →
    v.HasSlot f idx → v.LowestFree n → J (v.withPtr f idx n)

theorem data_mem_slots_self (i : Nat) : Index.data i ∈ slots i (i + 1) :=
  data_mem_slots.mpr ⟨le_rfl, by omega⟩

theorem indirect_mem_slots_self (hi : 10 ≤ i) : Index.indirect ∈ slots i (i + 1) :=
  indirect_mem_slots.mpr (by omega)

structure Got (v' : View) (f i blk : Nat) : Prop where
  ok : v'.FileOk f
  lt : i < 1034
  ptr : v'.ptr f (.data i) ≠ 0
  blk : blk = blockAddr (v'.ptr f (.data i))

theorem GetsSlot.keeps {blk : Nat} (hJ : KeptByGrowth f (slots i (i + 1)) J)
    (hget : v.GetsSlot f i (.ok blk) v') (hok : v.FileOk f) (hi : i < 1034)
    (hslot : v.HasSlot f (.data i)) (hv : J v) : J v' ∧ v'.Got f i blk := by
  cases hget with
  | present hptr => exact ⟨hv, hok, hi, hptr, rfl⟩
  | @filled n hptr hfree =>
      have hgrows : Grows v (v.withData f i n) f (.data i) n := grows_data hok hfree hi hslot
      have hnew : (v.withData f i n).ptr f (.data i) = n := by
        rw [hgrows.ptr (.data i) hi, if_pos rfl]
      refine ⟨hJ v (.data i) n (data_mem_slots_self i) hok hv hptr hslot hfree,
        hgrows.fileOk hfree hok, hi, ?_, ?_⟩
      · rw [hnew]
        exact (hgrows.valid_new hfree hok.disk).ne_zero
      · rw [hnew]

theorem hasSlot_withIndirect (hok : v.FileOk f) (hnone : v.ptr f .indirect = 0)
    (hfree : v.LowestFree n) (i : Nat) : (v.withIndirect f n).HasSlot f (.data i) := by
  intro _
  have hgrows : Grows v (v.withIndirect f n) f .indirect n := grows_indirect hok hfree hnone
  rw [hgrows.ptr .indirect trivial, if_pos rfl]
  exact (hgrows.valid_new hfree hok.disk).ne_zero

theorem Gets.keeps {blk : Nat}
    (hJ : i < 1034 → KeptByGrowth f (slots i (i + 1)) J) (hget : v.Gets f i (.ok blk) v')
    (hok : v.FileOk f) (hv : J v) : J v' ∧ v'.Got f i blk := by
  cases hget with
  | slot hi hexists hslot => exact hslot.keeps (hJ hi.1) hok hi.1 hexists hv
  | @indirect n _ _ hi hten hnone hfree hslot =>
      refine hslot.keeps (hJ hi.1) ((grows_indirect hok hfree hnone).fileOk hfree hok) hi.1
        (hasSlot_withIndirect hok hnone hfree i) ?_
      exact hJ hi.1 v .indirect n (indirect_mem_slots_self hten) hok hv hnone trivial hfree

/-- `file_get_block` has failed: the file block does not exist, or the disk was full and a pointer was
overwritten. -/
inductive Failed (J : View → Prop) (f i : Nat) (v : View) : Int → View → Prop where
  | invalid (hi : v.nblocks < i ∨ 1034 ≤ i) : Failed J f i v (-eInval) v
  | full {w : View} (idx : Index) (hi : i < 1034 ∧ i ≤ v.nblocks) (hJ : J w) (hok : w.FileOk f)
      (hfull : w.Full) (hidx : idx ∈ slots i (i + 1)) (hptr : w.ptr f idx = 0)
      (hslot : w.HasSlot f idx) :
      Failed J f i v (-eNoDisk) (w.put (.store (w.ptrAddr f idx) 4) (w.ptrAddr f idx) noDisk)

theorem Gets.failed {r : Int}
    (hJ : i < 1034 → KeptByGrowth f (slots i (i + 1)) J) (hget : v.Gets f i (.error r) v')
    (hok : v.FileOk f) (hv : J v) : Failed J f i v r v' := by
  cases hget with
  | invalid hi => exact .invalid hi
  | slot hi hexists hslot =>
      cases hslot with
      | full hptr hfull =>
          exact .full (.data i) hi hv hok hfull (data_mem_slots_self i) hptr hexists
  | @indirect n _ _ hi hten hnone hfree hslot =>
      have hgrows : Grows v (v.withIndirect f n) f .indirect n := grows_indirect hok hfree hnone
      cases hslot with
      | full hptr hfull =>
          refine .full (.data i) hi ?_ (hgrows.fileOk hfree hok) hfull (data_mem_slots_self i)
            hptr (hasSlot_withIndirect hok hnone hfree i)
          exact hJ hi.1 v .indirect n (indirect_mem_slots_self hten) hok hv hnone trivial hfree
  | full hi hten hnone hfull =>
      exact .full .indirect hi hv hok hfull (indirect_mem_slots_self hten) hnone trivial

end View

end Fs

end ZynexOS
