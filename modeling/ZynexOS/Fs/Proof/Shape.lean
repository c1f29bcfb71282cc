import ZynexOS.Fs.Proof.Growth

/-! # Changes that keep the tree -/

namespace ZynexOS

open Library

namespace Fs

namespace View

variable {v v' : View} {e f g n x : Nat} {idx : Index}

/-- `e` is the root directory or an entry, used or not, of a directory that can be reached. -/
def Entry (v : View) (e : Nat) : Prop :=
  e = rootAddr ∨ ∃ dir i j, v.Reach dir ∧ v.IsDir dir ∧ i < v.dirBlocks dir ∧ j < 16 ∧
    e = entryAddr (v.ptr dir (.data i)) j

theorem Reach.toEntry (hreach : v.Reach f) : v.Entry f := by
  cases hreach with
  | root => exact .inl rfl
  | entry hdir htype hi hj _ => exact .inr ⟨_, _, _, hdir, htype, hi, hj, rfl⟩

theorem WellFormed.reach_or_noBlocks (hwf : v.WellFormed) (he : v.Entry e) :
    v.Reach e ∨ v.NoBlocks e := by
  obtain rfl | ⟨dir, i, j, hdir, htype, hi, hj, rfl⟩ := he
  · exact .inl .root
  · by_cases hname : v.mem (entryAddr (v.ptr dir (.data i)) j) = 0
    · exact .inr (hwf.unused dir i j hdir htype hi hj hname)
    · exact .inl (.entry hdir htype hi hj hname)

theorem Entry.low (he : v.Entry e) : blockAddr (blockOf e) ≤ e := by
  obtain rfl | ⟨dir, i, j, -, -, -, hj, rfl⟩ := he
  · rw [blockOf_rootAddr]
    unfold rootAddr superAddr
    omega
  · rw [blockOf_entryAddr _ hj]
    unfold entryAddr
    omega

theorem Entry.high (he : v.Entry e) : e + 256 ≤ blockAddr (blockOf e + 1) := by
  obtain rfl | ⟨dir, i, j, -, -, -, hj, rfl⟩ := he
  · rw [blockOf_rootAddr]
    unfold rootAddr superAddr blockAddr
    omega
  · rw [blockOf_entryAddr _ hj, blockAddr_succ]
    unfold entryAddr
    omega

theorem Entry.blockOf_eq (he : v.Entry e) (hlow : e ≤ x) (hhigh : x < e + 256) :
    blockOf x = blockOf e := by
  have hstart := he.low
  have hend := he.high
  unfold blockAddr blockOf at *
  omega

theorem WellFormed.home_valid (hwf : v.WellFormed) (he : v.Entry e) :
    e = rootAddr ∨ v.Valid (blockOf e) := by
  obtain rfl | ⟨dir, i, j, hdir, htype, hi, hj, rfl⟩ := he
  · exact .inl rfl
  · rw [blockOf_entryAddr _ hj]
    exact .inr (hwf.valid_dirBlock hdir htype hi)

theorem WellFormed.entry_apart (hwf : v.WellFormed) (he : v.Entry e) (hf : v.Entry f) (hne : e ≠ f) :
    e + 256 ≤ f ∨ f + 256 ≤ e := by
  have htwo := v.two_lt_firstData
  have hroot : ∀ {e}, v.Valid (blockOf e) → blockAddr (blockOf e) ≤ e → rootAddr + 256 ≤ e := by
    intro e hvalid hlow
    have hfirst := hvalid.1
    unfold rootAddr superAddr blockAddr at *
    omega
  obtain rfl | hvalid := hwf.home_valid he
  · obtain rfl | hvalid' := hwf.home_valid hf
    · exact absurd rfl hne
    · exact .inl (hroot hvalid' hf.low)
  · obtain rfl | hvalid' := hwf.home_valid hf
    · exact .inr (hroot hvalid he.low)
    · have haligned : ∀ {e}, v.Entry e → v.Valid (blockOf e) → ∃ k, e = 0x10000000 + 256 * k := by
        rintro e (rfl | ⟨dir, i, j, -, -, -, hj, rfl⟩) hvalid
        · have hfirst := hvalid.1
          rw [blockOf_rootAddr] at hfirst
          omega
        · refine ⟨16 * v.ptr dir (.data i) + j, ?_⟩
          unfold entryAddr blockAddr
          omega
      obtain ⟨k, rfl⟩ := haligned he hvalid
      obtain ⟨k', rfl⟩ := haligned hf hvalid'
      omega

theorem WellFormed.ptr_home (hwf : v.WellFormed) (he : v.Entry e) (hg : v.Reach g)
    (hidx : idx.InRange) (hptr : v.ptr g idx ≠ 0) (hsame : v.ptr g idx = blockOf e) :
    v.IsDir g ∧ ∃ i < v.dirBlocks g, idx = .data i := by
  obtain rfl | ⟨dir, i, j, hdir, htype, hi, hj, rfl⟩ := he
  · have hfirst := (hwf.valid g idx hg hidx hptr).1
    have htwo := v.two_lt_firstData
    rw [hsame, blockOf_rootAddr] at hfirst
    omega
  · rw [blockOf_entryAddr _ hj] at hsame
    obtain ⟨rfl, rfl⟩ := hwf.apart g dir idx (.data i) hg hdir hidx (hwf.index_lt hdir htype hi) hptr
      hsame
    exact ⟨htype, i, hi, rfl⟩

theorem WellFormed.unused_not_reach (hwf : v.WellFormed) {dir i j : Nat} (hdir : v.Reach dir)
    (htype : v.IsDir dir) (hi : i < v.dirBlocks dir) (hj : j < 16)
    (hname : v.mem (entryAddr (v.ptr dir (.data i)) j) = 0) :
    ¬v.Reach (entryAddr (v.ptr dir (.data i)) j) := by
  intro hreach
  have hvalid := hwf.valid_dirBlock hdir htype hi
  rw [← blockOf_entryAddr (v.ptr dir (.data i)) hj] at hvalid
  generalize entryAddr (v.ptr dir (.data i)) j = e at hreach hname hvalid
  cases hreach with
  | root =>
      have hfirst := hvalid.1
      have htwo := v.two_lt_firstData
      rw [blockOf_rootAddr] at hfirst
      omega
  | entry _ _ _ _ hused => exact hused hname

def Cell (v : View) (e x : Nat) : Prop :=
  e ≤ x ∧ x < e + 256 ∨ v.ptr e .indirect ≠ 0 ∧ blockAddr (v.ptr e .indirect) ≤ x ∧
    x < blockAddr (v.ptr e .indirect + 1)

structure SameEntry (v v' : View) (e : Nat) : Prop where
  name : v'.mem e = v.mem e
  size : v'.word (sizeAddr e) = v.word (sizeAddr e)
  type : v'.word (typeAddr e) = v.word (typeAddr e)
  ptr : ∀ idx, idx.InRange → v'.ptr e idx = v.ptr e idx

theorem sameEntry_of_cells (hmem : ∀ x, v.Cell e x → v'.mem x = v.mem x) : SameEntry v v' e := by
  have hword : ∀ a, e ≤ a → a + 4 ≤ e + 256 → v'.word a = v.word a := fun a hlow hhigh =>
    word_congr fun x hle hlt => hmem x (.inl (by omega))
  have hind : v'.ptr e .indirect = v.ptr e .indirect :=
    hword _ (indirect_mem_entry e).1 (indirect_mem_entry e).2
  refine ⟨hmem e (.inl (by omega)), hword _ ?_ ?_, hword _ ?_ ?_, ?_⟩
  · unfold sizeAddr
    omega
  · unfold sizeAddr
    omega
  · unfold typeAddr
    omega
  · unfold typeAddr
    omega
  · intro idx hidx
    cases idx with
    | indirect => exact hind
    | data i =>
        refine ptr_data_congr hind fun hexists => ?_
        by_cases hdirect : i < 10
        · rw [slotAddr, if_pos hdirect]
          exact hword _ (direct_mem_entry e hdirect).1 (direct_mem_entry e hdirect).2
        · have hslot := v.slotAddr_mem_block e (by omega) hidx
          exact word_congr fun x hle hlt => hmem x (.inr ⟨hexists (by omega), by omega, by omega⟩)

section

variable (hwf : v.WellFormed) (he : v.Entry e)
include hwf he

theorem WellFormed.cell_cases (hcell : v.Cell e x) :
    e ≤ x ∧ x < e + 256 ∨ v.Reach e ∧ v.ptr e .indirect ≠ 0 ∧ blockOf x = v.ptr e .indirect := by
  obtain hentry | ⟨hptr, hlow, hhigh⟩ := hcell
  · exact .inl hentry
  · obtain hreach | hnone := hwf.reach_or_noBlocks he
    · refine .inr ⟨hreach, hptr, ?_⟩
      unfold blockAddr at *
      unfold blockOf
      omega
    · exact absurd hnone.2.1 hptr

theorem WellFormed.cell_block (hcell : v.Cell e x) :
    v.Valid (blockOf x) ∨ rootAddr ≤ x ∧ x < rootAddr + 256 := by
  obtain ⟨hlow, hhigh⟩ | ⟨hreach, hptr, hblock⟩ := hwf.cell_cases he hcell
  · obtain rfl | hvalid := hwf.home_valid he
    · exact .inr ⟨hlow, hhigh⟩
    · left
      rw [he.blockOf_eq hlow hhigh]
      exact hvalid
  · left
    rw [hblock]
    exact hwf.valid e .indirect hreach trivial hptr

theorem WellFormed.cell_clear (hcell : v.Cell e x) : v.Clear x 1 := by
  obtain hvalid | ⟨hlow, hhigh⟩ := hwf.cell_block he hcell
  · have hfirst := hvalid.1
    have htwo := v.two_lt_firstData
    refine .inr (.inr ?_)
    unfold blockOf at hfirst
    unfold blockAddr
    omega
  · refine .inr (.inl ?_)
    unfold rootAddr superAddr blockAddr at *
    omega

theorem WellFormed.cell_range (hcell : v.Cell e x) : blockAddr 1 ≤ x ∧ x < 0xD0000000 := by
  obtain hvalid | ⟨hlow, hhigh⟩ := hwf.cell_block he hcell
  · have hfirst := hvalid.1
    have hlt := hvalid.2.1
    have htwo := v.two_lt_firstData
    have hsize := hwf.disk.size
    unfold blockOf at hfirst hlt
    unfold blockAddr
    omega
  · unfold rootAddr superAddr blockAddr at *
    omega

theorem WellFormed.not_cell_entry (hf : v.Entry f)
    (hne : e ≠ f) (hlow : f ≤ x) (hhigh : x < f + 256) : ¬v.Cell e x := by
  intro hcell
  obtain hentry | ⟨hreach, hptr, hblock⟩ := hwf.cell_cases he hcell
  · have hapart := hwf.entry_apart he hf hne
    omega
  · obtain ⟨-, i, -, hidx⟩ := hwf.ptr_home hf hreach (show Index.indirect.InRange from trivial) hptr
      (hblock.symm.trans (hf.blockOf_eq hlow hhigh))
    cases hidx

theorem WellFormed.not_cell_block (hf : v.Reach f) (hidx : idx.InRange) (hptr : v.ptr f idx ≠ 0)
    (hentries : v.IsDir f → ∀ i < v.dirBlocks f, idx ≠ .data i)
    (hother : idx = .indirect → e ≠ f) (hblock : blockOf x = v.ptr f idx) : ¬v.Cell e x := by
  intro hcell
  obtain ⟨hlow, hhigh⟩ | ⟨hreach, hptr', hblock'⟩ := hwf.cell_cases he hcell
  · obtain ⟨htype, i, hi, rfl⟩ := hwf.ptr_home he hf hidx hptr
      (hblock.symm.trans (he.blockOf_eq hlow hhigh))
    exact hentries htype i hi rfl
  · obtain ⟨rfl, rfl⟩ := hwf.apart f e idx .indirect hf hreach hidx trivial hptr
      (hblock.symm.trans hblock')
    exact hother rfl rfl

theorem WellFormed.not_cell_free (hfree : v.LowestFree n)
    (hblock : blockOf x = n) : ¬v.Cell e x := by
  intro hcell
  obtain hvalid | ⟨hlow, hhigh⟩ := hwf.cell_block he hcell
  · exact hfree.ne_of_valid hvalid hblock
  · have hfirst := hfree.firstData_le hwf.disk
    have htwo := v.two_lt_firstData
    unfold rootAddr superAddr blockAddr at *
    unfold blockOf at hblock
    omega

end

structure SameShape (v v' : View) : Prop where
  name : ∀ e, v.Entry e → v'.mem e = v.mem e
  type : ∀ e, v.Entry e → v'.word (typeAddr e) = v.word (typeAddr e)
  size : ∀ dir, v.Reach dir → v.IsDir dir → v'.word (sizeAddr dir) = v.word (sizeAddr dir)
  ptr : ∀ dir i, v.Reach dir → v.IsDir dir → i < v.dirBlocks dir →
    v'.ptr dir (.data i) = v.ptr dir (.data i)

namespace SameShape

variable (hshape : SameShape v v')

include hshape

theorem isDir_iff (he : v.Entry e) : v'.IsDir e ↔ v.IsDir e := by
  unfold IsDir
  rw [hshape.type e he]

theorem dirBlocks (hdir : v.Reach f) (htype : v.IsDir f) : v'.dirBlocks f = v.dirBlocks f := by
  unfold View.dirBlocks View.fileSize
  rw [hshape.size f hdir htype]

theorem fileSize (hdir : v.Reach f) (htype : v.IsDir f) : v'.fileSize f = v.fileSize f := by
  unfold View.fileSize
  rw [hshape.size f hdir htype]

theorem dir_of_dir (hdir : v.Reach f) (htype : v'.IsDir f) (hi : i < v'.dirBlocks f) :
    v.IsDir f ∧ i < v.dirBlocks f ∧ v'.ptr f (.data i) = v.ptr f (.data i) := by
  have htype := (hshape.isDir_iff hdir.toEntry).mp htype
  rw [hshape.dirBlocks hdir htype] at hi
  exact ⟨htype, hi, hshape.ptr f i hdir htype hi⟩

theorem reach (hreach : v.Reach f) : v'.Reach f := by
  induction hreach with
  | root => exact .root
  | @entry dir i j hdir htype hi hj hname ih =>
      have he : v.Entry (entryAddr (v.ptr dir (.data i)) j) :=
        .inr ⟨dir, i, j, hdir, htype, hi, hj, rfl⟩
      have hptr := hshape.ptr dir i hdir htype hi
      rw [← hptr] at hname he ⊢
      refine .entry ih ((hshape.isDir_iff hdir.toEntry).mpr htype) ?_ hj ?_
      · exact (hshape.dirBlocks hdir htype).symm ▸ hi
      · exact (hshape.name _ he).symm ▸ hname

theorem reach_iff : v'.Reach f ↔ v.Reach f := by
  refine ⟨fun hreach => ?_, hshape.reach⟩
  induction hreach with
  | root => exact .root
  | @entry dir i j _ htype hi hj hname hdir =>
      obtain ⟨htype, hi, hptr⟩ := hshape.dir_of_dir hdir htype hi
      have he : v.Entry (entryAddr (v.ptr dir (.data i)) j) :=
        .inr ⟨dir, i, j, hdir, htype, hi, hj, rfl⟩
      rw [hptr] at hname ⊢
      exact .entry hdir htype hi hj (hshape.name _ he ▸ hname)

theorem entry_iff : v'.Entry e ↔ v.Entry e := by
  constructor
  · rintro (rfl | ⟨dir, i, j, hdir, htype, hi, hj, rfl⟩)
    · exact .inl rfl
    · have hdir := hshape.reach_iff.mp hdir
      obtain ⟨htype, hi, hptr⟩ := hshape.dir_of_dir hdir htype hi
      rw [hptr]
      exact .inr ⟨dir, i, j, hdir, htype, hi, hj, rfl⟩
  · rintro (rfl | ⟨dir, i, j, hdir, htype, hi, hj, rfl⟩)
    · exact .inl rfl
    · rw [← hshape.ptr dir i hdir htype hi]
      refine .inr ⟨dir, i, j, hshape.reach hdir, (hshape.isDir_iff hdir.toEntry).mpr htype, ?_, hj, rfl⟩
      exact (hshape.dirBlocks hdir htype).symm ▸ hi

theorem wellFormed (hwf : v.WellFormed) (hdisk : v'.DiskOk)
    (hvalid : ∀ f idx, v.Reach f → idx.InRange → v'.ptr f idx ≠ 0 → v'.Valid (v'.ptr f idx))
    (hapart : ∀ f f' idx idx', v.Reach f → v.Reach f' → idx.InRange → idx'.InRange →
      v'.ptr f idx ≠ 0 → v'.ptr f idx = v'.ptr f' idx' → f = f' ∧ idx = idx')
    (hunused : ∀ e, v.Entry e → ¬v.Reach e → v.NoBlocks e → v'.NoBlocks e) : v'.WellFormed where
  disk := hdisk
  valid f idx hf := hvalid f idx (hshape.reach_iff.mp hf)
  apart f f' idx idx' hf hf' := hapart f f' idx idx' (hshape.reach_iff.mp hf) (hshape.reach_iff.mp hf')
  dirSize dir hdir htype := by
    have hdir := hshape.reach_iff.mp hdir
    have htype := (hshape.isDir_iff hdir.toEntry).mp htype
    rw [hshape.fileSize hdir htype]
    exact hwf.dirSize dir hdir htype
  dense dir i hdir htype hi := by
    have hdir := hshape.reach_iff.mp hdir
    obtain ⟨htype, hi, hptr⟩ := hshape.dir_of_dir hdir htype hi
    rw [hptr]
    exact hwf.dense dir i hdir htype hi
  unused dir i j hdir htype hi hj hname := by
    have hdir := hshape.reach_iff.mp hdir
    obtain ⟨htype, hi, hptr⟩ := hshape.dir_of_dir hdir htype hi
    have he : v.Entry (entryAddr (v.ptr dir (.data i)) j) :=
      .inr ⟨dir, i, j, hdir, htype, hi, hj, rfl⟩
    rw [hptr] at hname ⊢
    rw [hshape.name _ he] at hname
    exact hunused _ he (hwf.unused_not_reach hdir htype hi hj hname)
      (hwf.unused dir i j hdir htype hi hj hname)

end SameShape

theorem SameEntry.noBlocks (hsame : SameEntry v v' e) (hnone : v.NoBlocks e) : v'.NoBlocks e := by
  refine ⟨?_, ?_, fun i hi => ?_⟩
  · unfold IsDir
    rw [hsame.type]
    exact hnone.1
  · rw [hsame.ptr .indirect trivial]
    exact hnone.2.1
  · rw [hsame.ptr (.data i) (show i < 1034 by omega)]
    exact hnone.2.2 i hi

theorem sameShape_of_one (hothers : ∀ e, v.Entry e → e ≠ f → SameEntry v v' e)
    (hname : v'.mem f = v.mem f) (htype : v'.word (typeAddr f) = v.word (typeAddr f))
    (hsize : v.IsDir f → v'.word (sizeAddr f) = v.word (sizeAddr f))
    (hptr : v.IsDir f → ∀ i < v.dirBlocks f, v'.ptr f (.data i) = v.ptr f (.data i))
    (hwf : v.WellFormed) : SameShape v v' := by
  refine ⟨fun e he => ?_, fun e he => ?_, fun dir hdir hd => ?_, fun dir i hdir hd hi => ?_⟩
  · by_cases heq : e = f
    · exact heq ▸ hname
    · exact (hothers e he heq).name
  · by_cases heq : e = f
    · exact heq ▸ htype
    · exact (hothers e he heq).type
  · by_cases heq : dir = f
    · subst heq
      exact hsize hd
    · exact (hothers dir hdir.toEntry heq).size
  · by_cases heq : dir = f
    · subst heq
      exact hptr hd i hi
    · exact (hothers dir hdir.toEntry heq).ptr (.data i) (hwf.index_lt hdir hd hi)

/-- From `v` to `v'` no file but `f` has changed, and the file system is still well formed, with the same
tree. -/
structure OnlyFile (v v' : View) (f : Nat) : Prop where
  wellFormed : v'.WellFormed
  shape : SameShape v v'
  others : ∀ e, v.Entry e → e ≠ f → SameEntry v v' e

theorem WellFormed.of_sameEntries (hwf : v.WellFormed) (hdisk : SameDisk v v')
    (hentry : ∀ e, v.Entry e → SameEntry v v' e) : v'.WellFormed ∧ SameShape v v' := by
  have hshape : SameShape v v' := sameShape_of_one (f := rootAddr) (fun e he _ => hentry e he)
    (hentry _ (.inl rfl)).name (hentry _ (.inl rfl)).type (fun _ => (hentry _ (.inl rfl)).size)
    (fun htype i hi => (hentry _ (.inl rfl)).ptr (.data i) (hwf.index_lt .root htype hi)) hwf
  refine ⟨hshape.wellFormed hwf (hdisk.diskOk hwf.disk) ?_ ?_ ?_, hshape⟩
  · intro f idx hf hidx hptr
    rw [(hentry f hf.toEntry).ptr idx hidx] at hptr ⊢
    obtain ⟨hfirst, hlt, hbit⟩ := hwf.valid f idx hf hidx hptr
    exact ⟨hdisk.firstData ▸ hfirst, hdisk.nblocks ▸ hlt, (hdisk.freeBit _ hlt).trans hbit⟩
  · intro f f' idx idx' hf hf' hidx hidx' hptr hsame
    rw [(hentry f hf.toEntry).ptr idx hidx] at hptr hsame
    rw [(hentry f' hf'.toEntry).ptr idx' hidx'] at hsame
    exact hwf.apart f f' idx idx' hf hf' hidx hidx' hptr hsame
  · exact fun e he _ hnone => (hentry e he).noBlocks hnone

theorem WellFormed.of_ptrs (hwf : v.WellFormed) (hf : v.Reach f) (hdisk : v'.DiskOk)
    (hshape : SameShape v v') (hothers : ∀ e, v.Entry e → e ≠ f → SameEntry v v' e)
    (hvalid : ∀ g idx, v.Reach g → idx.InRange → v'.ptr g idx ≠ 0 → v'.Valid (v'.ptr g idx))
    (hown : ∀ idx, idx.InRange → v'.ptr f idx ≠ 0 → v'.ptr f idx = v.ptr f idx ∨
      ¬v.Valid (v'.ptr f idx) ∧ ∀ idx', idx'.InRange → v'.ptr f idx' = v'.ptr f idx → idx' = idx) :
    v'.WellFormed := by
  refine hshape.wellFormed hwf hdisk hvalid ?_ ?_
  · -- both pointers are old, or one of them is new and points to no block that was in use
    have hnew : ∀ idx g' idx', idx.InRange → v.Reach g' → idx'.InRange → v'.ptr f idx ≠ 0 →
        v'.ptr f idx = v'.ptr g' idx' →
        (v'.ptr f idx = v.ptr f idx → g' = f → v'.ptr f idx' = v.ptr f idx') → f = g' ∧ idx = idx' := by
      intro idx g' idx' hidx hg' hidx' hptr hsame hold
      obtain hkept | ⟨hnot, hunique⟩ := hown idx hidx hptr
      · by_cases heq : g' = f
        · subst heq
          rw [hkept, hold hkept rfl] at hsame
          exact hwf.apart _ _ idx idx' hf hf hidx hidx' (hkept ▸ hptr) hsame
        · rw [hkept, (hothers g' hg'.toEntry heq).ptr idx' hidx'] at hsame
          exact hwf.apart _ _ idx idx' hf hg' hidx hidx' (hkept ▸ hptr) hsame
      · by_cases heq : g' = f
        · subst heq
          exact ⟨rfl, (hunique idx' hidx' hsame.symm).symm⟩
        · rw [(hothers g' hg'.toEntry heq).ptr idx' hidx'] at hsame
          exact absurd (hsame ▸ hwf.valid g' idx' hg' hidx' (hsame ▸ hptr)) hnot
    intro g g' idx idx' hg hg' hidx hidx' hptr hsame
    by_cases heq : g = f
    · subst heq
      refine hnew idx g' idx' hidx hg' hidx' hptr hsame fun hkept hg'f => ?_
      subst hg'f
      obtain h | ⟨hnot, -⟩ := hown idx' hidx' (hsame ▸ hptr)
      · exact h
      · exact absurd (hsame ▸ hkept ▸ hwf.valid _ idx hf hidx (hkept ▸ hptr)) hnot
    · by_cases heq' : g' = f
      · subst heq'
        obtain ⟨hfg, hidx⟩ := hnew idx' g idx hidx' hg hidx (hsame ▸ hptr) hsame.symm
          fun _ h => absurd h heq
        exact ⟨hfg.symm, hidx.symm⟩
      · rw [(hothers g hg.toEntry heq).ptr idx hidx] at hptr hsame
        rw [(hothers g' hg'.toEntry heq').ptr idx' hidx'] at hsame
        exact hwf.apart g g' idx idx' hg hg' hidx hidx' hptr hsame
  · intro e he hnot hnone
    exact (hothers e he fun heq => hnot (heq ▸ hf)).noBlocks hnone

end View

end Fs

end ZynexOS
