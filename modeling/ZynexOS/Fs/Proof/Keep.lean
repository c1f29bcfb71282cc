import ZynexOS.Fs.Proof.Shape

/-! # Changes that keep a file system well formed -/

namespace ZynexOS

open Library

namespace Fs

namespace View

variable {v v' : View} {e f n x : Nat} {idx : Index}

structure Unchanged (v v' : View) : Prop where
  wellFormed : v'.WellFormed
  shape : SameShape v v'
  entries : ∀ e, v.Entry e → SameEntry v v' e

theorem Unchanged.onlyFile (h : Unchanged v v') (f : Nat) : OnlyFile v v' f :=
  ⟨h.wellFormed, h.shape, fun e he _ => h.entries e he⟩

theorem WellFormed.of_region {S : Nat → Prop} (hwf : v.WellFormed)
    (hmem : ∀ x, S x → v'.mem x = v.mem x) (hclear : ∀ x, ¬S x → v.Clear x 1)
    (hcells : ∀ x e, ¬S x → v.Entry e → ¬v.Cell e x) : Unchanged v v' := by
  have hentries (e : Nat) (he : v.Entry e) : SameEntry v v' e := by
    refine sameEntry_of_cells fun x hcell => hmem x ?_
    exact not_not.mp fun hS => hcells x e hS he hcell
  have hdisk : SameDisk v v' := sameDisk_of_mem fun x hx =>
    hmem x (not_not.mp fun hS => hx (hclear x hS))
  obtain ⟨hwf', hshape⟩ := hwf.of_sameEntries hdisk hentries
  exact ⟨hwf', hshape, hentries⟩

theorem Valid.clear_of_blockOf (hvalid : v.Valid (blockOf x)) : v.Clear x 1 := by
  have hfirst := hvalid.1
  have htwo := v.two_lt_firstData
  refine .inr (.inr ?_)
  unfold blockOf at hfirst
  unfold blockAddr
  omega

theorem WellFormed.of_data (hwf : v.WellFormed) (hf : v.Reach f) (htype : ¬v.IsDir f) {i : Nat}
    (hi : (Index.data i).InRange) (hptr : v.ptr f (.data i) ≠ 0)
    (hmem : ∀ x, blockOf x ≠ v.ptr f (.data i) → v'.mem x = v.mem x) : Unchanged v v' := by
  have hvalid := hwf.valid f (.data i) hf hi hptr
  refine hwf.of_region hmem ?_ ?_
  · intro x hx
    exact Valid.clear_of_blockOf ((not_not.mp hx).symm ▸ hvalid)
  · intro x e hx he
    exact hwf.not_cell_block he hf hi hptr (fun h => absurd h htype) nofun (not_not.mp hx)

theorem WellFormed.of_outside (hwf : v.WellFormed)
    (hmem : ∀ x, blockAddr 1 ≤ x → x < 0xD0000000 → v'.mem x = v.mem x) : Unchanged v v' := by
  have hlimit : blockAddr v.firstData ≤ 0xD0000000 := by
    have hroom := hwf.disk.room
    have hsize := hwf.disk.size
    unfold blockAddr
    omega
  refine hwf.of_region (S := fun x => blockAddr 1 ≤ x ∧ x < 0xD0000000) ?_ ?_ ?_
  · exact fun x hx => hmem x hx.1 hx.2
  · intro x hx
    by_cases hlow : x < blockAddr 1
    · exact .inl hlow
    · exact .inr (.inr (by omega))
  · exact fun x e hx he hcell => hx (hwf.cell_range he hcell)

theorem mem_withPtr (v : View) (f : Nat) (idx : Index)
    (hbit : x < bitmapAddr n ∨ bitmapAddr n + 4 ≤ x)
    (hslot : x < v.ptrAddr f idx ∨ v.ptrAddr f idx + 4 ≤ x)
    (hblock : x < blockAddr n ∨ blockAddr n + 4096 ≤ x) : (v.withPtr f idx n).mem x = v.mem x := by
  cases idx with
  | indirect =>
      refine (mem_clear_of_not_mem _ hblock).trans ?_
      exact (mem_put_of_not_mem _ _ _ hslot).trans (mem_put_of_not_mem _ _ _ hbit)
  | data i => exact (mem_put_of_not_mem _ _ _ hslot).trans (mem_put_of_not_mem _ _ _ hbit)

theorem ptrAddr_cases (hidx : idx.InRange) (hslot : v.HasSlot f idx) :
    f + 136 ≤ v.ptrAddr f idx ∧ v.ptrAddr f idx + 4 ≤ f + 180 ∨
    idx ≠ .indirect ∧ v.ptr f .indirect ≠ 0 ∧ blockAddr (v.ptr f .indirect) ≤ v.ptrAddr f idx ∧
      v.ptrAddr f idx + 4 ≤ blockAddr (v.ptr f .indirect + 1) := by
  cases idx with
  | indirect =>
      left
      show f + 136 ≤ indirectAddr f ∧ indirectAddr f + 4 ≤ f + 180
      unfold indirectAddr
      omega
  | data i =>
      by_cases hdirect : i < 10
      · left
        show f + 136 ≤ v.slotAddr f i ∧ v.slotAddr f i + 4 ≤ f + 180
        rw [slotAddr, if_pos hdirect]
        unfold directAddr
        omega
      · exact .inr ⟨by simp, hslot (by omega), v.slotAddr_mem_block f (by omega) hidx⟩

theorem WellFormed.not_cell_ptrAddr (hwf : v.WellFormed) (hf : v.Reach f) (he : v.Entry e)
    (hne : e ≠ f) (hidx : idx.InRange) (hslot : v.HasSlot f idx) (hcell : v.Cell e x) :
    x < v.ptrAddr f idx ∨ v.ptrAddr f idx + 4 ≤ x := by
  by_contra hmem
  obtain hentry | ⟨-, hptr, hlow, hhigh⟩ := ptrAddr_cases hidx hslot
  · exact hwf.not_cell_entry he hf.toEntry hne (by omega) (by omega) hcell
  · refine hwf.not_cell_block he hf (show Index.indirect.InRange from trivial) hptr (fun _ => nofun)
      (fun _ => hne) ?_ hcell
    unfold blockAddr at *
    unfold blockOf
    omega

theorem FileOk.header_ne_ptrAddr (hok : v.FileOk f) (hidx : idx.InRange) (hslot : v.HasSlot f idx)
    (hlow : f ≤ x) (hhigh : x < f + 136) : x < v.ptrAddr f idx ∨ v.ptrAddr f idx + 4 ≤ x := by
  obtain hentry | ⟨-, hptr, hstart, hend⟩ := ptrAddr_cases hidx hslot
  · omega
  · have haway := hok.entry_disjoint (hok.away .indirect trivial hptr)
    omega

theorem bitmap_of_clear (hclear : v.Clear x 1) (hn : n < v.nblocks) :
    x < bitmapAddr n ∨ bitmapAddr n + 4 ≤ x := by
  have hlast := bitmapAddr_lt hn
  unfold Clear superAddr at hclear
  unfold bitmapAddr at *
  unfold blockAddr at *
  omega

theorem block_of_ne (hne : blockOf x ≠ n) (hcache : blockAddr 0 ≤ x) :
    x < blockAddr n ∨ blockAddr n + 4096 ≤ x := by
  unfold blockAddr at *
  unfold blockOf at hne
  omega

theorem FileOk.clear_of_entry (hok : v.FileOk f) (hlow : f ≤ x) (hhigh : x < f + 256) : v.Clear x 1 :=
  hok.entry_clear.mono hlow (by omega)

theorem FileOk.header_withPtr (hok : v.FileOk f) (hidx : idx.InRange) (hslot : v.HasSlot f idx)
    (hfree : v.LowestFree n) (hlow : f ≤ x) (hhigh : x < f + 136) :
    (v.withPtr f idx n).mem x = v.mem x := by
  refine mem_withPtr v f idx (bitmap_of_clear (hok.clear_of_entry hlow (by omega)) hfree.lt)
    (hok.header_ne_ptrAddr hidx hslot hlow hhigh) ?_
  have haway := hok.entry_disjoint (hfree.ne_home hok)
  rw [blockAddr_succ] at haway
  omega

theorem WellFormed.grow (hwf : v.WellFormed) (hf : v.Reach f) (hidx : idx.InRange)
    (hptr : v.ptr f idx = 0) (hslot : v.HasSlot f idx) (hfree : v.LowestFree n) :
    OnlyFile v (v.withPtr f idx n) f := by
  have hok := hwf.fileOk hf
  have hgrows := grows_withPtr hok hidx hptr hslot hfree
  have hkept : ∀ x e, v.Entry e → v.Cell e x →
      x < v.ptrAddr f idx ∨ v.ptrAddr f idx + 4 ≤ x → (v.withPtr f idx n).mem x = v.mem x := by
    intro x e he hcell hx
    refine mem_withPtr v f idx (bitmap_of_clear (hwf.cell_clear he hcell) hfree.lt) hx ?_
    refine block_of_ne (fun h => hwf.not_cell_free he hfree h hcell) ?_
    have hrange := hwf.cell_range he hcell
    unfold blockAddr at *
    omega
  have hothers : ∀ e, v.Entry e → e ≠ f → SameEntry v (v.withPtr f idx n) e := fun e he hne =>
    sameEntry_of_cells fun x hcell =>
      hkept x e he hcell (hwf.not_cell_ptrAddr hf he hne hidx hslot hcell)
  have hheader : ∀ x, f ≤ x → x < f + 136 → (v.withPtr f idx n).mem x = v.mem x :=
    fun x => hok.header_withPtr hidx hslot hfree
  have hnotIdx : v.IsDir f → ∀ i < v.dirBlocks f, Index.data i ≠ idx := by
    rintro htype i hi rfl
    exact hwf.dense f i hf htype hi hptr
  have hshape : SameShape v (v.withPtr f idx n) := by
    refine sameShape_of_one hothers (hheader f le_rfl (by omega)) ?_ (fun _ => ?_) ?_ hwf
    · refine word_congr fun x hle hlt => hheader x ?_ ?_ <;> unfold typeAddr at * <;> omega
    · refine word_congr fun x hle hlt => hheader x ?_ ?_ <;> unfold sizeAddr at * <;> omega
    · intro htype i hi
      rw [hgrows.ptr (.data i) (hwf.index_lt hf htype hi), if_neg (hnotIdx htype i hi)]
  refine ⟨hwf.of_ptrs hf (hgrows.diskOk hwf.disk) hshape hothers ?_ ?_, hshape, hothers⟩
  · intro g idx' hg hidx' hne
    by_cases heq : g = f
    · subst heq
      rw [hgrows.ptr idx' hidx'] at hne ⊢
      split at hne
      · next h =>
          rw [if_pos h]
          exact hgrows.valid_new hfree hwf.disk
      · next h =>
          rw [if_neg h]
          exact hgrows.valid (hwf.valid g idx' hg hidx' hne)
    · rw [(hothers g hg.toEntry heq).ptr idx' hidx'] at hne ⊢
      exact hgrows.valid (hwf.valid g idx' hg hidx' hne)
  · intro idx' hidx' hne
    rw [hgrows.ptr idx' hidx'] at hne ⊢
    by_cases heq : idx' = idx
    · right
      rw [if_pos heq]
      refine ⟨fun hvalid => hfree.ne_of_valid hvalid rfl, fun idx'' hidx'' hsame => ?_⟩
      rw [hgrows.ptr idx'' hidx''] at hsame
      by_cases heq' : idx'' = idx
      · exact heq'.trans heq.symm
      · rw [if_neg heq'] at hsame
        rw [if_pos heq] at hne
        exact absurd hsame (hfree.ne_of_valid (hwf.valid f idx'' hf hidx'' (hsame ▸ hne)))
    · rw [if_neg heq]
      exact .inl rfl

def dropPtr (v : View) (f : Nat) (idx : Index) : View :=
  (v.freed (v.ptr f idx)).put (.store (v.ptrAddr f idx) 4) (v.ptrAddr f idx) 0

theorem mem_dropPtr (v : View) (f : Nat) (idx : Index)
    (hbit : x < bitmapAddr (v.ptr f idx) ∨ bitmapAddr (v.ptr f idx) + 4 ≤ x)
    (hslot : x < v.ptrAddr f idx ∨ v.ptrAddr f idx + 4 ≤ x) : (v.dropPtr f idx).mem x = v.mem x :=
  (mem_put_of_not_mem _ _ _ hslot).trans (mem_put_of_not_mem _ _ _ hbit)

theorem hasSlot_of_ptr (hptr : v.ptr f idx ≠ 0) : v.HasSlot f idx := by
  cases idx with
  | indirect => trivial
  | data i => exact fun hi hnone => hptr (ptr_data_of_none v f hi hnone)

theorem FileOk.dropPtr_disk (hok : v.FileOk f) (hidx : idx.InRange) (hptr : v.ptr f idx ≠ 0) :
    (v.dropPtr f idx).nblocks = v.nblocks ∧ ∀ m < v.nblocks,
      (v.dropPtr f idx).freeBit m = if m = v.ptr f idx then true else v.freeBit m := by
  have hblocks : (v.freed (v.ptr f idx)).nblocks = v.nblocks := nblocks_put_bitmap v _ _ _
  have hclear : (v.freed (v.ptr f idx)).Clear (v.ptrAddr f idx) 4 := by
    have hold : v.Clear (v.ptrAddr f idx) 4 := by
      cases idx with
      | indirect =>
          exact hok.entry_clear.mono (indirect_mem_entry f).1 (indirect_mem_entry f).2
      | data i => exact slotAddr_clear hok hidx (hasSlot_of_ptr hptr)
    unfold Clear firstData at *
    rw [hblocks]
    exact hold
  have hsame := sameDisk_put (.store (v.ptrAddr f idx) 4) 0 hclear
  refine ⟨hsame.nblocks.trans hblocks, fun m hm => ?_⟩
  exact (hsame.freeBit m (hblocks.symm ▸ hm)).trans (freeBit_freed v _ m)

theorem FileOk.dropPtr_ptr (hok : v.FileOk f) (hidx : idx.InRange) (hptr : v.ptr f idx ≠ 0)
    {idx' : Index} (hidx' : idx'.InRange) :
    (v.dropPtr f idx).ptr f idx' = 0 ∧ (idx' = idx ∨ idx = .indirect ∧ ∃ j, 10 ≤ j ∧ idx' = .data j) ∨
      (v.dropPtr f idx).ptr f idx' = v.ptr f idx' ∧ idx' ≠ idx := by
  have hlt := (hok.valid idx hidx hptr).2.1
  have hword : ∀ a, v.Clear a 4 → a + 4 ≤ v.ptrAddr f idx ∨ v.ptrAddr f idx + 4 ≤ a →
      (v.dropPtr f idx).word a = v.word a := by
    intro a hclear hdisj
    refine word_congr fun x hle hlt' => mem_dropPtr v f idx ?_ (by omega)
    exact bitmap_of_clear (hclear.mono hle (by omega)) hlt
  have hzero : (v.dropPtr f idx).word (v.ptrAddr f idx) = 0 := word_put_self _ _ _ (by decide)
  have hentry : ∀ a, f ≤ a → a + 4 ≤ f + 256 → v.Clear a 4 := fun a hlow hhigh =>
    hok.entry_clear.mono hlow hhigh
  cases idx with
  | indirect =>
      have hnone : (v.dropPtr f .indirect).ptr f .indirect = 0 := hzero
      cases idx' with
      | indirect => exact .inl ⟨hnone, .inl rfl⟩
      | data j =>
          by_cases hj : j < 10
          · refine .inr ⟨?_, by simp⟩
            rw [ptr_data _ _ (by omega), ptr_data _ _ (by omega), slotAddr, slotAddr, if_pos hj,
              if_pos hj]
            refine hword _ (hentry _ (direct_mem_entry f hj).1 (direct_mem_entry f hj).2) ?_
            show directAddr f j + 4 ≤ indirectAddr f ∨ _
            unfold directAddr indirectAddr
            omega
          · exact .inl ⟨ptr_data_of_none _ _ (by omega) hnone, .inr ⟨rfl, j, by omega, rfl⟩⟩
  | data i =>
      have hslot := hasSlot_of_ptr hptr
      have hind : (v.dropPtr f (.data i)).ptr f .indirect = v.ptr f .indirect := by
        have hmem := indirect_mem_entry f
        refine hword _ (hentry _ hmem.1 hmem.2) ?_
        show indirectAddr f + 4 ≤ v.slotAddr f i ∨ v.slotAddr f i + 4 ≤ indirectAddr f
        by_cases hdirect : i < 10
        · rw [slotAddr, if_pos hdirect]
          unfold indirectAddr directAddr
          omega
        · have hblock := v.slotAddr_mem_block f (by omega) hidx
          have haway := hok.entry_disjoint (hok.away .indirect trivial (hslot (by omega)))
          omega
      cases idx' with
      | indirect => exact .inr ⟨hind, by simp⟩
      | data j =>
          by_cases hji : j = i
          · subst hji
            refine .inl ⟨?_, .inl rfl⟩
            rw [ptr_data _ _ (fun h => hind ▸ hslot h), slotAddr_congr hind]
            exact hzero
          · refine .inr ⟨ptr_data_congr hind fun hj => ?_, by simpa using hji⟩
            exact hword _ (slotAddr_clear hok hidx' hj)
              (slotAddr_disjoint hok hidx hidx' hji hslot hj)

theorem FileOk.header_dropPtr (hok : v.FileOk f) (hidx : idx.InRange) (hptr : v.ptr f idx ≠ 0)
    (hlow : f ≤ x) (hhigh : x < f + 136) : (v.dropPtr f idx).mem x = v.mem x :=
  mem_dropPtr v f idx
    (bitmap_of_clear (hok.clear_of_entry hlow (by omega)) (hok.valid idx hidx hptr).2.1)
    (hok.header_ne_ptrAddr hidx (hasSlot_of_ptr hptr) hlow hhigh)

theorem WellFormed.shrink (hwf : v.WellFormed) (hf : v.Reach f) (htype : ¬v.IsDir f)
    (hidx : idx.InRange) (hptr : v.ptr f idx ≠ 0) : OnlyFile v (v.dropPtr f idx) f := by
  have hok := hwf.fileOk hf
  have hslot := hasSlot_of_ptr hptr
  have hvalid := hwf.valid f idx hf hidx hptr
  obtain ⟨hblocks, hbits⟩ := hok.dropPtr_disk hidx hptr
  have hfirst : (v.dropPtr f idx).firstData = v.firstData := by
    unfold firstData
    rw [hblocks]
  have hkept : ∀ x e, v.Entry e → v.Cell e x →
      x < v.ptrAddr f idx ∨ v.ptrAddr f idx + 4 ≤ x → (v.dropPtr f idx).mem x = v.mem x :=
    fun x e he hcell hx =>
      mem_dropPtr v f idx (bitmap_of_clear (hwf.cell_clear he hcell) hvalid.2.1) hx
  have hothers : ∀ e, v.Entry e → e ≠ f → SameEntry v (v.dropPtr f idx) e := fun e he hne =>
    sameEntry_of_cells fun x hcell =>
      hkept x e he hcell (hwf.not_cell_ptrAddr hf he hne hidx hslot hcell)
  have hheader : ∀ x, f ≤ x → x < f + 136 → (v.dropPtr f idx).mem x = v.mem x :=
    fun x => hok.header_dropPtr hidx hptr
  have hshape : SameShape v (v.dropPtr f idx) := by
    refine sameShape_of_one hothers (hheader f le_rfl (by omega)) ?_ (fun h => absurd h htype)
      (fun h => absurd h htype) hwf
    refine word_congr fun x hle hlt => hheader x ?_ ?_ <;> unfold typeAddr at * <;> omega
  have hdisk : (v.dropPtr f idx).DiskOk := by
    refine ⟨hblocks ▸ hwf.disk.size, hfirst ▸ hblocks ▸ hwf.disk.room, fun m hm => ?_⟩
    rw [hfirst] at hm
    rw [hbits m (lt_of_lt_of_le hm hwf.disk.room), if_neg (by have := hvalid.1; omega)]
    exact hwf.disk.reserved m hm
  -- the freed block has no other pointer
  have hstill : ∀ g idx', v.Reach g → idx'.InRange → v.ptr g idx' ≠ 0 → (g = f → idx' ≠ idx) →
      (v.dropPtr f idx).Valid (v.ptr g idx') := by
    intro g idx' hg hidx' hne hother
    obtain ⟨hlow, hlt, hbit⟩ := hwf.valid g idx' hg hidx' hne
    refine ⟨hfirst ▸ hlow, hblocks ▸ hlt, ?_⟩
    rw [hbits _ hlt, if_neg]
    · exact hbit
    · intro hsame
      obtain ⟨rfl, rfl⟩ := hwf.apart g f idx' idx hg hf hidx' hidx hne hsame
      exact hother rfl rfl
  refine ⟨hwf.of_ptrs hf hdisk hshape hothers ?_ ?_, hshape, hothers⟩
  · intro g idx' hg hidx' hne
    by_cases heq : g = f
    · subst heq
      obtain ⟨hzero, -⟩ | ⟨hsame, hother⟩ := hok.dropPtr_ptr hidx hptr hidx'
      · exact absurd hzero hne
      · rw [hsame] at hne ⊢
        exact hstill g idx' hg hidx' hne fun _ => hother
    · rw [(hothers g hg.toEntry heq).ptr idx' hidx'] at hne ⊢
      exact hstill g idx' hg hidx' hne fun h => absurd h heq
  · intro idx' hidx' hne
    obtain ⟨hzero, -⟩ | ⟨hsame, -⟩ := hok.dropPtr_ptr hidx hptr hidx'
    · exact absurd hzero hne
    · exact .inl hsame

theorem WellFormed.resize (hwf : v.WellFormed) (hf : v.Reach f) (htype : ¬v.IsDir f)
    (access : Access) (size : Nat) : OnlyFile v (v.put access (sizeAddr f) size) f := by
  have hok := hwf.fileOk hf
  have hsame := hok.misses_size.put access size
  have hothers : ∀ e, v.Entry e → e ≠ f → SameEntry v (v.put access (sizeAddr f) size) e := by
    intro e he hne
    refine sameEntry_of_cells fun x hcell => mem_put_of_not_mem v access size ?_
    by_contra hx
    refine hwf.not_cell_entry he hf.toEntry hne ?_ ?_ hcell <;> unfold sizeAddr at hx <;> omega
  have hshape : SameShape v (v.put access (sizeAddr f) size) := by
    refine sameShape_of_one hothers ?_ ?_ (fun h => absurd h htype) (fun h => absurd h htype) hwf
    · refine mem_put_of_not_mem v access size ?_
      unfold sizeAddr
      omega
    · refine word_put_of_disjoint v access size ?_
      unfold sizeAddr typeAddr
      omega
  have hptr : ∀ g idx, v.Reach g → idx.InRange →
      (v.put access (sizeAddr f) size).ptr g idx = v.ptr g idx := by
    intro g idx hg hidx
    by_cases heq : g = f
    · subst heq
      exact hsame.ptr idx hidx
    · exact (hothers g hg.toEntry heq).ptr idx hidx
  refine ⟨hshape.wellFormed hwf (hsame.toSameDisk.diskOk hwf.disk) ?_ ?_ ?_, hshape, hothers⟩
  · intro g idx hg hidx hne
    rw [hptr g idx hg hidx] at hne ⊢
    exact hsame.valid (hwf.valid g idx hg hidx hne)
  · intro g g' idx idx' hg hg' hidx hidx' hne heq
    rw [hptr g idx hg hidx] at hne heq
    rw [hptr g' idx' hg' hidx'] at heq
    exact hwf.apart g g' idx idx' hg hg' hidx hidx' hne heq
  · intro e he hnot hnone
    exact (hothers e he fun heq => hnot (heq ▸ hf)).noBlocks hnone

end View

end Fs

end ZynexOS
