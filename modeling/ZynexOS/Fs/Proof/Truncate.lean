import ZynexOS.Fs.Proof.ReadWrite

/-!
# Truncation

The invariant is the set of pointers that are gone: exactly their blocks are free now.
-/

namespace ZynexOS

open Library

namespace Fs

open View

variable {full : Prop} {E : View → Prop} {v v' : View} {f i : Nat}
variable {lo bno size newsize : Nat}

namespace View

/-- From `v` to `v'` the file `f` has lost the blocks of the pointers in `cut`, and nothing else. -/
structure Cut (v v' : View) (f : Nat) (cut : Index → Prop) : Prop where
  only : OnlyFile v v' f
  size : v'.fileSize f = v.fileSize f
  cleared : ∀ idx, idx.InRange → cut idx → v'.ptr f idx = 0
  ptr : ∀ idx, idx.InRange → ¬cut idx → v'.ptr f idx = v.ptr f idx
  nblocks : v'.nblocks = v.nblocks
  freed : ∀ m < v.nblocks, v'.freeBit m = true ↔
    v.freeBit m = true ∨ m ≠ 0 ∧ ∃ idx, idx.InRange ∧ cut idx ∧ v.ptr f idx = m
  data : ∀ g i x, v.InData g i x → (g = f → ¬cut (.data i)) → x < f ∨ f + 256 ≤ x →
    v'.mem x = v.mem x

theorem FileOk.fileSize_dropPtr {idx : Index} (hok : v.FileOk f) (hidx : idx.InRange)
    (hptr : v.ptr f idx ≠ 0) : (v.dropPtr f idx).fileSize f = v.fileSize f := by
  refine congrArg int32 (congrArg Nat.cast (word_congr fun x hle hlt => ?_))
  refine hok.header_dropPtr hidx hptr ?_ ?_
  all_goals
    unfold sizeAddr at *
    omega

namespace Cut

variable {cut cut' : Index → Prop} {idx : Index}

theorem refl (hwf : v.WellFormed) (f : Nat) : Cut v v f fun _ => False where
  only := .refl hwf f
  size := rfl
  cleared _ _ h := h.elim
  ptr _ _ _ := rfl
  nblocks := rfl
  freed m _ := by
    refine ⟨.inl, ?_⟩
    rintro (hfree | ⟨-, _, -, hcut, -⟩)
    · exact hfree
    · exact hcut.elim
  data _ _ _ _ _ _ := rfl

theorem inData {g x : Nat} (hcut : Cut v v' f cut) (hdata : v.InData g i x)
    (hkept : g = f → ¬cut (.data i)) : v'.InData g i x := by
  have hidx : (Index.data i).InRange := hdata.lt
  have hptr : v'.ptr g (.data i) = v.ptr g (.data i) := by
    by_cases heq : g = f
    · subst heq
      exact hcut.ptr _ hidx (hkept rfl)
    · exact (hcut.only.others g hdata.reach.toEntry heq).ptr _ hidx
  exact ⟨hcut.only.shape.reach hdata.reach, hdata.lt, hptr ▸ hdata.ptr, hptr ▸ hdata.block⟩

theorem widen (hcut : Cut v v' f cut) (hsub : ∀ idx, cut idx → cut' idx)
    (hzero : ∀ idx, idx.InRange → cut' idx → v'.ptr f idx = 0) : Cut v v' f cut' where
  only := hcut.only
  size := hcut.size
  cleared := hzero
  ptr idx hidx hnot := hcut.ptr idx hidx fun h => hnot (hsub idx h)
  nblocks := hcut.nblocks
  freed m hm := by
    rw [hcut.freed m hm]
    refine or_congr_right (and_congr_right fun hne => exists_congr fun idx => ?_)
    refine and_congr_right fun hidx => ⟨fun h => ⟨hsub idx h.1, h.2⟩, fun ⟨hcut', hptr⟩ => ?_⟩
    -- a pointer that was not cut has not changed, so it was 0 before
    by_contra hnot
    have hsame := hcut.ptr idx hidx fun h => hnot ⟨h, hptr⟩
    exact hne (hptr.symm.trans (hsame.symm.trans (hzero idx hidx hcut')))
  data g i x hdata hkept := hcut.data g i x hdata fun heq h => hkept heq (hsub _ h)

theorem drop (hcut : Cut v v' f cut) (hf : v.Reach f) (htype : ¬v.IsDir f) (hidx : idx.InRange)
    (hptr : v'.ptr f idx ≠ 0)
    (hlast : idx = .indirect → ∀ j, 10 ≤ j → j < 1034 → v'.ptr f (.data j) = 0) :
    Cut v (v'.dropPtr f idx) f fun idx' => cut idx' ∨ idx' = idx := by
  have hwf := hcut.only.wellFormed
  have hf' := hcut.only.shape.reach hf
  have htype' : ¬v'.IsDir f := fun h => htype ((hcut.only.shape.isDir_iff hf.toEntry).mp h)
  have hok := hwf.fileOk hf'
  have hnot : ¬cut idx := fun h => hptr (hcut.cleared idx hidx h)
  have hold := hcut.ptr idx hidx hnot
  obtain ⟨hblocks, hbits⟩ := hok.dropPtr_disk hidx hptr
  have hothers : ∀ idx', idx'.InRange → idx' ≠ idx →
      (v'.dropPtr f idx).ptr f idx' = v'.ptr f idx' := by
    intro idx' hidx' hne
    obtain ⟨hzero, heq | ⟨hind, j, hj, rfl⟩⟩ | ⟨hsame, -⟩ := hok.dropPtr_ptr hidx hptr hidx'
    · exact absurd heq hne
    · exact hzero.trans (hlast hind j hj hidx').symm
    · exact hsame
  have hgone : (v'.dropPtr f idx).ptr f idx = 0 := by
    obtain ⟨hzero, -⟩ | ⟨-, hne⟩ := hok.dropPtr_ptr hidx hptr hidx
    · exact hzero
    · exact absurd rfl hne
  refine ⟨hcut.only.trans (hwf.shrink hf' htype' hidx hptr),
    (hok.fileSize_dropPtr hidx hptr).trans hcut.size, ?_, ?_, hblocks.trans hcut.nblocks, ?_, ?_⟩
  · intro idx' hidx' hmem
    by_cases heq : idx' = idx
    · exact heq ▸ hgone
    · exact (hothers idx' hidx' heq).trans (hcut.cleared idx' hidx' (hmem.resolve_right heq))
  · intro idx' hidx' hmem
    obtain ⟨hnot', hne⟩ := not_or.mp hmem
    exact (hothers idx' hidx' hne).trans (hcut.ptr idx' hidx' hnot')
  · intro m hm
    rw [hbits m (hcut.nblocks ▸ hm), hold]
    by_cases hsame : m = v.ptr f idx
    · rw [if_pos hsame]
      exact iff_of_true rfl (.inr ⟨hsame ▸ hold ▸ hptr, idx, hidx, .inr rfl, hsame.symm⟩)
    · rw [if_neg hsame, hcut.freed m hm]
      refine or_congr_right (and_congr_right fun _ => exists_congr fun idx' => ?_)
      refine and_congr_right fun _ => and_congr_left fun heq => ⟨.inl, fun h => ?_⟩
      exact h.resolve_right fun h => hsame (h ▸ heq.symm)
  · intro g i x hdata hkept hout
    have hkept' : g = f → ¬cut (.data i) := fun heq h => hkept heq (.inl h)
    have hmem := (hcut.inData hdata hkept').mem_dropPtr hwf hf' hidx hptr hout
    exact hmem.trans (hcut.data g i x hdata hkept' hout)

end Cut

end View

theorem runs_clearPtr {idx : Index} {Q : Unit → View → Prop} (hok : v.FileOk f)
    (hidx : idx.InRange) (hptr : v.ptr f idx ≠ 0) (hQ : Q () (v.dropPtr f idx)) :
    runs full (store32 (v.ptrAddr f idx) 0) Q E (v.freed (v.ptr f idx)) := by
  have hacc : v.Accessible (v.ptrAddr f idx) := by
    cases idx with
    | indirect =>
        have hentry := indirect_mem_entry f
        exact hok.entry_accessible hentry.1 (show indirectAddr f < f + 256 by omega)
    | data i => exact hok.slot_accessible hidx (hasSlot_of_ptr hptr)
  exact runs_store32 hQ fun _ h => absurd (hacc.freed (hok.ptrAddr_away hidx hptr)) h

theorem runs_dropPtr {idx : Index} {Q : Unit → View → Prop} (hok : v.FileOk f)
    (hidx : idx.InRange) (hptr : v.ptr f idx ≠ 0) (hQ : Q () (v.dropPtr f idx)) :
    runs full (do
      freeBlock (v.ptr f idx)
      store32 (v.ptrAddr f idx) 0) Q E v := by
  have hvalid := hok.valid idx hidx hptr
  exact runs_bind (runs_freeBlock hok.disk hptr hvalid.2.1 (runs_clearPtr hok hidx hptr hQ))

theorem runs_fileFreeBlock {Q : Int → View → Prop} (hok : v.FileOk f)
    (hsame : ∀ r, (i < 1034 → v.ptr f (.data i) = 0) → Q r v)
    (hdrop : ∀ r, i < 1034 → v.ptr f (.data i) ≠ 0 → Q r (v.dropPtr f (.data i))) :
    runs full (fileFreeBlock f i) Q E v := by
  obtain ⟨hi, hslot, hreads⟩ | ⟨r, hzero, hreads⟩ := hok.fileBlockWalk_cases i
  · refine runs_bind (runs_of_reads hreads ?_)
    refine runs_bind (runs_load32 ?_ fun _ h => absurd (hok.slot_accessible hi hslot) h)
    rw [← ptr_data v f hslot]
    refine runs_ite (fun hzero => runs_pure (hsame 0 fun _ => hzero)) fun hptr => ?_
    have hidx : (Index.data i).InRange := hi
    have hvalid := hok.valid (.data i) hi hptr
    refine runs_bind (runs_freeBlock hok.disk hptr hvalid.2.1 (runs_bind ?_))
    exact runs_clearPtr hok hidx hptr (runs_pure (hdrop 0 hi hptr))
  · exact runs_bind (runs_of_reads hreads (runs_pure (hsame r hzero)))

def dataRange (lo hi : Nat) : Index → Prop
  | .indirect => False
  | .data i => lo ≤ i ∧ i < hi

theorem dataRange_succ {idx : Index} (h : dataRange lo (bno + 1) idx) :
    dataRange lo bno idx ∨ idx = .data bno := by
  cases idx with
  | indirect => exact h.elim
  | data i =>
      obtain ⟨hlo, hhi⟩ := h
      obtain hlt | rfl := Nat.lt_succ_iff_lt_or_eq.mp hhi
      · exact .inl ⟨hlo, hlt⟩
      · exact .inr rfl

theorem dataRange_mono {idx : Index} (h : dataRange lo bno idx) :
    dataRange lo (bno + 1) idx := by
  cases idx with
  | indirect => exact h
  | data i => exact ⟨h.1, h.2.trans (Nat.lt_succ_self bno)⟩

theorem runs_truncateLoop {left : Nat} (hf : v.Reach f) (htype : ¬v.IsDir f)
    (hle : lo ≤ bno) (hcut : Cut v v' f (dataRange lo bno)) :
    runs full (truncateLoop f left bno) (fun _ w => Cut v w f (dataRange lo (bno + left))) E v' := by
  induction left generalizing bno v' with
  | zero => exact runs_pure hcut
  | succ left ih =>
      have hok := hcut.only.wellFormed.fileOk (hcut.only.shape.reach hf)
      rw [show bno + (left + 1) = bno + 1 + left by omega]
      refine runs_bind (runs_fileFreeBlock hok (fun _ hzero => ih (by omega) ?_)
        fun _ hi hptr => ih (by omega) ?_)
      · -- a hole
        refine hcut.widen (fun _ => dataRange_mono) fun idx hidx hrange => ?_
        obtain hold | rfl := dataRange_succ hrange
        · exact hcut.cleared idx hidx hold
        · exact hzero hidx
      · have hidx : (Index.data bno).InRange := hi
        have hdrop := hcut.drop hf htype hidx hptr (by nofun)
        refine hdrop.widen ?_ fun idx hidx' hrange => ?_
        · rintro idx (hold | rfl)
          · exact dataRange_mono hold
          · exact ⟨hle, Nat.lt_succ_self bno⟩
        · exact hdrop.cleared idx hidx' (dataRange_succ hrange)

theorem uint32_blocksFor (hsize : size ≤ maxFileSize) :
    uint32 (blocksFor size) = (size + 4095) / 4096 := by
  unfold maxFileSize at hsize
  unfold blocksFor
  rw [show (size : Int) + 4095 = ((size + 4095 : Nat) : Int) from rfl, int32_natCast (by omega)]
  exact uint32_of_lt (show (size + 4095) / 4096 < _ by omega)

theorem View.Cut.beyond {cut : Index → Prop} (hcut : Cut v v' f cut)
    (hcuts : ∀ idx, cut idx → Beyond newsize idx)
    (hloop : ∀ i, (newsize + 4095) / 4096 ≤ i → i < (size + 4095) / 4096 → cut (.data i))
    (htail : ∀ i < 1034, (size + 4095) / 4096 ≤ i → v.ptr f (.data i) = 0)
    (hindirect : (newsize + 4095) / 4096 ≤ 10 → v'.ptr f .indirect = 0) :
    Cut v v' f (Beyond newsize) := by
  refine hcut.widen hcuts fun idx hidx hbeyond => ?_
  cases idx with
  | indirect => exact hindirect hbeyond
  | data i =>
      by_cases hmem : cut (.data i)
      · exact hcut.cleared _ hidx hmem
      · refine (hcut.ptr _ hidx hmem).trans (htail i hidx ?_)
        by_contra hlt
        exact hmem (hloop i hbeyond (not_le.mp hlt))

theorem runs_fileTruncateBlocks (hwf : v.WellFormed) (htrim : v.Trimmed)
    (hf : v.Reach f) (htype : ¬v.IsDir f) (hsize : v.fileSize f = size) (hmax : size ≤ maxFileSize)
    (hless : newsize < size) :
    runs full (fileTruncateBlocks f newsize) (fun _ w => Cut v w f (Beyond newsize)) E v := by
  have hacc := (hwf.fileOk hf).size_accessible
  have htail : ∀ i < 1034, (size + 4095) / 4096 ≤ i → v.ptr f (.data i) = 0 := by
    intro i hi hle
    refine htrim.tail f i hf hi ?_
    unfold blocks
    rwa [hsize]
  refine runs_bind (runs_loadInt ?_ fun _ h => absurd hacc h)
  change runs full (truncateLoop f (uint32 (blocksFor (v.fileSize f)) - uint32 (blocksFor newsize))
    (uint32 (blocksFor newsize)) >>= _) _ E v
  rw [hsize, uint32_blocksFor hmax, uint32_blocksFor (by omega)]
  have hstart : Cut v v f (dataRange ((newsize + 4095) / 4096) ((newsize + 4095) / 4096)) := by
    refine (Cut.refl hwf f).widen (by nofun) fun idx _ hrange => ?_
    cases idx with
    | indirect => exact hrange.elim
    | data i => exact absurd hrange.2 (not_lt.mpr hrange.1)
  refine runs_bind_of (runs_truncateLoop hf htype le_rfl hstart) fun _ w hcut => ?_
  rw [show (newsize + 4095) / 4096 + ((size + 4095) / 4096 - (newsize + 4095) / 4096) =
    (size + 4095) / 4096 by omega] at hcut
  have hbeyond : ∀ idx, dataRange ((newsize + 4095) / 4096) ((size + 4095) / 4096) idx →
      Beyond newsize idx := by
    intro idx hrange
    cases idx with
    | indirect => exact hrange.elim
    | data i => exact hrange.1
  refine runs_ite (fun hfew => ?_) fun hmany => ?_
  · have hok := hcut.only.wellFormed.fileOk (hcut.only.shape.reach hf)
    have hentry := indirect_mem_entry f
    refine runs_bind (runs_load32 (runs_ite (fun hnone => runs_pure ?_) fun hptr => ?_)
      fun _ h => absurd (hok.entry_accessible hentry.1 (by omega)) h)
    · exact hcut.beyond hbeyond (fun i hlow hhigh => ⟨hlow, hhigh⟩) htail fun _ => hnone
    · -- no pointer is left in the indirect block
      have hlast : ∀ j, 10 ≤ j → j < 1034 → w.ptr f (.data j) = 0 := by
        intro j hj hlt
        have hidx : (Index.data j).InRange := hlt
        by_cases hrange : j < (size + 4095) / 4096
        · exact hcut.cleared _ hidx ⟨hfew.trans hj, hrange⟩
        · exact (hcut.ptr _ hidx fun h => hrange h.2).trans (htail j hlt (not_lt.mp hrange))
      have hidx : Index.indirect.InRange := trivial
      have hdrop := hcut.drop hf htype hidx hptr fun _ => hlast
      refine runs_dropPtr hok hidx hptr ?_
      refine hdrop.beyond ?_ (fun i hlow hhigh => .inl ⟨hlow, hhigh⟩) htail fun _ =>
        hdrop.cleared _ hidx (.inr rfl)
      rintro idx (hrange | rfl)
      · exact hbeyond idx hrange
      · exact hfew
  · refine runs_pure (hcut.beyond hbeyond (fun i hlow hhigh => ⟨hlow, hhigh⟩) htail fun h => ?_)
    exact absurd h hmany

theorem View.fileSize_put_self (v : View) (f : Nat) (access : Access)
    (hsize : size ≤ maxFileSize) : (v.put access (sizeAddr f) size).fileSize f = size := by
  unfold maxFileSize at hsize
  have hword : (v.put access (sizeAddr f) size).word (sizeAddr f) = size :=
    word_put_self _ _ _ (by omega)
  unfold fileSize
  rw [hword, int32_natCast (by omega)]

theorem View.Cut.truncatedTo (hcut : Cut v v' f (Beyond newsize))
    (hwf : v.WellFormed) (htrim : v.Trimmed) (hf : v.Reach f) (htype : ¬v.IsDir f)
    (hnew : newsize ≤ maxFileSize) :
    TruncatedTo v (v'.put (.store (sizeAddr f) 4) (sizeAddr f) newsize) f newsize := by
  have hwf' := hcut.only.wellFormed
  have hf' := hcut.only.shape.reach hf
  have htype' : ¬v'.IsDir f := fun h => htype ((hcut.only.shape.isDir_iff hf.toEntry).mp h)
  have hsame := (hwf'.fileOk hf').misses_size.put (.store (sizeAddr f) 4) newsize
  have hsize := v'.fileSize_put_self f (.store (sizeAddr f) 4) hnew
  have honly := hcut.only.trans (hwf'.resize hf' htype' (.store (sizeAddr f) 4) newsize)
  have hmem : ∀ x, x < f ∨ f + 256 ≤ x →
      (v'.put (.store (sizeAddr f) 4) (sizeAddr f) newsize).mem x = v'.mem x := by
    intro x hout
    refine mem_put_of_not_mem v' _ _ ?_
    unfold sizeAddr
    omega
  generalize v'.put (.store (sizeAddr f) 4) (sizeAddr f) newsize = w at *
  have hothers : SameOthers v w f := by
    refine ⟨fun g => honly.shape.reach_iff, fun g hg hne => (honly.others g hg.toEntry hne).fileSize,
      fun g idx hg hne hidx => (honly.others g hg.toEntry hne).ptr idx hidx, ?_⟩
    intro g i x hg hne hi hptr hblock hout
    exact (hmem x hout).trans (hcut.data g i x ⟨hg, hi, hptr, hblock⟩ (fun h => absurd h hne) hout)
  have hcleared : ∀ idx, idx.InRange → Beyond newsize idx → w.ptr f idx = 0 := fun idx hidx h =>
    (hsame.ptr idx hidx).trans (hcut.cleared idx hidx h)
  have hptr : ∀ idx, idx.InRange → ¬Beyond newsize idx → w.ptr f idx = v.ptr f idx :=
    fun idx hidx hnot => (hsame.ptr idx hidx).trans (hcut.ptr idx hidx hnot)
  refine ⟨honly.wellFormed, hothers.trimmed htrim (by omega) ?_, hsize, hcleared, hptr,
    hsame.toSameDisk.nblocks.trans hcut.nblocks, ?_, ?_, hothers⟩
  · intro i hi hle
    unfold blocks at hle
    rw [hsize] at hle
    exact hcleared (.data i) hi hle
  · intro m hm
    rw [hsame.toSameDisk.freeBit m (hcut.nblocks ▸ hm)]
    exact hcut.freed m hm
  · intro p hp hhas
    unfold maxFileSize at hnew
    have hlt : p / 4096 < 1034 := by omega
    have hnot : ¬Beyond newsize (.data (p / 4096)) := by
      show ¬(newsize + 4095) / 4096 ≤ p / 4096
      omega
    have hout := Kept.own_out (hwf.fileOk hf) hlt hhas
    refine Kept.byte_eq (hptr _ hlt hnot) ((hmem _ hout).trans ?_)
    exact hcut.data f _ _ (inData_byteAddr hf hlt hhas) (fun _ => hnot) hout

theorem runs_fileSetSize_within (hok : v.FileOk f) (hsize : v.fileSize f = size)
    (hmax : size ≤ maxFileSize) (hless : newsize < size)
    (hblocks : (newsize + 4095) / 4096 = (size + 4095) / 4096) (hnone : v.ptr f .indirect = 0) :
    runs full (fileSetSize f newsize) (fun r w => r = 0 ∧
      w = v.put (.store (sizeAddr f) 4) (sizeAddr f) newsize) E v := by
  have hacc := hok.size_accessible
  have hentry := indirect_mem_entry f
  have hword : int32 (v.word (sizeAddr f)) = size := hsize
  have hsmall : newsize < 0x100000000 := by
    unfold maxFileSize at hmax
    omega
  refine runs_bind (runs_loadInt ?_ fun _ h => absurd hacc h)
  dsimp only
  rw [hword, if_pos (Int.ofNat_lt.mpr hless), uint32_of_lt hsmall]
  refine runs_bind (runs_bind (runs_loadInt ?_ fun _ h => absurd hacc h))
  dsimp only
  rw [hword, uint32_blocksFor hmax, uint32_blocksFor (hless.le.trans hmax), hblocks, Nat.sub_self]
  refine runs_bind (runs_pure (runs_ite (fun _ => ?_) fun _ =>
    runs_pure (runs_storeSize hok ⟨rfl, rfl⟩)))
  refine runs_bind (runs_load32 (runs_ite (fun _ => runs_pure (runs_storeSize hok ⟨rfl, rfl⟩))
    fun h => absurd hnone h) fun _ h => absurd (hok.entry_accessible hentry.1 (by omega)) h)

end Fs

end ZynexOS
