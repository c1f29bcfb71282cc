import ZynexOS.Fs.Proof.Pointers

/-!
# What `file_get_block` does

When the disk is full, the pointer that should have been set holds `-E_NO_DISK`.
-/

namespace ZynexOS

open Library

namespace Fs

variable {v' : View} {Q : Except Int Nat → View → Prop}

namespace View

def noDisk : Nat := 0xfffffff7

def withIndirect (v : View) (f n : Nat) : View :=
  ((v.allocated n).put (.store (indirectAddr f) 4) (indirectAddr f) n).clear (blockAddr n) 4096

def withData (v : View) (f i n : Nat) : View :=
  (v.allocated n).put (.store (v.slotAddr f i) 4) (v.slotAddr f i) n

def Full (v : View) : Prop := ∀ n < v.nblocks, v.freeBit n = false

inductive GetsSlot (v : View) (f i : Nat) : Except Int Nat → View → Prop where
  | present (hptr : v.ptr f (.data i) ≠ 0) : v.GetsSlot f i (.ok (blockAddr (v.ptr f (.data i)))) v
  | filled {n : Nat} (hptr : v.ptr f (.data i) = 0) (hfree : v.LowestFree n) :
      v.GetsSlot f i (.ok (blockAddr n)) (v.withData f i n)
  | full (hptr : v.ptr f (.data i) = 0) (hfull : v.Full) :
      v.GetsSlot f i (.error (-eNoDisk)) (v.put (.store (v.slotAddr f i) 4) (v.slotAddr f i) noDisk)

inductive Gets (v : View) (f i : Nat) : Except Int Nat → View → Prop where
  | invalid (hi : v.nblocks < i ∨ 1034 ≤ i) : v.Gets f i (.error (-eInval)) v
  | slot {r : Except Int Nat} {v' : View} (hi : i < 1034 ∧ i ≤ v.nblocks)
      (hexists : 10 ≤ i → v.ptr f .indirect ≠ 0) (hslot : v.GetsSlot f i r v') : v.Gets f i r v'
  | indirect {n : Nat} {r : Except Int Nat} {v' : View} (hi : i < 1034 ∧ i ≤ v.nblocks) (hten : 10 ≤ i)
      (hnone : v.ptr f .indirect = 0) (hfree : v.LowestFree n)
      (hslot : (v.withIndirect f n).GetsSlot f i r v') : v.Gets f i r v'
  | full (hi : i < 1034 ∧ i ≤ v.nblocks) (hten : 10 ≤ i) (hnone : v.ptr f .indirect = 0)
      (hfull : v.Full) :
      v.Gets f i (.error (-eNoDisk))
        (v.put (.store (indirectAddr f) 4) (indirectAddr f) noDisk)

end View

open View

variable {full : Prop} {E : View → Prop} {v : View} {f i : Nat}

theorem View.Valid.block_accessible {n : Nat} (hvalid : v.Valid n) (x : Nat) (hlow : blockAddr n ≤ x)
    (hhigh : x < blockAddr n + 4096) : v.Accessible x := by
  rw [← blockAddr_succ] at hhigh
  exact hvalid.accessible hlow hhigh

theorem View.FileOk.slot_accessible (hok : v.FileOk f) (hi : i < 1034)
    (hexists : 10 ≤ i → v.ptr f .indirect ≠ 0) : v.Accessible (v.slotAddr f i) := by
  by_cases hdirect : i < 10
  · have hmem := direct_mem_entry f hdirect
    rw [slotAddr, if_pos hdirect]
    exact hok.entry_accessible hmem.1 (by omega)
  · have hmem := v.slotAddr_mem_block f (by omega) hi
    exact (hok.valid .indirect trivial (hexists (by omega))).accessible hmem.1 (by omega)

theorem View.Accessible.allocated {a : Nat} (hacc : v.Accessible a) (n : Nat) :
    (v.allocated n).Accessible a := by
  intro hcache
  obtain ⟨hlt, hused⟩ := hacc hcache
  refine ⟨(nblocks_put_bitmap v _ _ _).symm ▸ hlt, ?_⟩
  rw [freeBit_allocated]
  split
  · rfl
  · exact hused

theorem View.DiskOk.allocated (hdisk : v.DiskOk) (n : Nat) : (v.allocated n).DiskOk := by
  have hblocks : (v.allocated n).nblocks = v.nblocks := nblocks_put_bitmap v _ _ _
  have hfirst : (v.allocated n).firstData = v.firstData := by
    unfold firstData
    rw [hblocks]
  refine ⟨hblocks ▸ hdisk.size, hfirst ▸ hblocks ▸ hdisk.room, ?_⟩
  intro m hm
  rw [freeBit_allocated]
  split
  · rfl
  · exact hdisk.reserved m (hfirst ▸ hm)

theorem View.SameDisk.diskOk (hsame : SameDisk v v') (hdisk : v.DiskOk) : v'.DiskOk where
  size := hsame.nblocks ▸ hdisk.size
  room := hsame.firstData ▸ hsame.nblocks ▸ hdisk.room
  reserved n hn := by
    rw [hsame.firstData] at hn
    rw [hsame.freeBit n (lt_of_lt_of_le hn hdisk.room)]
    exact hdisk.reserved n hn

theorem uint32_noDisk : uint32 (-eNoDisk) = noDisk := by decide

theorem runs_ensureIndirect {Q : Except Int Unit → View → Prop} (hok : v.FileOk f)
    (hpresent : v.ptr f .indirect ≠ 0 → Q (.ok ()) v)
    (hnew : ∀ n, v.ptr f .indirect = 0 → v.LowestFree n → Q (.ok ()) (v.withIndirect f n))
    (hfull : v.ptr f .indirect = 0 → v.Full → Q (.error (-eNoDisk))
      (v.put (.store (indirectAddr f) 4) (indirectAddr f) noDisk)) :
    runs full (ensureIndirect f true) Q E v := by
  have hentry := indirect_mem_entry f
  have hacc : v.Accessible (indirectAddr f) := hok.entry_accessible hentry.1 (by omega)
  have hclear := hok.entry_clear.mono hentry.1 hentry.2
  refine runs_bind (runs_load32 (runs_ite (fun h => runs_pure (hpresent h)) fun hptr => ?_)
    fun _ h => absurd hacc h)
  refine runs_ite (fun h => absurd rfl h) fun _ => runs_bind (runs_allocBlock hok.disk ?_ ?_)
  · intro n hfree
    have hlt := hfree.lt
    have hsize := hok.disk.size
    refine runs_bind (runs_store32 (runs_ite (fun h => by omega) fun _ => ?_)
      fun _ h => absurd (hacc.allocated n) h)
    rw [uint32_of_lt (by omega)]
    have hsame := sameDisk_put (v := v.allocated n) (.store (indirectAddr f) 4) n (hclear.allocated n)
    have hblocks : (v.allocated n).nblocks = v.nblocks := nblocks_put_bitmap v _ _ _
    have hfirst := hfree.firstData_le hok.disk
    have htwo := v.two_lt_firstData
    have hvalid : ((v.allocated n).put (.store (indirectAddr f) 4) (indirectAddr f) n).Valid n := by
      refine ⟨?_, hsame.nblocks ▸ hblocks ▸ hlt, ?_⟩
      · rw [hsame.firstData]
        unfold firstData at *
        rw [hblocks]
        exact hfirst
      · rw [hsame.freeBit n (hblocks ▸ hlt), freeBit_allocated, if_pos rfl]
    have hdisk := hsame.diskOk (hok.disk.allocated n)
    have hacc' : ((v.allocated n).put (.store (indirectAddr f) 4) (indirectAddr f) n).Accessible
        (indirectAddr f) := by
      intro hcache
      obtain ⟨hlt', hused⟩ := hacc.allocated n hcache
      exact ⟨hsame.nblocks ▸ hlt', by rw [hsame.freeBit _ hlt']; exact hused⟩
    refine runs_bind (runs_load32 ?_ fun _ h => absurd hacc' h)
    rw [word_put_self _ _ _ (by omega)]
    refine runs_bind (runs_diskaddr_of_ok hdisk hvalid.ne_zero hvalid.2.1 ?_)
    exact runs_bind (runs_memset (runs_pure (hnew n (not_not.mp hptr) hfree))
      fun _ h => absurd hvalid.block_accessible h)
  · intro hnone
    refine runs_bind (runs_store32 (runs_ite (fun _ => runs_pure ?_) fun h => absurd ?_ h)
      fun _ h => absurd hacc h)
    · rw [uint32_noDisk]
      exact hfull (not_not.mp hptr) hnone
    · decide

theorem runs_fillSlot {Q : Except Int Unit → View → Prop} (hok : v.FileOk f) (hi : i < 1034)
    (hexists : 10 ≤ i → v.ptr f .indirect ≠ 0)
    (hpresent : v.ptr f (.data i) ≠ 0 → Q (.ok ()) v)
    (hnew : ∀ n, v.ptr f (.data i) = 0 → v.LowestFree n → Q (.ok ()) (v.withData f i n))
    (hfull : v.ptr f (.data i) = 0 → v.Full → Q (.error (-eNoDisk))
      (v.put (.store (v.slotAddr f i) 4) (v.slotAddr f i) noDisk)) :
    runs full (fillSlot (v.slotAddr f i)) Q E v := by
  have hacc := hok.slot_accessible hi hexists
  rw [ptr_data v f hexists] at hpresent hnew hfull
  refine runs_bind (runs_load32 (runs_ite (fun h => runs_pure (hpresent h)) fun hptr => ?_)
    fun _ h => absurd hacc h)
  refine runs_bind (runs_allocBlock hok.disk ?_ ?_)
  · intro n hfree
    have hlt := hfree.lt
    have hsize := hok.disk.size
    refine runs_bind (runs_store32 (runs_ite (fun h => by omega) fun _ => runs_pure ?_)
      fun _ h => absurd (hacc.allocated n) h)
    rw [uint32_of_lt (by omega)]
    exact hnew n (not_not.mp hptr) hfree
  · intro hnone
    refine runs_bind (runs_store32 (runs_ite (fun _ => runs_pure ?_) fun h => absurd ?_ h)
      fun _ h => absurd hacc h)
    · rw [uint32_noDisk]
      exact hfull (not_not.mp hptr) hnone
    · decide

theorem View.slotAddr_of_grows {n : Nat} {idx : Index} (hgrows : Grows v v' f idx n)
    (hidx : idx ≠ .indirect) : v'.slotAddr f i = v.slotAddr f i := by
  refine slotAddr_congr ?_
  rw [hgrows.ptr .indirect trivial, if_neg hidx.symm]

theorem runs_slotBlock (hok : v.FileOk f) (hi : i < 1034)
    (hexists : 10 ≤ i → v.ptr f .indirect ≠ 0) (hptr : v.ptr f (.data i) ≠ 0)
    (hQ : Q (.ok (blockAddr (v.ptr f (.data i)))) v) :
    runs full (do
      let diskbno ← load32 (v.slotAddr f i)
      let blk ← diskaddr diskbno
      pure (.ok blk)) Q E v := by
  have hacc := hok.slot_accessible hi hexists
  have hvalid := hok.valid (.data i) hi hptr
  refine runs_bind (runs_load32 ?_ fun _ h => absurd hacc h)
  rw [← ptr_data v f hexists]
  exact runs_bind (runs_diskaddr_of_ok hok.disk hptr hvalid.2.1 (runs_pure hQ))

theorem runs_getSlot (hok : v.FileOk f) (hi : i < 1034)
    (hexists : 10 ≤ i → v.ptr f .indirect ≠ 0) (hQ : ∀ r v', v.GetsSlot f i r v' → Q r v') :
    runs full (do
      match ← fillSlot (v.slotAddr f i) with
      | .error r => pure (.error r)
      | .ok () =>
          let diskbno ← load32 (v.slotAddr f i)
          let blk ← diskaddr diskbno
          pure (.ok blk)) Q E v := by
  refine runs_bind (runs_fillSlot hok hi hexists ?_ ?_ ?_)
  · intro hptr
    exact runs_slotBlock hok hi hexists hptr (hQ _ _ (.present hptr))
  · intro n hptr hfree
    have hgrows := grows_data hok hfree hi hexists
    have hslot := slotAddr_of_grows (i := i) hgrows (by nofun)
    have hnew := hgrows.ptr (.data i) hi
    rw [if_pos rfl] at hnew
    have hind := hgrows.ptr .indirect trivial
    rw [if_neg (by nofun)] at hind
    have hn := (hgrows.valid_new hfree hok.disk).ne_zero
    rw [← hslot]
    refine runs_slotBlock (hgrows.fileOk hfree hok) hi (fun h => hind ▸ hexists h)
      (by rw [hnew]; exact hn) ?_
    rw [hnew]
    exact hQ _ _ (.filled hptr hfree)
  · intro hptr hfull
    exact runs_pure (hQ _ _ (.full hptr hfull))

theorem runs_slotOfIndirect (hok : v.FileOk f) (hi : i < 1034)
    (hten : 10 ≤ i) (hexists : v.ptr f .indirect ≠ 0) (hQ : Q (.ok (v.slotAddr f i)) v) :
    runs full (do
      let indirect ← load32 (indirectAddr f)
      let blk ← diskaddr indirect
      pure (.ok (blk + 4 * (i - nDirect)))) Q E v := by
  have hentry := indirect_mem_entry f
  have hacc : v.Accessible (indirectAddr f) := hok.entry_accessible hentry.1 (by omega)
  have hvalid := hok.valid .indirect trivial hexists
  refine runs_bind (runs_load32 ?_ fun _ h => absurd hacc h)
  refine runs_bind (runs_diskaddr_of_ok hok.disk hexists hvalid.2.1 (runs_pure ?_))
  rw [View.slotAddr, if_neg (by omega)] at hQ
  exact hQ

theorem runs_fileGetBlock (hok : v.FileOk f)
    (hQ : ∀ r v', v.Gets f i r v' → Q r v') : runs full (fileGetBlock f i) Q E v := by
  refine runs_bind (runs_nblocks_of_ok hok.disk (runs_ite ?_ fun hlimit => ?_))
  · intro hlimit
    exact runs_pure (hQ _ _ (.invalid (.inl hlimit)))
  · unfold fileBlockWalk nDirect nIndirect
    by_cases hdirect : i < 10
    · -- a direct pointer
      rw [if_pos hdirect]
      have hexists : 10 ≤ i → v.ptr f .indirect ≠ 0 := fun h => by omega
      have hslot : directAddr f i = v.slotAddr f i := by rw [View.slotAddr, if_pos hdirect]
      rw [hslot]
      refine runs_bind (runs_pure (runs_getSlot hok (by omega) hexists ?_))
      exact fun r v' h => hQ r v' (.slot (by omega) hexists h)
    · rw [if_neg hdirect]
      by_cases hrange : i - 10 < 1024
      · rw [if_pos hrange]
        refine runs_bind (runs_bind (runs_ensureIndirect hok ?_ ?_ ?_))
        · intro hexists
          refine runs_slotOfIndirect hok (by omega) (by omega) hexists ?_
          refine runs_getSlot hok (by omega) (fun _ => hexists) ?_
          exact fun r v' h => hQ r v' (.slot (by omega) (fun _ => hexists) h)
        · intro n hnone hfree
          have hgrows := grows_indirect hok hfree hnone
          have hok' := hgrows.fileOk hfree hok
          have hexists : (v.withIndirect f n).ptr f .indirect ≠ 0 := by
            have hnew := hgrows.ptr .indirect trivial
            rw [if_pos rfl] at hnew
            rw [withIndirect, hnew]
            exact (hgrows.valid_new hfree hok.disk).ne_zero
          refine runs_slotOfIndirect hok' (by omega) (by omega) hexists ?_
          refine runs_getSlot hok' (by omega) (fun _ => hexists) ?_
          exact fun r v' h => hQ r v' (.indirect (by omega) (by omega) hnone hfree h)
        · intro hnone hfull
          exact runs_pure (runs_pure (hQ _ _ (.full (by omega) (by omega) hnone hfull)))
      · rw [if_neg hrange]
        exact runs_bind (runs_pure (runs_pure (hQ _ _ (.invalid (.inr (by omega))))))

theorem View.Gets.eq_of_present {r : Except Int Nat} (hget : v.Gets f i r v')
    (hi : i < 1034) (hlimit : i ≤ v.nblocks) (hptr : v.ptr f (.data i) ≠ 0) :
    r = .ok (blockAddr (v.ptr f (.data i))) ∧ v' = v := by
  cases hget with
  | invalid hbad => omega
  | slot _ _ hslot =>
      cases hslot with
      | present _ => exact ⟨rfl, rfl⟩
      | filled hzero _ => exact absurd hzero hptr
      | full hzero _ => exact absurd hzero hptr
  | indirect _ hten hnone _ _ => exact absurd (ptr_data_of_none v f hten hnone) hptr
  | full _ hten hnone _ => exact absurd (ptr_data_of_none v f hten hnone) hptr

end Fs

end ZynexOS
