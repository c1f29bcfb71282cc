import ZynexOS.Fs.Proof.Bitmap

/-!
# The block pointers of one file

`FileOk` is what the file operations need of the file they work on.
-/

namespace ZynexOS

open Library

namespace Fs

namespace View

variable {v v' : View} {f n : Nat}
variable {a b i : Nat} {idx : Index}

structure FileOk (v : View) (f : Nat) : Prop where
  disk : v.DiskOk
  low : blockAddr (blockOf f) ≤ f
  high : f + 256 ≤ blockAddr (blockOf f + 1)
  home : f = rootAddr ∨ v.Valid (blockOf f)
  valid : ∀ idx, idx.InRange → v.ptr f idx ≠ 0 → v.Valid (v.ptr f idx)
  apart : ∀ idx idx', idx.InRange → idx'.InRange → v.ptr f idx ≠ 0 →
    v.ptr f idx = v.ptr f idx' → idx = idx'
  away : ∀ idx, idx.InRange → v.ptr f idx ≠ 0 → v.ptr f idx ≠ blockOf f

theorem ptr_indirect (v : View) (f : Nat) : v.ptr f .indirect = v.word (indirectAddr f) := rfl

theorem two_lt_firstData (v : View) : 2 ≤ v.firstData := by
  unfold firstData
  omega

theorem Valid.clear (hvalid : v.Valid n) : v.Clear (blockAddr n) 4096 := by
  refine .inr (.inr ?_)
  have := hvalid.1
  unfold blockAddr
  omega

theorem Valid.ne_zero (hvalid : v.Valid n) : n ≠ 0 := by
  have hfirst := hvalid.1
  have htwo := v.two_lt_firstData
  omega

theorem Clear.mono {k l : Nat} (hclear : v.Clear a k) (hlow : a ≤ b) (hhigh : b + l ≤ a + k) :
    v.Clear b l := by
  unfold Clear at *
  omega

theorem FileOk.entry_clear (hok : v.FileOk f) : v.Clear f 256 := by
  obtain rfl | hvalid := hok.home
  · refine .inr (.inl ?_)
    unfold rootAddr superAddr blockAddr
    omega
  · refine .inr (.inr ?_)
    have hfirst := hvalid.1
    have hlow := hok.low
    unfold blockAddr at *
    omega

theorem indirect_mem_entry (f : Nat) : f ≤ indirectAddr f ∧ indirectAddr f + 4 ≤ f + 256 := by
  unfold indirectAddr
  omega

theorem direct_mem_entry (f : Nat) (hi : i < 10) :
    f ≤ directAddr f i ∧ directAddr f i + 4 ≤ f + 256 := by
  unfold directAddr
  omega

theorem slotAddr_mem_block (v : View) (f : Nat) (hi : 10 ≤ i) (hlt : i < 1034) :
    blockAddr (v.ptr f .indirect) ≤ v.slotAddr f i ∧
      v.slotAddr f i + 4 ≤ blockAddr (v.ptr f .indirect + 1) := by
  rw [slotAddr, if_neg (by omega), ptr_indirect]
  unfold blockAddr
  omega

theorem FileOk.entry_disjoint (hok : v.FileOk f) (hb : b ≠ blockOf f) :
    f + 256 ≤ blockAddr b ∨ blockAddr (b + 1) ≤ f := by
  have hlow := hok.low
  have hhigh := hok.high
  unfold blockAddr at *
  omega

theorem slotAddr_clear (hok : v.FileOk f) (hi : i < 1034)
    (hexists : 10 ≤ i → v.ptr f .indirect ≠ 0) : v.Clear (v.slotAddr f i) 4 := by
  by_cases hdirect : i < 10
  · have hmem := direct_mem_entry f hdirect
    rw [slotAddr, if_pos hdirect]
    exact hok.entry_clear.mono hmem.1 hmem.2
  · have hmem := v.slotAddr_mem_block f (by omega) hi
    have hvalid := hok.valid .indirect trivial (hexists (by omega))
    refine hvalid.clear.mono hmem.1 ?_
    unfold blockAddr at *
    omega

theorem slotAddr_disjoint (hok : v.FileOk f) {j : Nat} (hi : i < 1034) (hj : j < 1034)
    (hne : j ≠ i) (hexists : 10 ≤ i → v.ptr f .indirect ≠ 0)
    (hexists' : 10 ≤ j → v.ptr f .indirect ≠ 0) :
    v.slotAddr f j + 4 ≤ v.slotAddr f i ∨ v.slotAddr f i + 4 ≤ v.slotAddr f j := by
  by_cases hind : v.ptr f .indirect = 0
  · have hi' : i < 10 := by
      by_contra h
      exact hexists (by omega) hind
    have hj' : j < 10 := by
      by_contra h
      exact hexists' (by omega) hind
    rw [slotAddr, slotAddr, if_pos hi', if_pos hj']
    unfold directAddr
    omega
  · have haway := hok.entry_disjoint (hok.away .indirect trivial hind)
    rw [ptr_indirect] at haway
    unfold slotAddr blockAddr directAddr at *
    split <;> split <;> omega

theorem ptr_data (v : View) (f : Nat) (hexists : 10 ≤ i → v.ptr f .indirect ≠ 0) :
    v.ptr f (.data i) = v.word (v.slotAddr f i) := by
  show (if 10 ≤ i ∧ v.word (indirectAddr f) = 0 then 0 else v.word (v.slotAddr f i)) = _
  rw [if_neg]
  rintro ⟨hi, hzero⟩
  exact hexists hi hzero

theorem ptr_data_of_none (v : View) (f : Nat) (hi : 10 ≤ i) (hnone : v.ptr f .indirect = 0) :
    v.ptr f (.data i) = 0 := if_pos ⟨hi, hnone⟩

theorem slotAddr_congr (hsame : v'.ptr f .indirect = v.ptr f .indirect) :
    v'.slotAddr f i = v.slotAddr f i := by
  rw [ptr_indirect, ptr_indirect] at hsame
  unfold slotAddr
  rw [hsame]

theorem ptr_data_congr (hind : v'.ptr f .indirect = v.ptr f .indirect)
    (hword : (10 ≤ i → v.ptr f .indirect ≠ 0) →
      v'.word (v.slotAddr f i) = v.word (v.slotAddr f i)) :
    v'.ptr f (.data i) = v.ptr f (.data i) := by
  by_cases hnone : 10 ≤ i ∧ v.ptr f .indirect = 0
  · rw [ptr_data_of_none _ _ hnone.1 (hind.trans hnone.2), ptr_data_of_none _ _ hnone.1 hnone.2]
  · have hexists : 10 ≤ i → v.ptr f .indirect ≠ 0 := fun h h' => hnone ⟨h, h'⟩
    rw [ptr_data _ _ (fun h => hind ▸ hexists h), ptr_data _ _ hexists, slotAddr_congr hind]
    exact hword hexists

theorem LowestFree.firstData_le (hfree : v.LowestFree n) (hdisk : v.DiskOk) : v.firstData ≤ n := by
  by_contra hlt
  have := hdisk.reserved n (by omega)
  rw [hfree.free] at this
  cases this

theorem LowestFree.ne_of_valid (hfree : v.LowestFree n) (hvalid : v.Valid b) : b ≠ n := by
  rintro rfl
  have := hvalid.2.2
  rw [hfree.free] at this
  cases this

theorem LowestFree.ne_home (hfree : v.LowestFree n) (hok : v.FileOk f) : n ≠ blockOf f := by
  obtain rfl | hvalid := hok.home
  · have hfirst := hfree.firstData_le hok.disk
    have htwo := v.two_lt_firstData
    have : blockOf rootAddr = 1 := rfl
    omega
  · exact (hfree.ne_of_valid hvalid).symm

structure Grows (v v' : View) (f : Nat) (idx : Index) (n : Nat) : Prop where
  nblocks : v'.nblocks = v.nblocks
  freeBit : ∀ m < v.nblocks, v'.freeBit m = if m = n then false else v.freeBit m
  ptr : ∀ idx', idx'.InRange → v'.ptr f idx' = if idx' = idx then n else v.ptr f idx'

theorem Grows.firstData (hgrows : Grows v v' f idx n) :
    v'.firstData = v.firstData := by
  unfold View.firstData
  rw [hgrows.nblocks]

theorem Grows.valid (hgrows : Grows v v' f idx n) (hvalid : v.Valid b) :
    v'.Valid b := by
  refine ⟨hgrows.firstData ▸ hvalid.1, hgrows.nblocks ▸ hvalid.2.1, ?_⟩
  rw [hgrows.freeBit b hvalid.2.1]
  split
  · rfl
  · exact hvalid.2.2

theorem Grows.valid_new (hgrows : Grows v v' f idx n) (hfree : v.LowestFree n)
    (hdisk : v.DiskOk) : v'.Valid n := by
  refine ⟨hgrows.firstData ▸ hfree.firstData_le hdisk, hgrows.nblocks ▸ hfree.lt, ?_⟩
  rw [hgrows.freeBit n hfree.lt, if_pos rfl]

theorem Grows.diskOk (hgrows : Grows v v' f idx n) (hdisk : v.DiskOk) : v'.DiskOk where
  size := hgrows.nblocks ▸ hdisk.size
  room := hgrows.firstData ▸ hgrows.nblocks ▸ hdisk.room
  reserved m hm := by
    rw [hgrows.firstData] at hm
    rw [hgrows.freeBit m (lt_of_lt_of_le hm hdisk.room)]
    split
    · rfl
    · exact hdisk.reserved m hm

theorem Grows.fileOk (hgrows : Grows v v' f idx n) (hfree : v.LowestFree n)
    (hok : v.FileOk f) : v'.FileOk f where
  disk := hgrows.diskOk hok.disk
  low := hok.low
  high := hok.high
  home := hok.home.imp_right hgrows.valid
  valid idx' hidx' hne := by
    rw [hgrows.ptr idx' hidx'] at hne ⊢
    split at hne
    · next h =>
        rw [if_pos h]
        exact hgrows.valid_new hfree hok.disk
    · next h =>
        rw [if_neg h]
        exact hgrows.valid (hok.valid idx' hidx' hne)
  apart idx₁ idx₂ h₁ h₂ hne hsame := by
    rw [hgrows.ptr idx₁ h₁] at hne hsame
    rw [hgrows.ptr idx₂ h₂] at hsame
    -- the new pointer differs from the others, which point to blocks in use
    by_cases heq₁ : idx₁ = idx
    · by_cases heq₂ : idx₂ = idx
      · exact heq₁.trans heq₂.symm
      · rw [if_pos heq₁, if_neg heq₂] at hsame
        rw [if_pos heq₁] at hne
        exact absurd hsame.symm (hfree.ne_of_valid (hok.valid idx₂ h₂ (hsame ▸ hne)))
    · rw [if_neg heq₁] at hne hsame
      by_cases heq₂ : idx₂ = idx
      · rw [if_pos heq₂] at hsame
        exact absurd hsame (hfree.ne_of_valid (hok.valid idx₁ h₁ hne))
      · rw [if_neg heq₂] at hsame
        exact hok.apart idx₁ idx₂ h₁ h₂ hne hsame
  away idx' hidx' hne := by
    rw [hgrows.ptr idx' hidx'] at hne ⊢
    split at hne
    · next h =>
        rw [if_pos h]
        exact hfree.ne_home hok
    · next h =>
        rw [if_neg h]
        exact hok.away idx' hidx' hne

theorem allocated_word_of_clear (hn : n < v.nblocks) (hclear : v.Clear a 4) :
    (v.allocated n).word a = v.word a := by
  refine word_put_of_disjoint v _ _ ?_
  have hlast := bitmapAddr_lt hn
  unfold Clear at hclear
  unfold bitmapAddr superAddr at *
  unfold blockAddr at *
  omega

theorem SameDisk.of_allocated (hsame : SameDisk (v.allocated n) v') :
    v'.nblocks = v.nblocks ∧ ∀ m < v.nblocks, v'.freeBit m = if m = n then false else v.freeBit m := by
  have hblocks : (v.allocated n).nblocks = v.nblocks := nblocks_put_bitmap v _ _ _
  refine ⟨hsame.nblocks.trans hblocks, fun m hm => ?_⟩
  rw [hsame.freeBit m (hblocks.symm ▸ hm), freeBit_allocated]

theorem Clear.allocated {k : Nat} (hclear : v.Clear a k) (n : Nat) : (v.allocated n).Clear a k := by
  have hblocks : (v.allocated n).nblocks = v.nblocks := nblocks_put_bitmap v _ _ _
  unfold Clear View.firstData at *
  rw [hblocks]
  exact hclear

theorem grows_data (hok : v.FileOk f) (hfree : v.LowestFree n) (hi : i < 1034)
    (hexists : 10 ≤ i → v.ptr f .indirect ≠ 0) :
    Grows v ((v.allocated n).put (.store (v.slotAddr f i) 4) (v.slotAddr f i) n) f (.data i) n := by
  have hsize := hok.disk.size
  have hlt := hfree.lt
  have hslot := slotAddr_clear hok hi hexists
  obtain ⟨hblocks, hbits⟩ := SameDisk.of_allocated
    (sameDisk_put (.store (v.slotAddr f i) 4) n (hslot.allocated n))
  have hind : ((v.allocated n).put (.store (v.slotAddr f i) 4) (v.slotAddr f i) n).ptr f .indirect
      = v.ptr f .indirect := by
    have hentry := indirect_mem_entry f
    rw [ptr_indirect, word_put_of_disjoint, allocated_word_of_clear hfree.lt
      (hok.entry_clear.mono hentry.1 hentry.2), ptr_indirect]
    by_cases hdirect : i < 10
    · rw [slotAddr, if_pos hdirect]
      unfold indirectAddr directAddr
      omega
    · have hmem := v.slotAddr_mem_block f (by omega) hi
      have haway := hok.entry_disjoint (hok.away .indirect trivial (hexists (by omega)))
      omega
  refine ⟨hblocks, hbits, ?_⟩
  intro idx hidx
  cases idx with
  | indirect => rw [hind, if_neg (by nofun)]
  | data j =>
      by_cases hji : j = i
      · subst hji
        rw [ptr_data _ _ (fun h => hind ▸ hexists h), slotAddr_congr hind,
          word_put_self _ _ _ (by omega), if_pos rfl]
      · rw [if_neg (by simpa using hji)]
        refine ptr_data_congr hind fun hj => ?_
        rw [word_put_of_disjoint _ _ _ (slotAddr_disjoint hok hi hidx hji hexists hj),
          allocated_word_of_clear hfree.lt (slotAddr_clear hok hidx hj)]

theorem grows_indirect (hok : v.FileOk f) (hfree : v.LowestFree n) (hnone : v.ptr f .indirect = 0) :
    Grows v (((v.allocated n).put (.store (indirectAddr f) 4) (indirectAddr f) n).clear
      (blockAddr n) 4096) f .indirect n := by
  have hsize := hok.disk.size
  have hlt := hfree.lt
  have hentry := indirect_mem_entry f
  have hclear := hok.entry_clear.mono hentry.1 hentry.2
  have hblock : v.Clear (blockAddr n) 4096 := by
    refine .inr (.inr ?_)
    have hfirst := hfree.firstData_le hok.disk
    unfold blockAddr
    omega
  have hput := sameDisk_put (v := v.allocated n) (.store (indirectAddr f) 4) n (hclear.allocated n)
  have hblock' : ((v.allocated n).put (.store (indirectAddr f) 4) (indirectAddr f) n).Clear
      (blockAddr n) 4096 := by
    have := hblock.allocated n
    unfold Clear at *
    rw [hput.firstData]
    exact this
  obtain ⟨hblocks, hbits⟩ := SameDisk.of_allocated (hput.trans (sameDisk_clear hblock'))
  have haway := hok.entry_disjoint (hfree.ne_home hok)
  -- words of the entry are not in the cleared block
  have hword : ∀ a, f ≤ a → a + 4 ≤ f + 256 →
      (((v.allocated n).put (.store (indirectAddr f) 4) (indirectAddr f) n).clear
        (blockAddr n) 4096).word a
        = ((v.allocated n).put (.store (indirectAddr f) 4) (indirectAddr f) n).word a := by
    intro a hlow hhigh
    refine word_congr fun x hle hlt => mem_clear_of_not_mem _ ?_
    unfold blockAddr at *
    omega
  have hind : (((v.allocated n).put (.store (indirectAddr f) 4) (indirectAddr f) n).clear
      (blockAddr n) 4096).ptr f .indirect = n := by
    rw [ptr_indirect, hword _ hentry.1 hentry.2, word_put_self _ _ _ (by omega)]
  refine ⟨hblocks, hbits, ?_⟩
  intro idx hidx
  cases idx with
  | indirect => rw [hind, if_pos rfl]
  | data j =>
      have hpos := hfree.firstData_le hok.disk
      have htwo := v.two_lt_firstData
      rw [if_neg (by nofun), ptr_data _ _ (fun _ => by rw [hind]; omega)]
      by_cases hj : j < 10
      · have hmem := direct_mem_entry f hj
        rw [ptr_data _ _ (fun h => by omega), slotAddr, slotAddr, if_pos hj, if_pos hj,
          hword _ hmem.1 hmem.2, word_put_of_disjoint, allocated_word_of_clear hfree.lt
            (hok.entry_clear.mono hmem.1 hmem.2)]
        unfold directAddr indirectAddr
        omega
      · have hmem := slotAddr_mem_block (((v.allocated n).put (.store (indirectAddr f) 4)
          (indirectAddr f) n).clear (blockAddr n) 4096) f (i := j) (by omega) hidx
        rw [hind] at hmem
        rw [ptr_data_of_none _ _ (by omega) hnone]
        refine Bytes.loadNat_fill_zero hmem.1 ?_
        unfold blockAddr at *
        omega

theorem FileOk.entry_accessible (hok : v.FileOk f) (hlow : f ≤ a)
    (hhigh : a < f + 256) : v.Accessible a := by
  have hhome := hok.low
  have hend := hok.high
  obtain rfl | hvalid := hok.home
  · refine hok.disk.super_accessible ?_ ?_
    all_goals
      unfold rootAddr superAddr blockAddr at *
      omega
  · exact hvalid.accessible (by omega) (by omega)

end View

end Fs

end ZynexOS
