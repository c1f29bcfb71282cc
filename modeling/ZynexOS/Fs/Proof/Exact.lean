import ZynexOS.Fs.Proof.Image

/-!
# The bitmap of a new disk image

What can spoil the bitmap is a pointer that does not come from an allocation.
-/

namespace ZynexOS

open Library

namespace Fs

namespace Image

variable {nblocks : Nat} {heap : Bytes} {files : List HostFile} {v : View}

def fileAddr (files : List HostFile) (j : Nat) : Nat := blockAddr (nextBlock files) + 256 * j

theorem three_le (files : List HostFile) : 3 ≤ nextBlock files := Nat.le_add_right _ _

theorem used_le (files : List HostFile) : nextBlock files ≤ usedBlocks files := Nat.le_add_right _ _

section

variable (himage : Image nblocks heap files v.mem)
include himage

theorem rootBlocks_le : nextBlock files + rootBlocks files.length ≤ nblocks := by
  have hroom := himage.room
  unfold usedBlocks rootBlocks at *
  omega

theorem isDir_root : v.IsDir rootAddr := himage.rootType

theorem rootBlocks_le_eight : rootBlocks files.length ≤ 8 := by
  have hfew := himage.few
  unfold rootBlocks
  omega

theorem fileSize_root : v.fileSize rootAddr = 4096 * rootBlocks files.length := by
  have hle := himage.rootBlocks_le_eight
  have hsize : v.word (sizeAddr rootAddr) = 4096 * rootBlocks files.length := himage.rootSize
  unfold View.fileSize int32
  rw [hsize]
  omega

theorem dirBlocks_root : v.dirBlocks rootAddr = rootBlocks files.length := by
  unfold View.dirBlocks
  rw [himage.fileSize_root]
  omega

theorem blocks_root : v.blocks rootAddr = rootBlocks files.length := by
  unfold View.blocks
  rw [himage.fileSize_root]
  omega

theorem ptr_root {i : Nat}
    (hi : i < rootBlocks files.length) : v.ptr rootAddr (.data i) = nextBlock files + i := by
  have hle := himage.rootBlocks_le_eight
  unfold View.ptr View.slotAddr
  dsimp only
  rw [if_neg (by omega), if_pos (by omega)]
  exact himage.rootDirect i hi

theorem isFile {j : Nat} (hj : j < files.length) : ¬v.IsDir (fileAddr files j) := by
  have htype : v.word (typeAddr (fileAddr files j)) = 0 := (himage.laid j hj).type
  unfold View.IsDir
  rw [htype]
  decide

theorem fileSize {j : Nat} (hj : j < files.length) :
    v.fileSize (fileAddr files j) = files[j].size := by
  have hsmall := (himage.laid j hj).small
  have hsize : v.word (sizeAddr (fileAddr files j)) = files[j].size := (himage.laid j hj).size
  unfold View.fileSize int32
  rw [hsize]
  unfold maxFileSize at hsmall
  omega

theorem blocks {j : Nat} (hj : j < files.length) :
    v.blocks (fileAddr files j) = files[j].blocks := by
  unfold View.blocks
  rw [himage.fileSize hj]
  rfl

theorem ptr_data {j i : Nat} (hj : j < files.length) (hi : i < files[j].blocks) :
    v.ptr (fileAddr files j) (.data i) = nextBlock (files.take j) + i := by
  have hlaid := himage.laid j hj
  have hindirect : v.word (indirectAddr (fileAddr files j)) =
      if 10 ≤ files[j].blocks then nextBlock (files.take j) + files[j].blocks
      else strayWord heap j files[j] := hlaid.indirect
  unfold View.ptr View.slotAddr
  dsimp only
  by_cases hten : i < 10
  · rw [if_neg (by omega), if_pos hten]
    exact hlaid.direct i hi hten
  · rw [if_pos (by omega)] at hindirect
    rw [hindirect, if_neg (by omega), if_neg hten]
    exact hlaid.table i hi (by omega)

theorem ptr_indirect {j : Nat} (hj : j < files.length) : v.ptr (fileAddr files j) .indirect =
      if 10 ≤ files[j].blocks then nextBlock (files.take j) + files[j].blocks
      else strayWord heap j files[j] := (himage.laid j hj).indirect

end

theorem entryAddr_eq (files : List HostFile) (i j : Nat) :
    View.entryAddr (nextBlock files + i) j = fileAddr files (16 * i + j) := by
  unfold View.entryAddr fileAddr blockAddr
  omega

theorem name_ne_zero (h : HostFile) : h.name.getD 0 0 ≠ 0 := by
  have hsub : ∀ c ∈ h.name, c ∈ h.path := by
    intro c hc
    unfold HostFile.name baseName at hc
    rw [List.mem_reverse] at hc
    exact List.mem_reverse.mp ((List.takeWhile_sublist _).subset hc)
  cases hname : h.name with
  | nil => exact absurd hname h.named
  | cons c name =>
      intro hzero
      rw [List.getD_cons_zero] at hzero
      refine h.nonzero (hsub 0 ?_)
      rw [hname, hzero]
      exact List.mem_cons_self

theorem fileAddr_inj {j j' : Nat} (heq : fileAddr files j = fileAddr files j') : j = j' := by
  unfold fileAddr at heq
  omega

theorem fileAddr_ne_root (files : List HostFile) (j : Nat) : fileAddr files j ≠ rootAddr := by
  have hstart := three_le files
  unfold fileAddr rootAddr superAddr blockAddr
  omega

theorem reach_iff (himage : Image nblocks heap files v.mem) {f : Nat} :
    v.Reach f ↔ f = rootAddr ∨ ∃ j < files.length, f = fileAddr files j := by
  constructor
  · intro hreach
    induction hreach with
    | root => exact .inl rfl
    | @entry dir i j hdir htype hi hj hname ih =>
        obtain rfl | ⟨j', hj', rfl⟩ := ih
        · rw [himage.dirBlocks_root] at hi
          rw [himage.ptr_root hi, entryAddr_eq] at hname ⊢
          refine .inr ⟨16 * i + j, ?_, rfl⟩
          by_contra hlast
          have hroom := himage.rootBlocks_le
          refine hname (himage.blank _ ?_ ?_) <;> unfold fileAddr blockAddr <;> omega
        · exact absurd htype (himage.isFile hj')
  · rintro (rfl | ⟨j, hj, rfl⟩)
    · exact .root
    · have hi : j / 16 < rootBlocks files.length := by
        unfold rootBlocks
        omega
      have haddr : View.entryAddr (v.ptr rootAddr (.data (j / 16))) (j % 16) = fileAddr files j := by
        rw [himage.ptr_root hi, entryAddr_eq]
        congr 1
        omega
      rw [← haddr]
      refine .entry .root himage.isDir_root (himage.dirBlocks_root.symm ▸ hi) (by omega) ?_
      rw [haddr]
      have hfirst := (himage.laid j hj).name 0 (Nat.zero_le _) (by norm_num)
      intro hzero
      exact name_ne_zero files[j] (hfirst.symm.trans hzero)

/-- Pointer `idx` of file `j` refers to block `b`, which was allocated for it. -/
inductive Proper (files : List HostFile) (j : Nat) (hj : j < files.length) : Index → Nat → Prop where
  | data {i : Nat} (hi : i < files[j].blocks) :
      Proper files j hj (.data i) (nextBlock (files.take j) + i)
  | indirect (hten : 10 ≤ files[j].blocks) :
      Proper files j hj .indirect (nextBlock (files.take j) + files[j].blocks)

variable {j j' b : Nat} {hj : j < files.length} {hj' : j' < files.length} {idx idx' : Index}

theorem Proper.range (hproper : Proper files j hj idx b) :
    nextBlock (files.take j) ≤ b ∧ b < nextBlock (files.take j) + files[j].span := by
  unfold HostFile.span
  cases hproper with
  | data hi => omega
  | indirect hten =>
      rw [if_pos hten]
      omega

theorem Proper.lt (hproper : Proper files j hj idx b) : 3 ≤ b ∧ b < nextBlock files := by
  have hrange := hproper.range
  have hspan := Written.span_le hj
  have hstart := three_le (files.take j)
  omega

theorem Proper.unique (hproper : Proper files j hj idx b) (hproper' : Proper files j' hj' idx' b) :
    j = j' ∧ idx = idx' := by
  have hrange := hproper.range
  have hrange' := hproper'.range
  have hsame : j = j' := by
    by_contra hne
    obtain hlt | hlt := Nat.lt_or_gt_of_ne hne
    · have hspan := nextBlock_take_span_le hj hlt
      omega
    · have hspan := nextBlock_take_span_le hj' hlt
      omega
  subst hsame
  refine ⟨rfl, ?_⟩
  generalize hb : b = b' at hproper'
  cases hproper <;> cases hproper'
  · congr 1
    omega
  · omega
  · omega
  · rfl

theorem exists_proper (hlow : 3 ≤ b) (hhigh : b < nextBlock files) :
    ∃ j hj idx, Proper files j hj idx b := by
  have howner : ∀ k ≤ files.length, b < nextBlock (files.take k) →
      ∃ j, ∃ hj : j < files.length, nextBlock (files.take j) ≤ b ∧
        b < nextBlock (files.take j) + files[j].span := by
    intro k hk hb
    induction k with
    | zero => exact absurd hb (not_lt.mpr hlow)
    | succ k ih =>
        by_cases hprev : b < nextBlock (files.take k)
        · exact ih (by omega) hprev
        · rw [nextBlock_take_succ hk] at hb
          exact ⟨k, hk, by omega, hb⟩
  obtain ⟨j, hj, hle, hlt⟩ := howner files.length le_rfl (by rwa [List.take_length])
  obtain ⟨i, rfl⟩ := Nat.exists_eq_add_of_le hle
  by_cases hi : i < files[j].blocks
  · exact ⟨j, hj, .data i, .data hi⟩
  · unfold HostFile.span at hlt
    split at hlt
    · next hten =>
        obtain rfl : i = files[j].blocks := by omega
        exact ⟨j, hj, .indirect, .indirect hten⟩
    · omega

/-- A pointer in the tree belongs to the root directory, refers to a block of its file, or is stray. -/
inductive Refs (heap : Bytes) (files : List HostFile) : Nat → Index → Nat → Prop where
  | root {i : Nat} (hi : i < rootBlocks files.length) :
      Refs heap files rootAddr (.data i) (nextBlock files + i)
  | proper {j b : Nat} {idx : Index} (hj : j < files.length) (hproper : Proper files j hj idx b) :
      Refs heap files (fileAddr files j) idx b
  | stray {j : Nat} (hj : j < files.length) (hfew : files[j].blocks < 10)
      (hstray : strayWord heap j files[j] ≠ 0) :
      Refs heap files (fileAddr files j) .indirect (strayWord heap j files[j])

theorem refers_iff (himage : Image nblocks heap files v.mem) {f : Nat} :
    v.Refers f idx b ↔ Refs heap files f idx b := by
  constructor
  · rintro ⟨hreach, hwithin, rfl, hnonzero⟩
    obtain rfl | ⟨j, hj, rfl⟩ := himage.reach_iff.mp hreach
    · cases idx with
      | indirect => exact absurd himage.rootIndirect hnonzero
      | data i =>
          have hi : i < rootBlocks files.length := himage.blocks_root ▸ hwithin
          rw [himage.ptr_root hi]
          exact .root hi
    · cases idx with
      | indirect =>
          rw [himage.ptr_indirect hj] at hnonzero ⊢
          split at hnonzero
          · next hten =>
              rw [if_pos hten]
              exact .proper hj (.indirect hten)
          · next hten =>
              rw [if_neg hten]
              exact .stray hj (by omega) hnonzero
      | data i =>
          have hi : i < files[j].blocks := himage.blocks hj ▸ hwithin
          rw [himage.ptr_data hj hi]
          exact .proper hj (.data hi)
  · intro href
    cases href with
    | @root i hi =>
        have hstart := three_le files
        exact ⟨.root, hi.trans_eq himage.blocks_root.symm, himage.ptr_root hi, by omega⟩
    | @proper j _ _ hj hproper =>
        have hlt := hproper.lt
        refine ⟨himage.reach_iff.mpr (.inr ⟨j, hj, rfl⟩), ?_, ?_, by omega⟩
        · cases hproper with
          | data hi => exact hi.trans_eq (himage.blocks hj).symm
          | indirect hten => trivial
        · cases hproper with
          | data hi => exact himage.ptr_data hj hi
          | indirect hten =>
              rw [himage.ptr_indirect hj, if_pos hten]
    | @stray j hj hfew hstray =>
        refine ⟨himage.reach_iff.mpr (.inr ⟨j, hj, rfl⟩), trivial, ?_, hstray⟩
        rw [himage.ptr_indirect hj, if_neg (by omega)]

theorem nblocks_eq (himage : Image nblocks heap files v.mem) : v.nblocks = nblocks := himage.limit

theorem firstData_eq (hn : nblocks ≤ 1024) (himage : Image nblocks heap files v.mem) :
    v.firstData = 3 := by
  have hroom := himage.room
  have hused := used_le files
  have hstart := three_le files
  unfold View.firstData
  rw [himage.nblocks_eq]
  omega

theorem freeBit_eq (himage : Image nblocks heap files v.mem) (hb : b < nblocks) :
    v.freeBit b = decide (usedBlocks files ≤ b) := himage.bits b hb

theorem freeBit_eq_false_iff (himage : Image nblocks heap files v.mem) (hb : b < nblocks) :
    v.freeBit b = false ↔ b < usedBlocks files := by
  rw [himage.freeBit_eq hb, decide_eq_false_iff_not, not_le]

theorem exists_refs (hlow : 3 ≤ b) (hhigh : b < usedBlocks files) :
    (∃ i, i < rootBlocks files.length ∧ b = nextBlock files + i) ∨
      ∃ j hj idx, Proper files j hj idx b := by
  by_cases hb : b < nextBlock files
  · exact .inr (exists_proper hlow hb)
  · obtain ⟨i, rfl⟩ := Nat.exists_eq_add_of_le (not_lt.mp hb)
    refine .inl ⟨i, ?_, rfl⟩
    unfold usedBlocks at hhigh
    unfold rootBlocks
    omega

theorem exact_of_noStray (hn : nblocks ≤ 1024) (himage : Image nblocks heap files v.mem)
    (hfiles : files ≠ []) (hstray : NoStray heap nblocks files) : v.ExactBitmap := by
  have hsome : 0 < files.length := List.length_pos_iff.mpr hfiles
  have hroot : nextBlock files + rootBlocks files.length = usedBlocks files := by
    unfold usedBlocks rootBlocks
    omega
  have hstart := three_le files
  have hstrayLow : ∀ {j} (hj : j < files.length), files[j].blocks < 10 →
      strayWord heap j files[j] < nblocks → strayWord heap j files[j] < 3 := fun hj hfew hlt =>
    (hstray.reserved _ hj hfew).resolve_right (not_le.mpr hlt)
  refine ⟨fun b hb => ?_, fun b hb f idx f' idx' href href' => ?_⟩
  · rw [himage.nblocks_eq] at hb
    rw [himage.freeBit_eq_false_iff hb, himage.firstData_eq hn]
    constructor
    · intro hused
      by_cases hlow : b < 3
      · exact .inl hlow
      · obtain ⟨i, hi, rfl⟩ | ⟨j, hj, idx, hproper⟩ := exists_refs (not_lt.mp hlow) hused
        · exact .inr ⟨_, _, himage.refers_iff.mpr (.root hi)⟩
        · exact .inr ⟨_, _, himage.refers_iff.mpr (.proper hj hproper)⟩
    · rintro (hlow | ⟨f, idx, href⟩)
      · have hle := used_le files
        omega
      · cases himage.refers_iff.mp href with
        | root hi => omega
        | proper hj hproper =>
            have hlt := hproper.lt
            have hle := used_le files
            omega
        | stray hj hfew hnonzero =>
            have hlow := hstrayLow hj hfew hb
            have hle := used_le files
            omega
  · rw [himage.nblocks_eq] at hb
    have hcases := himage.refers_iff.mp href
    have hcases' := himage.refers_iff.mp href'
    generalize hsame : b = b' at hcases'
    cases hcases with
    | root hi =>
        cases hcases' with
        | root hi' => exact ⟨rfl, by congr 1; omega⟩
        | proper hj' hproper' =>
            have hlt := hproper'.lt
            omega
        | stray hj' hfew' hnonzero' =>
            have hlow := hstrayLow hj' hfew' (by omega)
            omega
    | @proper j _ _ hj hproper =>
        have hlt := hproper.lt
        cases hcases' with
        | root hi' => omega
        | proper hj' hproper' =>
            subst hsame
            obtain ⟨rfl, hidx⟩ := hproper.unique hproper'
            exact ⟨rfl, hidx⟩
        | stray hj' hfew' hnonzero' =>
            have hlow := hstrayLow hj' hfew' (by omega)
            omega
    | @stray j hj hfew hnonzero =>
        have hlow := hstrayLow hj hfew hb
        cases hcases' with
        | root hi' => omega
        | proper hj' hproper' =>
            have hlt := hproper'.lt
            omega
        | @stray j' hj' hfew' hnonzero' =>
            obtain hzero | hhigh | rfl := hstray.distinct j j' hj hj' hfew hfew' hsame
            · exact absurd hzero hnonzero
            · omega
            · exact ⟨rfl, rfl⟩

theorem not_exact_nil (himage : Image nblocks heap [] v.mem) : ¬v.ExactBitmap := by
  intro hexact
  have hroom : 3 < nblocks := himage.room
  have href : v.Refers rootAddr (.data 0) 3 := himage.refers_iff.mpr (.root (by decide))
  have hused := (hexact.used 3 (himage.nblocks_eq.symm ▸ hroom)).mpr (.inr ⟨_, _, href⟩)
  rw [himage.freeBit_eq_false_iff hroom] at hused
  exact absurd hused (lt_irrefl 3)

theorem noStray_of_exact (himage : Image nblocks heap files v.mem) (hexact : v.ExactBitmap) :
    NoStray heap nblocks files := by
  have href : ∀ {j} (hj : j < files.length), files[j].blocks < 10 →
      strayWord heap j files[j] ≠ 0 →
      v.Refers (fileAddr files j) .indirect (strayWord heap j files[j]) := fun hj hfew hstray =>
    himage.refers_iff.mpr (.stray hj hfew hstray)
  refine ⟨fun j hj hfew => ?_, fun j j' hj hj' hfew hfew' hsame => ?_⟩
  · by_contra hbad
    obtain ⟨hlow, hhigh⟩ := not_or.mp hbad
    have hhigh' := not_le.mp hhigh
    have hstray := href hj hfew (by omega)
    have hlimit := himage.nblocks_eq.symm ▸ hhigh'
    have hused := (hexact.used _ hlimit).mpr (.inr ⟨_, _, hstray⟩)
    rw [himage.freeBit_eq_false_iff hhigh'] at hused
    -- the block has an owner, so it is referred to twice
    obtain ⟨i, hi, hb⟩ | ⟨j', hj', idx, hproper⟩ := exists_refs (not_lt.mp hlow) hused
    · rw [hb] at hstray hlimit
      obtain ⟨hfile, -⟩ := hexact.once _ hlimit _ _ _ _ hstray (himage.refers_iff.mpr (.root hi))
      exact fileAddr_ne_root files j hfile
    · obtain ⟨hfile, hidx⟩ := hexact.once _ hlimit _ _ _ _ hstray
        (himage.refers_iff.mpr (.proper hj' hproper))
      obtain rfl := fileAddr_inj hfile
      subst hidx
      generalize strayWord heap j files[j] = b at hproper
      cases hproper with
      | indirect hten => omega
  · by_contra hbad
    obtain ⟨hnonzero, hrest⟩ := not_or.mp hbad
    obtain ⟨hhigh, hne⟩ := not_or.mp hrest
    have hlimit : strayWord heap j files[j] < v.nblocks := himage.nblocks_eq.symm ▸ not_le.mp hhigh
    obtain ⟨hfile, -⟩ := hexact.once _ hlimit _ _ _ _ (href hj hfew hnonzero)
      (hsame ▸ href hj' hfew' (hsame ▸ hnonzero))
    exact hne (fileAddr_inj hfile)

end Image

variable {nblocks : Nat} {heap : Bytes} {files : List HostFile} {s : Format}

/-- The bitmap of a new image is exact if and only if there is a file, and no stray word looks like a
block number. -/
theorem exactBitmap_iff (hrun : fsformat heap nblocks files = .ok s) :
    s.view.ExactBitmap ↔ files ≠ [] ∧ NoStray heap nblocks files := by
  obtain ⟨hn, himage⟩ := image_of_fsformat hrun
  have himage : Image nblocks heap files s.view.mem := himage
  constructor
  · intro hexact
    refine ⟨?_, himage.noStray_of_exact hexact⟩
    rintro rfl
    exact himage.not_exact_nil hexact
  · rintro ⟨hfiles, hstray⟩
    exact himage.exact_of_noStray hn hfiles hstray

/-- Without files, the root directory has a block that is marked as free. -/
theorem empty_list_not_exact : ∃ s, fsformat (fun _ => 0) 8 [] = .ok s ∧ ¬s.view.ExactBitmap := by
  have hok : (fsformat (fun _ => 0) 8 []).isOk = true := by decide +kernel
  obtain ⟨s, hrun⟩ := exists_ok hok
  exact ⟨s, hrun, Image.not_exact_nil (image_of_fsformat hrun).2⟩

def smallFile : HostFile where
  path := [0x61]
  content := [0x2a]
  nonzero := by decide
  named := by decide
  short := by decide

theorem small_file_exact :
    ∃ s, fsformat (fun _ => 0) 8 [smallFile] = .ok s ∧ s.view.ExactBitmap := by
  have hok : (fsformat (fun _ => 0) 8 [smallFile]).isOk = true := by decide +kernel
  obtain ⟨s, hrun⟩ := exists_ok hok
  have hword : strayWord (fun _ => 0) 0 smallFile = 0 := by decide +kernel
  have hstray : NoStray (fun _ => 0) 8 [smallFile] := by
    refine ⟨fun j hj _ => ?_, fun j j' hj hj' _ _ _ => ?_⟩
    · obtain rfl : j = 0 := by simpa using hj
      exact .inl (by rw [show [smallFile][0] = smallFile from rfl, hword]; norm_num)
    · obtain rfl : j = 0 := by simpa using hj
      exact .inl hword
  exact ⟨s, hrun, (exactBitmap_iff hrun).mpr ⟨by nofun, hstray⟩⟩

end Fs

end ZynexOS
