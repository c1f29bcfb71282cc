import ZynexOS.Fs.Proof.Fresh
import ZynexOS.Fs.Proof.Walk
import ZynexOS.Fs.Proof.CopyLoop

/-! # The file server on a new disk image -/

namespace ZynexOS

open Library

namespace Fs

open View

variable {nblocks : Nat} {heap mem mem' : Bytes} {files : List HostFile} {v : View} {j : Nat}

theorem Image.congr (hn : nblocks ≤ 1024) (himage : Image nblocks heap files mem)
    (hsame : ∀ x, blockAddr 0 ≤ x → x < blockAddr nblocks → mem' x = mem x) :
    Image nblocks heap files mem' := by
  have hroom := himage.room
  have hstart := Image.three_le files
  have hfew := himage.few
  have hused : nextBlock files + (files.length + 15) / 16 < nblocks := hroom
  have hword : ∀ a, blockAddr 0 ≤ a → a + 4 ≤ blockAddr 3 → mem'.loadNat a 4 = mem.loadNat a 4 := by
    intro a hlow hhigh
    refine Bytes.loadNat_congr fun x hle hlt => hsame x (by omega) ?_
    unfold blockAddr at *
    omega
  have hrb : rootBlocks files.length ≤ 8 := by
    unfold rootBlocks
    omega
  refine ⟨hroom, (hword _ ?_ ?_).trans himage.magic, (hword _ ?_ ?_).trans himage.limit,
    (hword _ ?_ ?_).trans himage.rootSize, (hword _ ?_ ?_).trans himage.rootType,
    fun i hi => (hword _ ?_ ?_).trans (himage.rootDirect i hi),
    fun i hi hi' => (hword _ ?_ ?_).trans (himage.rootUnset i hi hi'),
    (hword _ ?_ ?_).trans himage.rootIndirect, fun j hj => ?_, fun x hlow hhigh => ?_,
    fun b hb => ?_, hfew⟩
  any_goals
    simp only [indirectAddr, typeAddr, sizeAddr, directAddr, rootAddr, superAddr, blockAddr]
    omega
  · have hspan := Written.span_le hj
    have hthree := Image.three_le (files.take j)
    refine (himage.laid j hj).move (fun i hi => hsame _ ?_ ?_) fun x hle hlt => hsame x ?_ ?_
    all_goals
      unfold blockAddr at *
      omega
  · refine (hsame x ?_ hhigh).trans (himage.blank x hlow hhigh)
    unfold blockAddr at *
    omega
  · rw [hword _ ?_ ?_]
    · exact himage.bits b hb
    · unfold bitmapAddr blockAddr
      omega
    · unfold bitmapAddr blockAddr
      omega

theorem name_zero_not_mem (h : HostFile) : 0 ∉ h.name := by
  intro hzero
  refine h.nonzero ?_
  unfold HostFile.name baseName at hzero
  rw [List.mem_reverse] at hzero
  exact List.mem_reverse.mp ((List.takeWhile_sublist _).subset hzero)

theorem slash_not_mem_name (h : HostFile) : slash ∉ h.name := by
  intro hslash
  unfold HostFile.name baseName at hslash
  rw [List.mem_reverse] at hslash
  have hne := List.mem_takeWhile_imp hslash
  simp at hne

theorem getD_ne_zero {name : Name} (hzero : 0 ∉ name) {i : Nat} (hi : i < name.length) :
    name.getD i 0 ≠ 0 := by
  rw [List.getD_eq_getElem _ _ hi]
  intro h
  exact hzero (h ▸ List.getElem_mem hi)

theorem eq_of_bytes {name name' : Name} (hzero : 0 ∉ name) (hzero' : 0 ∉ name')
    (hsame : ∀ i, i ≤ name.length → i ≤ name'.length → name.getD i 0 = name'.getD i 0) :
    name = name' := by
  have hlen : name.length = name'.length := by
    rcases lt_trichotomy name.length name'.length with hlt | heq | hlt
    · have h := hsame name.length le_rfl hlt.le
      rw [List.getD_eq_default _ _ le_rfl] at h
      exact absurd h.symm (getD_ne_zero hzero' hlt)
    · exact heq
    · have h := hsame name'.length hlt.le le_rfl
      rw [List.getD_eq_default _ 0 le_rfl] at h
      exact absurd h (getD_ne_zero hzero hlt)
  refine List.ext_getElem hlen fun i hi hi' => ?_
  have h := hsame i hi.le hi'.le
  rwa [List.getD_eq_getElem _ _ hi, List.getD_eq_getElem _ _ hi'] at h

theorem Image.nameAt_iff (himage : Image nblocks heap files v.mem)
    (hshort : ∀ h ∈ files, h.name.length < maxNameLen) (hj : j < files.length) {name : Name}
    (hzero : 0 ∉ name) :
    v.nameAt (Image.fileAddr files j) name = true ↔ files[j].name = name := by
  have hlen := hshort files[j] (List.getElem_mem hj)
  unfold maxNameLen at hlen
  have hentry := (himage.laid j hj).name
  rw [View.nameAt_iff]
  constructor
  · intro hall
    refine eq_of_bytes (name_zero_not_mem _) hzero fun i hi hi' => ?_
    exact (hentry i hi (by omega)).symm.trans (hall i hi')
  · rintro rfl i hi
    exact hentry i hi (by omega)

theorem entriesFrom_fileAddr (files : List HostFile) (k left : Nat) :
    entriesFrom (Image.fileAddr files k) left =
      (List.range' k left).map (Image.fileAddr files) := by
  induction left generalizing k with
  | zero => rfl
  | succ left ih =>
      have hnext : Image.fileAddr files k + 256 = Image.fileAddr files (k + 1) := by
        unfold Image.fileAddr
        omega
      rw [List.range'_succ, List.map_cons, ← ih, ← hnext]
      rfl

theorem Image.entries_eq (himage : Image nblocks heap files v.mem) {i left : Nat}
    (hle : i + left ≤ rootBlocks files.length) :
    v.entries rootAddr i left = (List.range' (16 * i) (16 * left)).map (fileAddr files) := by
  induction left generalizing i with
  | zero => rfl
  | succ left ih =>
      have hrest := ih (i := i + 1) (by omega)
      have hblock : blockAddr (v.ptr rootAddr (.data i)) = fileAddr files (16 * i) := by
        rw [himage.ptr_root (by omega)]
        unfold fileAddr blockAddr
        omega
      unfold View.entries at hrest ⊢
      rw [List.range'_succ, List.flatMap_cons, hrest, hblock, entriesFrom_fileAddr,
        ← List.map_append, show 16 * (i + 1) = 16 * i + 16 by ring,
        show 16 * (left + 1) = 16 + 16 * left by ring]
      exact congrArg _ List.range'_append_1


theorem Image.lookup_eq (himage : Image nblocks heap files v.mem)
    (hshort : ∀ h ∈ files, h.name.length < maxNameLen)
    (hdistinct : (files.map HostFile.name).Nodup) (hj : j < files.length) :
    v.lookup rootAddr files[j].name = some (fileAddr files j) := by
  have hblocks : j < 16 * rootBlocks files.length := by
    unfold rootBlocks
    omega
  have hzero := name_zero_not_mem files[j]
  unfold View.lookup
  rw [himage.dirBlocks_root, himage.entries_eq (by omega), Nat.mul_zero, ← List.range_eq_range',
    List.find?_map]
  have hfind : (List.range (16 * rootBlocks files.length)).find?
      ((fun e => v.nameAt e files[j].name) ∘ fileAddr files) = some j := by
    rw [List.find?_range_eq_some]
    refine ⟨(himage.nameAt_iff hshort hj hzero).mpr rfl, List.mem_range.mpr hblocks, ?_⟩
    intro k hk
    have hk' : k < files.length := by omega
    rw [Bool.not_eq_true', Bool.eq_false_iff]
    intro hname
    have hsame := (himage.nameAt_iff hshort hk' hzero).mp hname
    have hfile := List.inj_on_of_nodup_map hdistinct (List.getElem_mem hk') (List.getElem_mem hj) hsame
    have hindex := (List.Nodup.of_map _ hdistinct).getElem_inj_iff.mp hfile
    omega
  rw [hfind]
  rfl

section

variable {full : Prop} {E : View → Prop} {buf offset : Nat}

structure HasRead (h : HostFile) (nblocks buf offset fin : Nat) (v : View) (p : Nat) (v' : View) :
    Prop where
  ge : offset ≤ p
  le : p ≤ fin
  disk : ∀ x, blockAddr 0 ≤ x → x < blockAddr nblocks → v'.mem x = v.mem x
  bytes : ∀ i < p - offset, v'.mem (buf + i) = h.content.getD (offset + i) 0

theorem HasRead.copy {h : HostFile} {fin p src n : Nat} {v v' : View}
    (hread : HasRead h nblocks buf offset fin v p v') (hn : nblocks ≤ 1024)
    (hbuf : OutsideCache buf (fin - offset)) (hle : p + n ≤ fin)
    (hsrc : ∀ i < n, v'.mem (src + i) = h.content.getD (p + i) 0) :
    HasRead h nblocks buf offset fin v (p + n) (v'.copy (buf + (p - offset)) src n) := by
  have hge := hread.ge
  refine ⟨by omega, hle, fun x hlow hhigh => ?_, fun i hi => ?_⟩
  · refine (Bytes.move_apply_of_not_mem ?_).trans (hread.disk x hlow hhigh)
    obtain ⟨hplace, -⟩ := hbuf
    unfold blockAddr fileVa at *
    omega
  · by_cases hold : i < p - offset
    · exact (Bytes.move_apply_of_not_mem (.inl (by omega))).trans (hread.bytes i hold)
    · have hnew := hsrc (i - (p - offset)) (by omega)
      rw [show p + (i - (p - offset)) = offset + i by omega] at hnew
      rw [← hnew, show buf + i = buf + (p - offset) + (i - (p - offset)) by omega]
      exact Bytes.move_apply_add (by omega)

theorem Image.runs_readLoop {fin : Nat} (hn : nblocks ≤ 1024)
    (himage : Image nblocks heap files v.mem) (hfiles : files ≠ []) (hunset : Unset heap files)
    (hj : j < files.length) (hoffset : offset < files[j].size) (hge : offset ≤ fin)
    (hfin : fin ≤ files[j].size) (hbuf : OutsideCache buf (fin - offset)) :
    runs full (readLoop (fileAddr files j) fin fileFuel offset buf)
      (fun r v' => r = 0 ∧ HasRead files[j] nblocks buf offset fin v fin v') E v := by
  have hsmall := (himage.laid j hj).small
  have hspan := Written.span_le hj
  have hroom := himage.room
  have hused := used_le files
  unfold maxFileSize at hsmall
  have hstart := Image.three_le (files.take j)
  have hwf : ∀ p v', HasRead files[j] nblocks buf offset fin v p v' →
      Image nblocks heap files v'.mem ∧ v'.FileOk (fileAddr files j) := by
    intro p v' hread
    have himage' := himage.congr hn hread.disk
    exact ⟨himage', (himage'.wellFormed hn hfiles hunset).fileOk
      (himage'.reach_iff.mpr (.inr ⟨j, hj, rfl⟩))⟩
  -- the file block at `p` is there, wherever the loop is
  have hptr : ∀ p (v' : View), p < fin → Image nblocks heap files v'.mem →
      v'.ptr (fileAddr files j) (.data (p / 4096)) = nextBlock (files.take j) + p / 4096 := by
    intro p v' hlt himage'
    refine himage'.ptr_data hj ?_
    unfold HostFile.blocks
    omega
  have hgets : ∀ p v' r v'', p < fin → HasRead files[j] nblocks buf offset fin v p v' →
      v'.Gets (fileAddr files j) (p / 4096) r v'' →
        r = .ok (blockAddr (nextBlock (files.take j) + p / 4096)) ∧ v'' = v' := by
    intro p v' r v'' hlt hread hget
    obtain ⟨himage', -⟩ := hwf p v' hread
    have hblock := hptr p v' hlt himage'
    have hnblocks := himage'.nblocks_eq
    have hblocks : files[j].blocks ≤ files[j].span := Nat.le_add_right _ _
    unfold HostFile.blocks at hblocks
    rw [← hblock]
    exact hget.eq_of_present (by omega) (by omega) (by omega)
  rw [readLoop_eq]
  refine runs_copyLoop (I := HasRead files[j] nblocks buf offset fin v) (by omega) ?_ ?_ ?_ ?_ ?_
    (by omega) ?_ (Nat.le_add_left _ _)
  · exact fun p v' hread => (hwf p v' hread).2
  · intro p v' r v'' _ hlt hread hget
    obtain ⟨hr, -⟩ := hgets p v' _ v'' hlt hread hget
    cases hr
  · intro p v' blk v'' _ hlt hread hget
    obtain ⟨hr, hsame⟩ := hgets p v' _ v'' hlt hread hget
    cases hr
    subst hsame
    obtain ⟨himage', hok⟩ := hwf p v'' hread
    have hblock := hptr p v'' hlt himage'
    have hlen := chunkLen_le p fin
    have hleft := chunkLen_le_left p fin
    have hvalid := hok.valid (.data (p / 4096)) (show p / 4096 < 1034 by omega) (by omega)
    rw [hblock] at hvalid
    refine runs_memmove (hread.copy hn hbuf (by omega) fun i hi => ?_) (fun _ h => absurd ?_ h)
      fun _ h => absurd (fun x hlow hhigh => hbuf.accessible (by omega) (by omega)) h
    · have hdata := (himage'.laid j hj).data (p + i) (by omega)
      rw [← hdata]
      congr 1
      unfold blockAddr
      omega
    · intro x hlow hhigh
      refine hvalid.accessible (by omega) ?_
      rw [blockAddr_succ]
      omega
  · intro p v' hle hread
    obtain rfl : p = fin := le_antisymm hread.le hle
    exact ⟨rfl, hread⟩
  · exact ⟨le_rfl, hge, fun _ _ _ => rfl, fun i hi => by omega⟩
  · have := hbuf.2
    unfold maxFileSize at this
    omega

theorem readCount_natCast {size count : Nat} (hsize : size < 0x80000000) (hlt : offset < size) :
    readCount size offset count = min count (size - offset) := by
  unfold readCount
  have hrest : int32 ((size : Int) - (offset : Int)) = (size - offset : Nat) := by
    unfold int32
    omega
  rw [hrest, uint64_natCast (by omega)]

theorem Image.runs_fileRead {count : Nat} (hn : nblocks ≤ 1024)
    (himage : Image nblocks heap files v.mem) (hfiles : files ≠ []) (hunset : Unset heap files)
    (hj : j < files.length) (hbuf : OutsideCache buf (min count (files[j].size - offset))) :
    runs full (fileRead (fileAddr files j) buf count offset) (fun r v' =>
      r = (min count (files[j].size - offset) : Nat) ∧
      (∀ x, blockAddr 0 ≤ x → x < blockAddr nblocks → v'.mem x = v.mem x) ∧
      ∀ i < min count (files[j].size - offset),
        v'.mem (buf + i) = files[j].content.getD (offset + i) 0) E v := by
  have hsmall := (himage.laid j hj).small
  unfold maxFileSize at hsmall
  have hok := (himage.wellFormed hn hfiles hunset).fileOk
    (himage.reach_iff.mpr (.inr ⟨j, hj, rfl⟩))
  have hacc : v.Accessible (sizeAddr (fileAddr files j)) := hok.entry_accessible
    (by unfold sizeAddr; omega) (by unfold sizeAddr; omega)
  refine runs_bind (runs_loadInt ?_ fun _ h => absurd hacc h)
  rw [show int32 (v.word (sizeAddr (fileAddr files j))) = files[j].size from himage.fileSize hj]
  refine runs_ite (fun hle => ?_) fun hlt => ?_
  · have hzero : min count (files[j].size - offset) = 0 := by omega
    rw [hzero]
    exact runs_pure ⟨rfl, fun _ _ _ => rfl, fun i hi => by omega⟩
  · have hlt : offset < files[j].size := by omega
    dsimp only
    rw [readCount_natCast (by omega) hlt]
    generalize hcount : min count (files[j].size - offset) = n at hbuf ⊢
    rw [← Int.natCast_add, uint64_natCast (by omega), int32_natCast (by omega)]
    refine runs_bind_of (himage.runs_readLoop hn hfiles hunset hj hlt (by omega) (by omega)
      ((Nat.add_sub_cancel_left (n := offset) (m := n)).symm ▸ hbuf)) ?_
    rintro r v' ⟨rfl, hread⟩
    refine runs_ite (fun h => absurd h (lt_irrefl 0)) fun _ => runs_pure ⟨rfl, hread.disk, ?_⟩
    exact fun i hi => hread.bytes i (by omega)

end

section

variable {α : Type} {x : FsM α} {Q : α → View → Prop} {fs : Fs}

theorem exists_of_check {check : FsM Unit} {disk : Bytes} (hdisk : OnDisk nblocks disk fs)
    (hruns : runs False check (fun _ v => v = fs.toView) (fun _ => False) fs.toView) :
    ∃ fs', check fs = .ok () fs' ∧ OnDisk nblocks disk fs' := by
  obtain ⟨_, fs', hcheck, hview⟩ := exists_of_runs hruns
  have hmem : fs'.mem = fs.mem := congrArg View.mem hview
  exact ⟨fs', hcheck, fun y hlow hhigh => hmem ▸ hdisk y hlow hhigh⟩

variable {s : Format}

theorem Image.serves (hn : nblocks ≤ 1024) (himage : Image nblocks heap files s.mem)
    (hfiles : files ≠ []) (hunset : Unset heap files)
    (hshort : ∀ h ∈ files, h.name.length < maxNameLen)
    (hdistinct : (files.map HostFile.name).Nodup) (hj : j < files.length) :
    Serves nblocks s.mem files[j] (fileAddr files j) where
  opens := by
    intro fs hdisk
    have himage' := himage.congr hn hdisk
    have hruns : runs False (fileOpen files[j].name)
        (fun r v => r = .ok (fileAddr files j) ∧ v = fs.toView) (fun _ => False) fs.toView := by
      have hwalk := View.walkPath_name himage'.isDir_root (slash_not_mem_name _) files[j].named
        (hshort _ (List.getElem_mem hj)) (himage'.lookup_eq hshort hdistinct hj)
      have hreads := reads_walkPath (himage'.wellFormed hn hfiles hunset).dirsOk
        (name_zero_not_mem files[j])
      rw [hwalk] at hreads
      exact runs_bind (runs_of_reads hreads (runs_pure ⟨rfl, rfl⟩))
    obtain ⟨r, fs', hopen, rfl, hview⟩ := exists_of_runs hruns
    have hmem : fs'.mem = fs.mem := congrArg View.mem hview
    refine ⟨fs', hopen, fun y hlow hhigh => hmem ▸ hdisk y hlow hhigh, ?_⟩
    rw [hview]
    exact himage'.fileSize hj
  reads := by
    intro fs hdisk buf count offset hoffset hbuf
    have himage' := himage.congr hn hdisk
    obtain ⟨r, fs', hread, rfl, hsame, hbytes⟩ :=
      exists_of_runs (himage'.runs_fileRead hn hfiles hunset hj hbuf)
    exact ⟨fs', hread, fun y hlow hhigh => (hsame y hlow hhigh).trans (hdisk y hlow hhigh), hbytes⟩

/-- On an image that `fsformat` makes of files whose names are different and fit, the checks of the
file server pass and every file is served as it was on the host. -/
theorem server_reads_image (hrun : fsformat heap nblocks files = .ok s)
    (hheap : ∀ y, entsAddr ≤ y → y < entsAddr + 0x8000 → heap y = 0) (hfiles : files ≠ [])
    (hshort : ∀ h ∈ files, h.name.length < maxNameLen)
    (hdistinct : (files.map HostFile.name).Nodup) :
    (∀ fs, OnDisk nblocks s.mem fs →
      ∃ fs', checkSuper fs = .ok () fs' ∧ OnDisk nblocks s.mem fs') ∧
    (∀ fs, OnDisk nblocks s.mem fs →
      ∃ fs', checkBitmap fs = .ok () fs' ∧ OnDisk nblocks s.mem fs') ∧
    ∀ h ∈ files, ∃ f, Serves nblocks s.mem h f := by
  obtain ⟨hn, himage⟩ := image_of_fsformat hrun
  have hunset := Image.unset_of_zero hheap himage.few hshort
  refine ⟨fun fs hdisk => ?_, fun fs hdisk => ?_, fun h hh => ?_⟩
  · have himage' := himage.congr hn hdisk
    exact exists_of_check hdisk
      (runs_checkSuper (himage'.wellFormed hn hfiles hunset).disk himage'.magic rfl)
  · have himage' := himage.congr hn hdisk
    exact exists_of_check hdisk (runs_checkBitmap (himage'.wellFormed hn hfiles hunset).disk rfl)
  · obtain ⟨j, hj, rfl⟩ := List.getElem_of_mem hh
    exact ⟨_, himage.serves hn hfiles hunset hshort hdistinct hj⟩

theorem server_reads_small_file :
    ∃ s f, fsformat (fun _ => 0) 8 [smallFile] = .ok s ∧ Serves 8 s.mem smallFile f := by
  have hok : (fsformat (fun _ => 0) 8 [smallFile]).isOk = true := by decide +kernel
  obtain ⟨s, hrun⟩ := exists_ok hok
  obtain ⟨-, -, hserves⟩ := server_reads_image hrun (fun _ _ _ => rfl) (by nofun) (by decide)
    (by decide)
  obtain ⟨f, hf⟩ := hserves smallFile List.mem_cons_self
  exact ⟨s, f, hrun, hf⟩

end

end Fs

end ZynexOS
