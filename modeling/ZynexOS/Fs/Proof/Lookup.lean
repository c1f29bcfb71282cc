import ZynexOS.Fs.Paths
import ZynexOS.Fs.Proof.Reads
import ZynexOS.Fs.Proof.Tree

/-! # Looking up names -/

namespace ZynexOS

open Library

namespace Fs

open View

variable {full : Prop} {E : View → Prop} {v : View} {a f dir i : Nat}
variable {Q : Unit → View → Prop} {left : Nat}

theorem runs_checkSuper (hdisk : v.DiskOk)
    (hmagic : v.word superAddr = fsMagic) (hQ : Q () v) : runs full checkSuper Q E v := by
  have hacc : v.Accessible superAddr := hdisk.super_accessible le_rfl (by
    unfold superAddr blockAddr
    omega)
  refine runs_bind (runs_load32 (runs_ite (fun h => absurd hmagic h) fun _ => ?_)
    fun _ h => absurd hacc h)
  refine runs_bind (runs_nblocks_of_ok hdisk (runs_ite (fun h => ?_) fun _ => runs_pure hQ))
  exact absurd hdisk.size (not_le.mpr h)

theorem runs_assertInUse {n : Nat} (hdisk : v.DiskOk)
    (hn : n < v.firstData) (hQ : Q () v) : runs full (assertInUse n) Q E v := by
  have hlt := lt_of_lt_of_le hn hdisk.room
  have hacc := hdisk.bitmap_accessible hlt
  refine runs_bind (runs_bind (runs_nblocks_of_ok hdisk (runs_ite (fun h => by omega) fun _ => ?_)))
  refine runs_bind (runs_load32 (runs_pure ?_) fun _ h => absurd hacc h)
  rw [show (v.word (bitmapAddr n)).testBit (n % 32) = false from hdisk.reserved n hn]
  exact runs_pure hQ

theorem runs_checkBitmap (hdisk : v.DiskOk) (hQ : Q () v) :
    runs full checkBitmap Q E v := by
  have htwo := v.two_lt_firstData
  refine runs_bind (runs_nblocks_of_ok hdisk (runs_bind ?_))
  have hblocks : ∀ i ∈ List.range ((v.nblocks + 32767) / 32768), 2 + i < v.firstData := by
    intro i hi
    unfold firstData
    exact Nat.add_lt_add_left (List.mem_range.mp hi) 2
  generalize List.range ((v.nblocks + 32767) / 32768) = blocks at hblocks ⊢
  induction blocks with
  | nil =>
      refine runs_pure (runs_bind (runs_assertInUse hdisk (by omega) ?_))
      exact runs_assertInUse hdisk (by omega) hQ
  | cons i blocks ih =>
      refine runs_bind (runs_assertInUse hdisk (hblocks i List.mem_cons_self) ?_)
      exact ih fun i hi => hblocks i (List.mem_cons_of_mem _ hi)

theorem View.nameAt_iff {name : Name} :
    v.nameAt a name = true ↔ ∀ i ≤ name.length, v.mem (a + i) = name.getD i 0 := by
  induction name generalizing a with
  | nil => simp [View.nameAt]
  | cons c name ih =>
      rw [View.nameAt, Bool.and_eq_true, ih, decide_eq_true_eq]
      constructor
      · rintro ⟨hfirst, hrest⟩ i hi
        cases i with
        | zero => simpa using hfirst
        | succ i =>
            have h := hrest i (by simpa using hi)
            rwa [Nat.add_right_comm, Nat.add_assoc] at h
      · intro hall
        refine ⟨by simpa using hall 0 (Nat.zero_le _), fun i hi => ?_⟩
        have h := hall (i + 1) (by simpa using hi)
        rwa [← Nat.add_assoc, Nat.add_right_comm] at h

theorem loadNat_one (mem : Bytes) (a : Nat) : mem.loadNat a 1 = (mem a).toNat := rfl

theorem reads_strEq {name : Name} (hacc : ∀ i ≤ name.length, v.Accessible (a + i)) :
    reads (strEq a name) (v.nameAt a name) v := by
  induction name generalizing a with
  | nil =>
      refine reads_bind (reads_load (hacc 0 le_rfl)) ?_
      have hzero : (v.mem a).toNat = 0 ↔ v.mem a = 0 :=
        ⟨fun h => BitVec.eq_of_toNat_eq h, fun h => by rw [h]; rfl⟩
      rw [loadNat_one, decide_eq_decide.mpr hzero]
      exact reads_pure _ v
  | cons c name ih =>
      refine reads_bind (reads_load (hacc 0 (Nat.zero_le _))) ?_
      rw [loadNat_one, View.nameAt]
      split
      · next hsame =>
          rw [decide_eq_true (BitVec.eq_of_toNat_eq hsame), Bool.true_and]
          refine ih fun i hi => ?_
          have h := hacc (i + 1) (by simpa using hi)
          rwa [← Nat.add_assoc, Nat.add_right_comm] at h
      · next hdiff =>
          rw [decide_eq_false (fun h => hdiff (by rw [h])), Bool.false_and]
          exact reads_pure _ v

theorem reads_findEntry {test : Nat → FsM Bool} {t : Nat → Bool}
    (htest : ∀ e ∈ entriesFrom f left, reads (test e) (t e) v) :
    reads (findEntry test left f) ((entriesFrom f left).find? t) v := by
  induction left generalizing f with
  | zero => exact reads_pure _ v
  | succ left ih =>
      refine reads_bind (htest f List.mem_cons_self) ?_
      rw [entriesFrom, List.iterate, List.find?_cons]
      cases t f with
      | true => exact reads_pure _ v
      | false => exact ih fun e he => htest e (List.mem_cons_of_mem _ he)

theorem reads_findInDir {test : Nat → FsM Bool} {t : Nat → Bool} (hdisk : v.DiskOk)
    (hblock : ∀ j, i ≤ j → j < i + left → v.Present dir j)
    (htest : ∀ e ∈ v.entries dir i left, reads (test e) (t e) v) :
    reads (findInDir dir test left i) (.ok ((v.entries dir i left).find? t)) v := by
  induction left generalizing i with
  | zero => exact reads_pure _ v
  | succ left ih =>
      have hsplit : v.entries dir i (left + 1) =
          entriesFrom (blockAddr (v.ptr dir (.data i))) blkFiles ++ v.entries dir (i + 1) left := by
        unfold View.entries
        rw [List.range'_succ, List.flatMap_cons]
      rw [hsplit] at htest ⊢
      refine reads_bind (reads_fileGetBlock hdisk (hblock i le_rfl (by omega))) ?_
      refine reads_bind (reads_findEntry fun e he => htest e (List.mem_append_left _ he)) ?_
      rw [List.find?_append]
      cases (entriesFrom (blockAddr (v.ptr dir (.data i))) blkFiles).find? t with
      | some e => exact reads_pure _ v
      | none =>
          exact ih (fun j hle hlt => hblock j (by omega) (by omega))
            fun e he => htest e (List.mem_append_right _ he)

theorem mem_entriesFrom {e : Nat} (he : e ∈ entriesFrom f left) :
    ∃ j < left, e = f + 256 * j := by
  induction left generalizing f with
  | zero => cases he
  | succ left ih =>
      obtain rfl | he := List.mem_cons.mp he
      · exact ⟨0, by omega, by omega⟩
      · obtain ⟨j, hj, rfl⟩ := ih he
        exact ⟨j + 1, by omega, show f + 256 + 256 * j = f + 256 * (j + 1) by omega⟩

theorem View.mem_entries {e : Nat} (he : e ∈ v.entries dir 0 (v.dirBlocks dir)) :
    ∃ i j, i < v.dirBlocks dir ∧ j < 16 ∧ e = entryAddr (v.ptr dir (.data i)) j := by
  obtain ⟨i, hi, he⟩ := List.mem_flatMap.mp he
  have hi : i < v.dirBlocks dir := by
    rw [← List.range_eq_range'] at hi
    exact List.mem_range.mp hi
  obtain ⟨j, hj, rfl⟩ := mem_entriesFrom he
  exact ⟨i, j, hi, hj, rfl⟩

theorem View.WellFormed.dirBlocks_le (hwf : v.WellFormed) (hdir : v.Reach dir)
    (htype : v.IsDir dir) : v.dirBlocks dir ≤ v.nblocks := by
  -- the blocks of the directory are different blocks of the disk
  have hmaps : ∀ i ∈ Finset.range (v.dirBlocks dir),
      v.ptr dir (.data i) ∈ Finset.range v.nblocks := by
    intro i hi
    exact Finset.mem_range.mpr (hwf.valid_dirBlock hdir htype (Finset.mem_range.mp hi)).2.1
  have hinj : Set.InjOn (fun i => v.ptr dir (.data i)) (Finset.range (v.dirBlocks dir)) := by
    intro i hi i' hi' hsame
    have hi : i < v.dirBlocks dir := by simpa using hi
    have hi' : i' < v.dirBlocks dir := by simpa using hi'
    exact Index.data.inj (hwf.apart dir dir (.data i) (.data i') hdir hdir
      (hwf.index_lt hdir htype hi) (hwf.index_lt hdir htype hi')
      (hwf.dense dir i hdir htype hi) hsame).2
  simpa using Finset.card_le_card_of_injOn (fun i => v.ptr dir (.data i)) hmaps hinj

theorem View.WellFormed.dirsOk (hwf : v.WellFormed) : v.DirsOk where
  disk := hwf.disk
  dirSize := hwf.dirSize
  valid _ _ hdir htype hi := hwf.valid_dirBlock hdir htype hi
  indirect dir hdir htype hten := by
    refine hwf.valid dir .indirect hdir trivial fun hnone => ?_
    exact hwf.dense dir 10 hdir htype hten (ptr_data_of_none v dir le_rfl hnone)
  fits _ hdir htype := hwf.dirBlocks_le hdir htype

namespace View.DirsOk

theorem index_lt (hdirs : v.DirsOk) (hdir : v.Reach dir) (htype : v.IsDir dir)
    (hi : i < v.dirBlocks dir) : i < 1034 := by
  obtain ⟨hnonneg, hle, -⟩ := hdirs.dirSize dir hdir htype
  unfold View.dirBlocks at hi
  unfold maxFileSize at hle
  omega

theorem reach_accessible (hdirs : v.DirsOk) (hf : v.Reach f) (hlow : f ≤ a) (hhigh : a < f + 256) :
    v.Accessible a := by
  cases hf with
  | root =>
      refine hdirs.disk.super_accessible ?_ ?_
      all_goals
        unfold rootAddr superAddr blockAddr at *
        omega
  | entry hdir htype hi hj _ =>
      unfold entryAddr at hlow hhigh
      refine (hdirs.valid _ _ hdir htype hi).accessible (by omega) ?_
      rw [blockAddr_succ]
      omega

section

variable (hdirs : v.DirsOk) (hdir : v.Reach dir) (htype : v.IsDir dir)
include hdirs hdir htype

theorem entry_accessible {e x : Nat}
    (he : e ∈ v.entries dir 0 (v.dirBlocks dir)) (hlow : e ≤ x) (hhigh : x < e + 256) :
    v.Accessible x := by
  obtain ⟨i, j, hi, hj, rfl⟩ := mem_entries he
  unfold entryAddr at hlow hhigh
  refine (hdirs.valid _ _ hdir htype hi).accessible (by omega) ?_
  rw [blockAddr_succ]
  omega

theorem present (hi : i < v.dirBlocks dir) : v.Present dir i where
  lt := hdirs.index_lt hdir htype hi
  limit := hi.le.trans (hdirs.fits dir hdir htype)
  entry _ := hdirs.reach_accessible hdir
  valid := hdirs.valid dir i hdir htype hi
  indirect hten := hdirs.indirect dir hdir htype (by omega)

theorem reads_search {test : Nat → FsM Bool} {t : Nat → Bool}
    (htest : ∀ e, (∀ x, e ≤ x → x < e + 256 → v.Accessible x) → reads (test e) (t e) v) :
    reads (findInDir dir test (v.dirBlocks dir) 0)
      (.ok ((v.entries dir 0 (v.dirBlocks dir)).find? t)) v :=
  reads_findInDir hdirs.disk (fun _ _ hj => hdirs.present hdir htype (by omega))
    fun e he => htest e fun _ => hdirs.entry_accessible hdir htype he

theorem reads_dirBlocks : reads (Fs.dirBlocks dir) (v.dirBlocks dir) v := by
  obtain ⟨hnonneg, hle, hmod⟩ := hdirs.dirSize dir hdir htype
  have hacc : v.Accessible (sizeAddr dir) := hdirs.reach_accessible hdir
    (by unfold sizeAddr; omega) (by unfold sizeAddr; omega)
  have hwhole : Int.tmod (v.fileSize dir) 4096 = 0 := by
    rw [Int.tmod_eq_emod_of_nonneg hnonneg]
    exact hmod
  have hcount : uint32 (Int.tdiv (v.fileSize dir) 4096) = v.dirBlocks dir := by
    unfold View.dirBlocks maxFileSize uint32 at *
    rw [Int.tdiv_eq_ediv_of_nonneg hnonneg]
    omega
  refine reads_bind (reads_loadInt hacc) ?_
  change reads (if Int.tmod (v.fileSize dir) 4096 ≠ 0 then _ else
    pure (uint32 (Int.tdiv (v.fileSize dir) 4096))) _ v
  rw [hcount, if_neg (not_not.mpr hwhole)]
  exact reads_pure _ v

theorem reads_dirLookup {name : Name} (hname : name.length < 256) :
    reads (dirLookup dir name) ((v.lookup dir name).elim (.error (-eNotFound)) .ok) v := by
  have hsearch : reads (findInDir dir (fun e => strEq e name) (v.dirBlocks dir) 0)
      (.ok (v.lookup dir name)) v :=
    hdirs.reads_search hdir htype fun e hacc =>
      reads_strEq fun i hi => hacc _ (by omega) (by omega)
  refine reads_bind (hdirs.reads_dirBlocks hdir htype) (reads_bind hsearch ?_)
  cases v.lookup dir name with
  | some e => exact reads_pure _ v
  | none => exact reads_pure _ v

end

end View.DirsOk

end Fs

end ZynexOS
