import ZynexOS.Fs.Proof.GetBlock

/-! # Files of a well-formed file system -/

namespace ZynexOS

open Library

namespace Fs

namespace View

variable {v v' : View} {f : Nat}

theorem blockOf_entryAddr (n : Nat) {j : Nat} (hj : j < 16) : blockOf (entryAddr n j) = n := by
  unfold blockOf entryAddr blockAddr
  omega

theorem blockOf_rootAddr : blockOf rootAddr = 1 := rfl

theorem WellFormed.index_lt (hwf : v.WellFormed) {dir i : Nat} (hdir : v.Reach dir)
    (htype : v.IsDir dir) (hi : i < v.dirBlocks dir) : i < 1034 := by
  obtain ⟨hnonneg, hle, -⟩ := hwf.dirSize dir hdir htype
  unfold dirBlocks at hi
  unfold maxFileSize at hle
  omega

theorem WellFormed.valid_dirBlock (hwf : v.WellFormed) {dir i : Nat} (hdir : v.Reach dir)
    (htype : v.IsDir dir) (hi : i < v.dirBlocks dir) : v.Valid (v.ptr dir (.data i)) :=
  hwf.valid dir (.data i) hdir (hwf.index_lt hdir htype hi) (hwf.dense dir i hdir htype hi)

theorem WellFormed.away (hwf : v.WellFormed) (hreach : v.Reach f) {idx : Index} (hidx : idx.InRange)
    (hptr : v.ptr f idx ≠ 0) : v.ptr f idx ≠ blockOf f := by
  induction hreach generalizing idx with
  | root =>
      rw [blockOf_rootAddr]
      have hfirst := (hwf.valid rootAddr idx .root hidx hptr).1
      have htwo := v.two_lt_firstData
      omega
  | @entry dir i j hdir htype hi hj hname ih =>
      rw [blockOf_entryAddr _ hj]
      intro hsame
      have hlt := hwf.index_lt hdir htype hi
      -- the block that holds the entry would be one of the entry, so the directory lies in it
      obtain ⟨heq, -⟩ := hwf.apart _ dir idx (.data i) (.entry hdir htype hi hj hname) hdir hidx hlt
        hptr hsame
      have hown : v.ptr dir (.data i) ≠ blockOf dir := ih hlt (hwf.dense dir i hdir htype hi)
      refine hown ?_
      rw [← heq, blockOf_entryAddr _ hj, heq]

theorem WellFormed.fileOk (hwf : v.WellFormed) (hreach : v.Reach f) : v.FileOk f where
  disk := hwf.disk
  low := by
    cases hreach with
    | root =>
        rw [blockOf_rootAddr]
        unfold rootAddr superAddr
        omega
    | entry _ _ _ hj _ =>
        rw [blockOf_entryAddr _ hj]
        unfold entryAddr
        omega
  high := by
    cases hreach with
    | root =>
        rw [blockOf_rootAddr]
        unfold rootAddr superAddr blockAddr
        omega
    | entry _ _ _ hj _ =>
        rw [blockOf_entryAddr _ hj, blockAddr_succ]
        unfold entryAddr
        omega
  home := by
    cases hreach with
    | root => exact .inl rfl
    | entry hdir htype hi hj _ =>
        rw [blockOf_entryAddr _ hj]
        exact .inr (hwf.valid_dirBlock hdir htype hi)
  valid idx := hwf.valid f idx hreach
  apart idx idx' hidx hidx' hptr hsame :=
    (hwf.apart f f idx idx' hreach hreach hidx hidx' hptr hsame).2
  away _ := hwf.away hreach

/-- `[a, a + n)` is not in the superblock's fields, the bitmap, the block pointers in the entry of `f`
or its indirect block. -/
structure Misses (v : View) (f a n : Nat) : Prop where
  clear : v.Clear a n
  entry : a + n ≤ f + 136 ∨ f + 180 ≤ a
  indirect : v.ptr f .indirect ≠ 0 →
    a + n ≤ blockAddr (v.ptr f .indirect) ∨ blockAddr (v.ptr f .indirect + 1) ≤ a

structure SameFile (v v' : View) (f : Nat) : Prop extends SameDisk v v' where
  ptr : ∀ idx, idx.InRange → v'.ptr f idx = v.ptr f idx

theorem SameFile.valid (hsame : SameFile v v' f) {n : Nat} (hvalid : v.Valid n) : v'.Valid n :=
  ⟨hsame.firstData ▸ hvalid.1, hsame.nblocks ▸ hvalid.2.1,
    (hsame.freeBit n hvalid.2.1).trans hvalid.2.2⟩

theorem Misses.sameFile {a n : Nat} (hmiss : v.Misses f a n)
    (hmem : ∀ x, x < a ∨ a + n ≤ x → v'.mem x = v.mem x) : SameFile v v' f := by
  have hdisk : SameDisk v v' := sameDisk_of_mem fun x hx => hmem x (hmiss.clear.not_mem hx)
  have hentry := hmiss.entry
  have hind : v'.ptr f .indirect = v.ptr f .indirect := by
    refine word_congr fun x hle hlt => hmem x ?_
    unfold indirectAddr at hle hlt
    omega
  refine ⟨hdisk, ?_⟩
  intro idx hidx
  cases idx with
  | indirect => exact hind
  | data i =>
      refine ptr_data_congr hind fun hexists => word_congr fun x hle hlt => hmem x ?_
      by_cases hdirect : i < 10
      · rw [slotAddr, if_pos hdirect] at hle hlt
        unfold directAddr at hle hlt
        omega
      · have hmem' := v.slotAddr_mem_block f (by omega) hidx
        have hblock := hmiss.indirect (hexists (by omega))
        omega

theorem Misses.put {a : Nat} (hmiss : v.Misses f a 4) (access : Access) (val : Nat) :
    SameFile v (v.put access a val) f :=
  hmiss.sameFile fun _ hx => mem_put_of_not_mem v access val hx

theorem Misses.copy {dst n : Nat} (hmiss : v.Misses f dst n) (src : Nat) :
    SameFile v (v.copy dst src n) f :=
  hmiss.sameFile fun _ hx => mem_copy_of_not_mem v hx

theorem FileOk.entry_lt (hok : v.FileOk f) : f + 256 ≤ 0xD0000000 := by
  have hhigh := hok.high
  have hsize := hok.disk.size
  obtain hroot | hvalid := hok.home
  · subst hroot
    unfold rootAddr superAddr blockAddr
    omega
  · have hlt := hvalid.2.1
    unfold blockAddr at hhigh
    linarith

theorem FileOk.misses_data (hok : v.FileOk f) {i a n : Nat} (hi : i < 1034)
    (hptr : v.ptr f (.data i) ≠ 0) (hlow : blockAddr (v.ptr f (.data i)) ≤ a)
    (hhigh : a + n ≤ blockAddr (v.ptr f (.data i) + 1)) : v.Misses f a n where
  clear := by
    refine (hok.valid (.data i) hi hptr).clear.mono hlow ?_
    rwa [← blockAddr_succ]
  entry := by
    have hdisj := hok.entry_disjoint (hok.away (.data i) hi hptr)
    omega
  indirect hind := by
    have hne : v.ptr f .indirect ≠ v.ptr f (.data i) := by
      intro heq
      cases hok.apart .indirect (.data i) trivial hi hind heq
    unfold blockAddr at *
    omega

theorem FileOk.misses_size (hok : v.FileOk f) : v.Misses f (sizeAddr f) 4 where
  clear := by
    unfold sizeAddr
    exact hok.entry_clear.mono (by omega) (by omega)
  entry := by
    unfold sizeAddr
    omega
  indirect hptr := by
    have hdisj := hok.entry_disjoint (hok.away .indirect trivial hptr)
    unfold sizeAddr
    omega

end View

end Fs

end ZynexOS
