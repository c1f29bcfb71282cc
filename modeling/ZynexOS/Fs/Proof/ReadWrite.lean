import ZynexOS.Fs.Proof.Contents
import ZynexOS.Fs.Proof.Resolve

/-!
# Read after write

The loop invariants say what is known about every byte below the position.
-/

namespace ZynexOS

open Library

namespace Fs

open View

variable {full : Prop} {E : View → Prop} {v v' : View} {f buf count offset fin p : Nat}

def lastBlock (fin : Nat) : Nat := min 1034 ((fin + 4095) / 4096)

theorem lastBlock_le (fin : Nat) : lastBlock fin ≤ 1034 := min_le_left _ _

theorem slots_subset_range (hle : offset ≤ p) (hlt : p < fin) (hi : p / 4096 < 1034) :
    slots (p / 4096) (p / 4096 + 1) ⊆ slots (offset / 4096) (lastBlock fin) := by
  refine Fs.slots_subset ?_ ?_
  · omega
  · unfold lastBlock
    omega

theorem View.Got.range {blk : Nat} (hgot : v.Got f (p / 4096) blk) (fin : Nat) :
    blockAddr (v.ptr f (.data (p / 4096))) ≤ blk + p % 4096 ∧
      blk + p % 4096 + chunkLen p fin ≤ blockAddr (v.ptr f (.data (p / 4096)) + 1) := by
  have hlen := chunkLen_le p fin
  rw [hgot.blk, blockAddr_succ]
  omega

theorem View.Got.accessible {blk x : Nat} (hgot : v.Got f (p / 4096) blk) (hlow : blk + p % 4096 ≤ x)
    (hhigh : x < blk + p % 4096 + chunkLen p fin) : v.Accessible x := by
  have hrange := hgot.range fin
  exact (hgot.ok.valid (.data (p / 4096)) hgot.lt hgot.ptr).accessible (by omega) (by omega)

theorem OutsideCache.outside {n x : Nat} (hbuf : OutsideCache buf n) (hlow : buf ≤ x)
    (hhigh : x < buf + n) : x < blockAddr 0 ∨ 0xD0000000 ≤ x := by
  have hplace := hbuf.1
  unfold fileVa at hplace
  omega

theorem View.Gets.error_neg {i : Nat} {r : Int} (hget : v.Gets f i (.error r) v')
    (hok : v.FileOk f) : r < 0 := by
  cases hget.failed (J := fun _ => True) (fun _ _ _ _ _ _ _ _ _ _ => trivial) hok trivial with
  | invalid _ => decide
  | full _ _ _ _ _ _ _ _ => decide

/-! ### The loop of `file_write` -/

structure Writing (v : View) (f buf offset fin p : Nat) (v' : View) : Prop where
  kept : Kept v v' f (· ∈ slots (offset / 4096) (lastBlock fin)) fun q => offset ≤ q ∧ q < p
  size : v'.fileSize f = v.fileSize f
  outside : ∀ x, x < blockAddr 0 ∨ 0xD0000000 ≤ x → v'.mem x = v.mem x
  written : ∀ q, offset ≤ q → q < p → v'.HasByte f q ∧ v'.byte f q = v.mem (buf + (q - offset))
  le : p ≤ fin

namespace Writing

variable (hwrite : Writing v f buf offset fin p v') (hfin : fin ≤ maxFileSize) (hf : v.Reach f)

include hwrite hfin hf

theorem grow {idx : Index} {n : Nat} (hidx : idx ∈ slots (offset / 4096) (lastBlock fin))
    (hptr : v'.ptr f idx = 0) (hslot : v'.HasSlot f idx) (hfree : v'.LowestFree n) :
    Writing v f buf offset fin p (v'.withPtr f idx n) := by
  have hrange := inRange_of_mem_slots (lastBlock_le fin) hidx
  have hwf := hwrite.kept.only.wellFormed
  have hf' := hwrite.kept.only.shape.reach hf
  have hok := hwf.fileOk hf'
  have hgrow := Kept.grow hwf hf' hrange hptr hslot hfree fun _ => False
  have hle := hwrite.le
  unfold maxFileSize at hfin
  refine ⟨hwrite.kept.trans (hgrow.mono (fun _ h => h ▸ hidx) (by nofun)), ?_, fun x hx => ?_, ?_, hle⟩
  · exact (hok.fileSize_withPtr hrange hslot hfree).trans hwrite.size
  · exact (mem_withPtr_outside hok hrange hslot hfree hx).trans (hwrite.outside x hx)
  · intro q hlow hhigh
    obtain ⟨hhas, hbyte⟩ := hwrite.written q hlow hhigh
    have hq : q / 4096 < 1034 := by omega
    exact ⟨hgrow.hasByte hq hhas, (hgrow.own q hq hhas not_false).trans hbyte⟩

theorem copy {n : Nat} (htype : ¬v.IsDir f) (hge : offset ≤ p) (hp : p / 4096 < 1034)
    (hhas : v'.HasByte f p) (hn : p % 4096 + n ≤ 4096) (hend : p + n ≤ fin)
    (hbuf : OutsideCache buf (fin - offset)) :
    Writing v f buf offset fin (p + n) (v'.copy (v'.byteAddr f p) (buf + (p - offset)) n) := by
  have hwf := hwrite.kept.only.wellFormed
  have hf' := hwrite.kept.only.shape.reach hf
  have hok := hwf.fileOk hf'
  have hidx : (Index.data (p / 4096)).InRange := hp
  have htype' : ¬v'.IsDir f := fun h => htype ((hwrite.kept.only.shape.isDir_iff hf.toEntry).mp h)
  have hcopy := Kept.copy_data (buf + (p - offset)) hwf hf' htype' hp hhas hn
    (· ∈ slots (offset / 4096) (lastBlock fin))
  have hdst := v'.byteAddr_range f hn
  have hfirst := (inData_byteAddr hf' hp hhas).inCache hwf
  have hlast := (hwf.valid f _ hf' hidx hhas).2.1
  have hsize := hwf.disk.size
  unfold maxFileSize at hfin
  refine ⟨?_, ?_, fun x hx => ?_, fun q hlow hhigh => ?_, hend⟩
  · refine (hwrite.kept.mono (fun _ => id) fun q hq => ?_).trans (hcopy.mono (fun _ => id) fun q hq => ?_)
    · exact ⟨hq.1, by omega⟩
    · exact ⟨by omega, hq.2⟩
  · exact (hok.fileSize_copy hidx hhas hdst.1 hdst.2 _).trans hwrite.size
  · refine (mem_copy_of_not_mem v' ?_).trans (hwrite.outside x hx)
    unfold blockAddr at *
    omega
  · by_cases hold : q < p
    · obtain ⟨hhas', hbyte⟩ := hwrite.written q hlow hold
      have hq : q / 4096 < 1034 := by omega
      exact ⟨hcopy.hasByte hq hhas', (hcopy.own q hq hhas' (by omega)).trans hbyte⟩
    · obtain ⟨i, rfl⟩ : ∃ i, q = p + i := ⟨q - p, by omega⟩
      have hblock : (p + i) / 4096 = p / 4096 := by omega
      have hptr := hcopy.ptr (.data (p / 4096)) hidx hhas
      constructor
      · unfold HasByte
        rw [hblock, hptr]
        exact hhas
      · rw [← hblock] at hptr
        unfold byte
        rw [byteAddr_congr hptr, v'.byteAddr_add f (by omega),
          show buf + (p + i - offset) = buf + (p - offset) + i by omega]
        refine (Bytes.move_apply_add (by omega)).trans (hwrite.outside _ ?_)
        exact hbuf.outside (by omega) (by omega)

end Writing

theorem runs_writeLoop_bytes (hwf : v.WellFormed) (hf : v.Reach f) (htype : ¬v.IsDir f)
    (hle : offset ≤ fin) (hfin : fin ≤ maxFileSize) (hbuf : OutsideCache buf (fin - offset)) :
    runs full (writeLoop f fin fileFuel offset buf)
      (fun r v' => r < 0 ∨ r = 0 ∧ Writing v f buf offset fin fin v') E v := by
  have hsmall := hfin
  unfold maxFileSize at hsmall
  have hok : ∀ p v', Writing v f buf offset fin p v' → v'.FileOk f := fun p v' hwrite =>
    hwrite.kept.only.wellFormed.fileOk (hwrite.kept.only.shape.reach hf)
  rw [writeLoop_eq]
  refine runs_copyLoop (I := Writing v f buf offset fin) (by omega) hok ?_ ?_ ?_ ?_ (by omega) ?_
    (Nat.le_add_left _ _)
  · exact fun p v' r v'' _ _ hwrite hget => .inl (hget.error_neg (hok p v' hwrite))
  · intro p v' blk v'' hge hlt hwrite hget
    have hlen := chunkLen_le p fin
    have hleft := chunkLen_le_left p fin
    obtain ⟨hwrite, hgot⟩ := hget.keeps (J := Writing v f buf offset fin p)
      (fun hi w idx n hidx _ hwrite =>
        hwrite.grow hfin hf (slots_subset_range hge hlt hi hidx)) (hok p v' hwrite) hwrite
    have hsrc : ∀ x, buf + (p - offset) ≤ x → x < buf + (p - offset) + chunkLen p fin →
        v''.Accessible x := fun x hlow hhigh => hbuf.accessible (by omega) (by omega)
    refine runs_memmove ?_ (fun _ h => absurd hsrc h) fun _ h => absurd (fun x => hgot.accessible) h
    rw [hgot.blk]
    exact hwrite.copy hfin hf htype hge hgot.lt hgot.ptr (by omega) (by omega) hbuf
  · intro p v' hge hwrite
    obtain rfl := le_antisymm hwrite.le hge
    exact .inr ⟨rfl, hwrite⟩
  · exact ⟨.refl hwf f _ _, rfl, fun _ _ => rfl, fun q hlow hhigh => by omega, hle⟩
  · have hwrap := hbuf.2
    unfold maxFileSize at hwrap
    omega

/-! ### `file_write` -/

theorem runs_storeSize {size : Nat} {Q : Int → View → Prop} (hok : v.FileOk f)
    (hQ : Q 0 (v.put (.store (sizeAddr f) 4) (sizeAddr f) size)) :
    runs full (do
      store32 (sizeAddr f) size
      flushBlock f
      pure (0 : Int)) Q E v := by
  refine runs_bind (runs_store32 ?_ fun _ h => absurd hok.size_accessible h)
  exact runs_bind (runs_flushBlock (runs_pure hQ) fun h => absurd hok.entry_inCache h)

theorem runs_fileSetSize_of_le {size : Nat} {Q : Int → View → Prop} (hok : v.FileOk f)
    (hle : v.fileSize f ≤ size) (hsize : size < 0x80000000)
    (hQ : Q 0 (v.put (.store (sizeAddr f) 4) (sizeAddr f) size)) :
    runs full (fileSetSize f size) Q E v := by
  refine runs_bind (runs_loadInt ?_ fun _ h => absurd hok.size_accessible h)
  have hnot : ¬(size : Int) < int32 (v.word (sizeAddr f)) := not_lt.mpr hle
  dsimp only
  rw [if_neg hnot, uint32_of_lt (by omega)]
  exact runs_storeSize hok hQ

theorem runs_extend (hwf : v.WellFormed) (hf : v.Reach f) (htype : ¬v.IsDir f)
    (hnonneg : 0 ≤ v.fileSize f) (hfin : fin ≤ maxFileSize) :
    runs full (extend f fin) (fun r v' => r = 0 ∧ v'.fileSize f = max (v.fileSize f) fin ∧
      (∀ grows writes, Kept v v' f grows writes) ∧
      ∀ x, x < blockAddr 0 ∨ 0xD0000000 ≤ x → v'.mem x = v.mem x) E v := by
  have hok := hwf.fileOk hf
  have hacc := hok.size_accessible
  have hrange : v.fileSize f < 0x80000000 := by
    unfold View.fileSize int32
    omega
  unfold maxFileSize at hfin
  refine runs_bind (runs_loadInt ?_ fun _ h => absurd hacc h)
  change runs full (if uint64 (v.fileSize f) < fin then _ else _) _ E v
  refine runs_ite (fun hlt => ?_) fun hnot => runs_pure ⟨rfl, ?_, ?_, fun _ _ => rfl⟩
  · rw [int32_natCast (by omega)]
    refine runs_fileSetSize_of_le hok ?_ (by omega) ⟨rfl, ?_, ?_, ?_⟩
    · unfold uint64 at hlt
      omega
    · have hword : (v.put (.store (sizeAddr f) 4) (sizeAddr f) fin).word (sizeAddr f) = fin :=
        word_put_self _ _ _ (by omega)
      unfold fileSize uint64 at *
      rw [hword, int32_natCast (by omega)]
      omega
    · exact fun grows writes => .resize hwf hf htype _ _ grows writes
    · intro x hx
      have hlow := hok.low
      have hhigh := hok.entry_lt
      refine mem_put_of_not_mem v _ _ ?_
      unfold sizeAddr
      unfold blockAddr at *
      omega
  · unfold uint64 at hnot
    omega
  · exact fun grows writes => .refl hwf f grows writes

theorem runs_fileWrite (hwf : v.WellFormed) (hf : v.Reach f) (htype : ¬v.IsDir f)
    (hnonneg : 0 ≤ v.fileSize f) (hfin : offset + count ≤ maxFileSize)
    (hbuf : OutsideCache buf count) :
    runs full (fileWrite f buf count offset) (fun r v' => r < 0 ∨ r = count ∧
      v'.fileSize f = max (v.fileSize f) (offset + count : Nat) ∧
      Kept v v' f (· ∈ slots (offset / 4096) (lastBlock (offset + count)))
        (fun q => offset ≤ q ∧ q < offset + count) ∧
      ∀ i < count, v'.HasByte f (offset + i) ∧ v'.byte f (offset + i) = v.mem (buf + i)) E v := by
  have hsmall := hfin
  unfold maxFileSize at hsmall
  unfold fileWrite
  rw [← Int.natCast_add, uint64_natCast (by omega), int32_natCast (by omega)]
  refine runs_bind_of (runs_extend hwf hf htype hnonneg hfin) ?_
  rintro r v₁ ⟨rfl, hsize, hkept, houtside⟩
  refine runs_ite (fun h => absurd h (lt_irrefl 0)) fun _ => ?_
  have hkept := hkept (· ∈ slots (offset / 4096) (lastBlock (offset + count)))
    fun q => offset ≤ q ∧ q < offset + count
  have hshape := hkept.only.shape
  refine runs_bind_of (runs_writeLoop_bytes hkept.only.wellFormed (hshape.reach hf)
    (fun h => htype ((hshape.isDir_iff hf.toEntry).mp h)) (Nat.le_add_right _ _) hfin
    ((Nat.add_sub_cancel_left (n := offset) (m := count)).symm ▸ hbuf)) ?_
  rintro r v₂ (hneg | ⟨rfl, hwrite⟩)
  · exact runs_ite (fun _ => runs_pure (.inl hneg)) fun h => absurd hneg h
  · refine runs_ite (fun h => absurd h (lt_irrefl 0)) fun _ => runs_pure (.inr ⟨rfl, ?_⟩)
    refine ⟨hwrite.size.trans hsize, hkept.trans hwrite.kept, fun i hi => ?_⟩
    obtain ⟨hhas, hbyte⟩ := hwrite.written (offset + i) (by omega) (by omega)
    rw [Nat.add_sub_cancel_left] at hbyte
    exact ⟨hhas, hbyte.trans (houtside _ (hbuf.outside (by omega) (by omega)))⟩

/-! ### The loop of `file_read` -/

structure Reading (v : View) (f buf offset fin p : Nat) (v' : View) : Prop where
  kept : Kept v v' f (· ∈ slots (offset / 4096) (lastBlock fin)) fun _ => False
  delivered : ∀ q, offset ≤ q → q < p → v.HasByte f q → v'.mem (buf + (q - offset)) = v.byte f q
  le : p ≤ fin

namespace Reading

variable (hread : Reading v f buf offset fin p v') (hbuf : OutsideCache buf (fin - offset))
  (hf : v.Reach f)

include hread hbuf hf

theorem grow {idx : Index} {n : Nat} (hidx : idx ∈ slots (offset / 4096) (lastBlock fin))
    (hptr : v'.ptr f idx = 0) (hslot : v'.HasSlot f idx) (hfree : v'.LowestFree n) :
    Reading v f buf offset fin p (v'.withPtr f idx n) := by
  have hrange := inRange_of_mem_slots (lastBlock_le fin) hidx
  have hwf := hread.kept.only.wellFormed
  have hf' := hread.kept.only.shape.reach hf
  have hle := hread.le
  have hgrow := Kept.grow hwf hf' hrange hptr hslot hfree fun _ => False
  refine ⟨hread.kept.trans (hgrow.mono (fun _ h => h ▸ hidx) fun _ => id), ?_, hle⟩
  intro q hlow hhigh hhas
  have hout := hbuf.outside (x := buf + (q - offset)) (by omega) (by omega)
  exact (mem_withPtr_outside (hwf.fileOk hf') hrange hslot hfree hout).trans
    (hread.delivered q hlow hhigh hhas)

theorem copy {n : Nat} (hge : offset ≤ p) (hp : p / 4096 < 1034) (hn : p % 4096 + n ≤ 4096)
    (hend : p + n ≤ fin) :
    Reading v f buf offset fin (p + n) (v'.copy (buf + (p - offset)) (v'.byteAddr f p) n) := by
  have hwf := hread.kept.only.wellFormed
  have hf' := hread.kept.only.shape.reach hf
  have hplace := hbuf.1
  refine ⟨hread.kept.trans (.copy_outside hwf hf' ?_ _ _), fun q hlow hhigh hhas => ?_, hend⟩
  · omega
  · by_cases hold : q < p
    · exact (mem_copy_of_not_mem v' (.inl (by omega))).trans (hread.delivered q hlow hold hhas)
    · obtain ⟨i, rfl⟩ : ∃ i, q = p + i := ⟨q - p, by omega⟩
      have hq : (p + i) / 4096 < 1034 := by omega
      rw [← hread.kept.own _ hq hhas not_false, show buf + (p + i - offset)
        = buf + (p - offset) + i by omega]
      refine (Bytes.move_apply_add (by omega)).trans ?_
      rw [← v'.byteAddr_add f (by omega)]
      rfl

end Reading

theorem runs_readLoop_bytes (hwf : v.WellFormed) (hf : v.Reach f) (hle : offset ≤ fin)
    (hfin : fin ≤ maxFileSize) (hbuf : OutsideCache buf (fin - offset)) :
    runs full (readLoop f fin fileFuel offset buf)
      (fun r v' => r < 0 ∨ r = 0 ∧ Reading v f buf offset fin fin v') E v := by
  have hsmall := hfin
  unfold maxFileSize at hsmall
  have hok : ∀ p v', Reading v f buf offset fin p v' → v'.FileOk f := fun p v' hread =>
    hread.kept.only.wellFormed.fileOk (hread.kept.only.shape.reach hf)
  rw [readLoop_eq]
  refine runs_copyLoop (I := Reading v f buf offset fin) (by omega) hok ?_ ?_ ?_ ?_ (by omega) ?_
    (Nat.le_add_left _ _)
  · exact fun p v' r v'' _ _ hread hget => .inl (hget.error_neg (hok p v' hread))
  · intro p v' blk v'' hge hlt hread hget
    have hlen := chunkLen_le p fin
    have hleft := chunkLen_le_left p fin
    obtain ⟨hread, hgot⟩ := hget.keeps (J := Reading v f buf offset fin p)
      (fun hi w idx n hidx _ hread =>
        hread.grow hbuf hf (slots_subset_range hge hlt hi hidx)) (hok p v' hread) hread
    have hdst : ∀ x, buf + (p - offset) ≤ x → x < buf + (p - offset) + chunkLen p fin →
        v''.Accessible x := fun x hlow hhigh => hbuf.accessible (by omega) (by omega)
    refine runs_memmove ?_ (fun _ h => absurd (fun x => hgot.accessible) h) fun _ h => absurd hdst h
    rw [hgot.blk]
    exact hread.copy hbuf hf hge hgot.lt (by omega) (by omega)
  · intro p v' hge hread
    obtain rfl := le_antisymm hread.le hge
    exact .inr ⟨rfl, hread⟩
  · exact ⟨.refl hwf f _ _, fun q hlow hhigh => by omega, hle⟩
  · have hwrap := hbuf.2
    unfold maxFileSize at hwrap
    omega

theorem runs_fileRead {size : Nat} (hwf : v.WellFormed) (hf : v.Reach f)
    (hsize : v.fileSize f = size) (hmax : size ≤ maxFileSize) (hlt : offset < size)
    (hbuf : OutsideCache buf (min count (size - offset))) :
    runs full (fileRead f buf count offset) (fun r v' => r < 0 ∨
      r = (min count (size - offset) : Nat) ∧ ∀ i < min count (size - offset),
        v.HasByte f (offset + i) → v'.mem (buf + i) = v.byte f (offset + i)) E v := by
  have hsmall := hmax
  unfold maxFileSize at hsmall
  refine runs_bind (runs_loadInt ?_ fun _ h => absurd (hwf.fileOk hf).size_accessible h)
  rw [show int32 (v.word (sizeAddr f)) = size from hsize]
  refine runs_ite (fun hle => by omega) fun _ => ?_
  dsimp only
  rw [readCount_natCast (by omega) hlt]
  generalize hcount : min count (size - offset) = n at hbuf ⊢
  rw [← Int.natCast_add, uint64_natCast (by omega), int32_natCast (by omega)]
  refine runs_bind_of (runs_readLoop_bytes hwf hf (Nat.le_add_right _ _)
    (show offset + n ≤ maxFileSize by unfold maxFileSize; omega)
    ((Nat.add_sub_cancel_left (n := offset) (m := n)).symm ▸ hbuf)) ?_
  rintro r v' (hneg | ⟨rfl, hread⟩)
  · exact runs_ite (fun _ => runs_pure (.inl hneg)) fun h => absurd hneg h
  · refine runs_ite (fun h => absurd h (lt_irrefl 0)) fun _ => runs_pure (.inr ⟨rfl, fun i hi hhas => ?_⟩)
    have hbyte := hread.delivered (offset + i) (by omega) (by omega) hhas
    rwa [Nat.add_sub_cancel_left] at hbyte

/-! ### Both -/

theorem View.SameOthers.trimmed (hothers : SameOthers v v' f) (htrim : v.Trimmed)
    (hsize : 0 ≤ v'.fileSize f) (htail : ∀ i < 1034, v'.blocks f ≤ i → v'.ptr f (.data i) = 0) :
    v'.Trimmed := by
  refine ⟨fun g hg => ?_, fun g i hg hi hle => ?_⟩
  · have hg := (hothers.reach g).mp hg
    by_cases heq : g = f
    · exact heq ▸ hsize
    · rw [hothers.size g hg heq]
      exact htrim.size g hg
  · have hg := (hothers.reach g).mp hg
    by_cases heq : g = f
    · subst heq
      exact htail i hi hle
    · unfold blocks at hle
      rw [hothers.size g hg heq] at hle
      rw [hothers.ptr g (.data i) hg heq hi]
      exact htrim.tail g i hg hi hle

namespace View.Kept

variable {grows : Index → Prop} {writes : Nat → Prop}

theorem sameOthers (hkept : Kept v v' f grows writes) : SameOthers v v' f where
  reach _ := hkept.only.shape.reach_iff
  size g hg hne := (hkept.only.others g hg.toEntry hne).fileSize
  ptr g idx hg hne hidx := (hkept.only.others g hg.toEntry hne).ptr idx hidx
  contents g i x hg hne hi hptr hblock hout := hkept.others g i x ⟨hg, hi, hptr, hblock⟩ hne hout

theorem trimmed (hkept : Kept v v' f grows writes) (htrim : v.Trimmed) (hf : v.Reach f)
    (hsize : v.fileSize f ≤ v'.fileSize f)
    (hgrows : ∀ i, i < 1034 → grows (.data i) → i < v'.blocks f) : v'.Trimmed := by
  have hnonneg := htrim.size f hf
  have hblocks : v.blocks f ≤ v'.blocks f := by
    unfold blocks
    omega
  refine hkept.sameOthers.trimmed htrim (by omega) fun i hi hle => ?_
  refine hkept.zero (.data i) hi (fun h => ?_) (htrim.tail f i hf hi (by omega))
  exact absurd (hgrows i hi h) (not_lt.mpr hle)

end View.Kept

/-- A write that returns `count` has written the bytes and nothing else, and a read that does not fail
delivers them. -/
theorem fileWrite_fileRead {fs fs₁ : Fs} (hwf : fs.toView.WellFormed) (htrim : fs.toView.Trimmed)
    (hf : fs.toView.Reach f) (htype : ¬fs.toView.IsDir f) (hmax : fs.toView.fileSize f ≤ maxFileSize)
    (hbuf : OutsideCache buf count) (hfin : offset + count ≤ maxFileSize)
    (hrun : fileWrite f buf count offset fs = .ok count fs₁) :
    Wrote fs.toView fs₁.toView f buf count offset ∧
    ∀ (buf' count' offset' size : Nat), fs₁.toView.fileSize f = size → offset' < size →
      OutsideCache buf' (min count' (size - offset')) →
      ∃ r fs₂, fileRead f buf' count' offset' fs₁ = .ok r fs₂ ∧ (0 ≤ r →
        r = (min count' (size - offset') : Nat) ∧
        Delivers fs.toView fs₂.toView f buf count offset buf' (min count' (size - offset')) offset') := by
  have hnonneg := htrim.size f hf
  have hpost := runs_of_ok (E := fun _ => True) (runs_fileWrite hwf hf htype hnonneg hfin hbuf) hrun
  obtain hneg | ⟨-, hsize, hkept, hwritten⟩ := hpost
  · omega
  unfold maxFileSize at hmax hfin
  have hbyte : ∀ p : Nat, (p : Int) < fs.toView.fileSize f → p < offset ∨ offset + count ≤ p →
      fs.toView.HasByte f p →
      fs₁.toView.HasByte f p ∧ fs₁.toView.byte f p = fs.toView.byte f p := by
    intro p hp hout hhas
    have hblock : p / 4096 < 1034 := by omega
    exact ⟨hkept.hasByte hblock hhas, hkept.own p hblock hhas (by omega)⟩
  refine ⟨⟨hkept.only.wellFormed, hkept.trimmed htrim hf (by omega) ?_, hsize, hwritten, hbyte,
    hkept.sameOthers⟩, ?_⟩
  · intro i hi hmem
    have hlt := (data_mem_slots.mp hmem).2
    unfold lastBlock at hlt
    unfold blocks
    omega
  · intro buf' count' offset' size hsize' hlt hbuf'
    obtain ⟨r, fs₂, hrun', hpost⟩ := exists_of_runs (runs_fileRead hkept.only.wellFormed
      (hkept.only.shape.reach hf) hsize' (by unfold maxFileSize; omega) hlt hbuf')
    refine ⟨r, fs₂, hrun', fun hr => ?_⟩
    obtain hneg | ⟨hr, hdelivered⟩ := hpost
    · omega
    refine ⟨hr, fun i hi hlow hhigh => ?_, fun i hi hsmall hout hhas => ?_⟩
    · obtain ⟨hhas, hbyte⟩ := hwritten (offset' + i - offset) (by omega)
      rw [show offset + (offset' + i - offset) = offset' + i by omega] at hhas hbyte
      exact (hdelivered i hi hhas).trans hbyte
    · obtain ⟨hhas', hbyte'⟩ := hbyte (offset' + i) (by omega) hout hhas
      exact (hdelivered i hi hhas').trans hbyte'

/-! ### A disk with one small file -/

theorem Image.trimmed {nblocks : Nat} {heap : Bytes} {files : List HostFile}
    (himage : Image nblocks heap files v.mem) (hunset : Image.Unset heap files) : v.Trimmed := by
  refine ⟨fun f hf => ?_, fun f i hf hi hle => ?_⟩
  · obtain rfl | ⟨j, hj, rfl⟩ := himage.reach_iff.mp hf
    · rw [himage.fileSize_root]
      exact Int.natCast_nonneg _
    · rw [himage.fileSize hj]
      exact Int.natCast_nonneg _
  · by_contra hptr
    exact absurd (himage.within_of_ptr hunset hf (show (Index.data i).InRange from hi) hptr)
      (not_lt.mpr hle)

theorem exists_disk {h : HostFile} (hok : (fsformat (fun _ => 0) 8 [h]).isOk = true)
    (hshort : h.name.length < maxNameLen) : ∃ fs : Fs, fs.toView.WellFormed ∧ fs.toView.Trimmed ∧
    Image 8 (fun _ => 0) [h] fs.toView.mem ∧ ∀ x < blockAddr 0, fs.mem x = 0 := by
  obtain ⟨s, hrun⟩ := exists_ok hok
  obtain ⟨hn, himage⟩ := image_of_fsformat hrun
  have hunset := Image.unset_of_zero (fun _ _ _ => rfl) himage.few
    fun h' hh' => List.mem_singleton.mp hh' ▸ hshort
  let mem : Bytes := fun x => if x < blockAddr 0 then 0 else s.mem x
  have himage' : Image 8 (fun _ => 0) [h] mem :=
    himage.congr hn fun x hlow _ => if_neg (not_lt.mpr hlow)
  refine ⟨{ s.mounted with mem := mem }, ?_, ?_, himage', fun x hx => if_pos hx⟩
  · exact Image.wellFormed hn himage' (by nofun) hunset
  · exact Image.trimmed himage' hunset

theorem exists_smallDisk : ∃ fs : Fs, fs.toView.WellFormed ∧ fs.toView.Trimmed ∧
    Image 8 (fun _ => 0) [smallFile] fs.toView.mem ∧ ∀ x < blockAddr 0, fs.mem x = 0 :=
  exists_disk (by decide +kernel) (by decide)

theorem runs_fileWrite_within (hok : v.FileOk f) (hi : offset / 4096 < 1034)
    (hlimit : offset / 4096 ≤ v.nblocks) (hhas : v.HasByte f offset) (hpos : 0 < count)
    (hn : offset % 4096 + count ≤ 4096) (hsize : ((offset + count : Nat) : Int) ≤ v.fileSize f)
    (hbuf : OutsideCache buf count) :
    runs full (fileWrite f buf count offset) (fun r v' => r = count ∧
      v' = v.copy (v.byteAddr f offset) buf count) E v := by
  have hrange : v.fileSize f < 0x80000000 := by
    unfold View.fileSize int32
    omega
  have hnot : ¬uint64 (v.fileSize f) < offset + count := by
    unfold uint64
    omega
  have hlen : chunkLen offset (offset + count) = count := by
    unfold chunkLen
    omega
  unfold fileWrite
  rw [← Int.natCast_add, uint64_natCast (by omega), int32_natCast (by omega)]
  refine runs_bind (runs_bind (runs_loadInt ?_ fun _ h => absurd hok.size_accessible h))
  change runs full (if uint64 (v.fileSize f) < offset + count then _ else _) _ E v
  rw [if_neg hnot]
  refine runs_pure (runs_ite (fun h => absurd h (lt_irrefl 0)) fun _ => runs_bind ?_)
  rw [writeLoop_eq]
  refine runs_copyLoop_step hok (by omega) (by omega) (by omega) (fun r v' hget => ?_) ?_
  · cases (hget.eq_of_present hi hlimit hhas).1
  · intro blk v' hget _
    obtain ⟨hblk, rfl⟩ := hget.eq_of_present hi hlimit hhas
    obtain rfl := Except.ok.inj hblk
    rw [hlen]
    have hdst := v'.byteAddr_range f hn
    have hvalid := hok.valid (.data (offset / 4096)) hi hhas
    refine runs_memmove ?_ (fun _ h => absurd (fun x => hbuf.accessible) h)
      fun _ h => absurd (fun x hlow hhigh => ?_) h
    · refine runs_copyLoop_done ?_ ?_
      · rw [uint64_natCast (by omega)]
      · exact runs_ite (fun h => absurd h (lt_irrefl 0)) fun _ => runs_pure ⟨rfl, rfl⟩
    · exact hvalid.accessible (hdst.1.trans hlow) (by unfold byteAddr at hdst; omega)

theorem exists_fileWrite_within {fs : Fs} (f count offset : Nat) (hwf : fs.toView.WellFormed)
    (hf : fs.toView.Reach f) (hhas : fs.toView.HasByte f offset)
    (hsize : ((offset + count : Nat) : Int) ≤ fs.toView.fileSize f) (hpos : 0 < count)
    (hn : offset + count ≤ 4096) :
    ∃ fs₁, fileWrite f 0x1000 count offset fs = .ok count fs₁ ∧
      fs₁.toView = fs.toView.copy (fs.toView.byteAddr f offset) 0x1000 count := by
  have hbuf : OutsideCache 0x1000 count := by
    refine ⟨.inl ?_, by decide⟩
    unfold blockAddr
    omega
  obtain ⟨r, fs₁, hrun, rfl, hview⟩ := exists_of_runs (runs_fileWrite_within (hwf.fileOk hf)
    (by omega) (by omega) hhas hpos (by omega) hsize hbuf)
  exact ⟨fs₁, hrun, hview⟩

theorem fileWrite_fileRead_smallDisk : ∃ fs fs₁ fs₂ : Fs, ∃ r : Int,
    fileWrite (Image.fileAddr [smallFile] 0) 0x1000 1 0 fs = .ok 1 fs₁ ∧
    Wrote fs.toView fs₁.toView (Image.fileAddr [smallFile] 0) 0x1000 1 0 ∧
    fileRead (Image.fileAddr [smallFile] 0) 0x2000 1 0 fs₁ = .ok r fs₂ ∧ (0 ≤ r →
      r = 1 ∧ Delivers fs.toView fs₂.toView (Image.fileAddr [smallFile] 0) 0x1000 1 0 0x2000 1 0) := by
  obtain ⟨fs, hwf, htrim, himage, -⟩ := exists_smallDisk
  have hf : fs.toView.Reach (Image.fileAddr [smallFile] 0) :=
    himage.reach_iff.mpr (.inr ⟨0, by decide, rfl⟩)
  have hsize : fs.toView.fileSize (Image.fileAddr [smallFile] 0) = 1 := himage.fileSize (by decide)
  have hhas : fs.toView.HasByte (Image.fileAddr [smallFile] 0) 0 := by
    unfold HasByte
    rw [himage.ptr_data (by decide) (by decide)]
    decide
  obtain ⟨fs₁, hrun, -⟩ := exists_fileWrite_within (Image.fileAddr [smallFile] 0) 1 0 hwf hf hhas
    (by rw [hsize]; decide) (by decide) (by decide)
  have hmain := fileWrite_fileRead hwf htrim hf (himage.isFile (by decide)) (by rw [hsize]; decide)
    ⟨.inl (by decide), by decide⟩ (by decide) hrun
  have hsize₁ : fs₁.toView.fileSize (Image.fileAddr [smallFile] 0) = (1 : Nat) := by
    rw [hmain.1.size, hsize]
    decide
  obtain ⟨r, fs₂, hread, hpost⟩ := hmain.2 0x2000 1 0 1 hsize₁ (by decide)
    ⟨.inl (by decide), by decide⟩
  exact ⟨fs, fs₁, fs₂, r, hrun, hmain.1, hread, hpost⟩

theorem View.word_copy_self (v : View) (dst src : Nat) : (v.copy dst src 4).word dst = v.word src :=
  Bytes.loadNat_shift fun _ hi => Bytes.move_apply_add hi

/-- The bytes of a directory are the sizes of its files. -/
theorem fileWrite_rootAddr_smallDisk : ∃ fs fs₁ : Fs, fs.toView.WellFormed ∧ fs.toView.Trimmed ∧
    fs.toView.Reach rootAddr ∧ fs.toView.fileSize rootAddr ≤ maxFileSize ∧ OutsideCache 0x1000 4 ∧
    fileWrite rootAddr 0x1000 4 128 fs = .ok 4 fs₁ ∧
    ∃ g, fs.toView.Reach g ∧ g ≠ rootAddr ∧ fs₁.toView.fileSize g ≠ fs.toView.fileSize g := by
  obtain ⟨fs, hwf, htrim, himage, hzero⟩ := exists_smallDisk
  have hsize : fs.toView.fileSize rootAddr = 4096 := himage.fileSize_root
  have hptr : fs.toView.ptr rootAddr (.data 0) = 4 := himage.ptr_root (by decide)
  have hhas : fs.toView.HasByte rootAddr 128 := by
    unfold HasByte
    rw [show 128 / 4096 = 0 from rfl, hptr]
    decide
  obtain ⟨fs₁, hrun, hview⟩ := exists_fileWrite_within rootAddr 4 128 hwf .root hhas
    (by rw [hsize]; decide) (by decide) (by decide)
  have hfile : fs.toView.fileSize (Image.fileAddr [smallFile] 0) = 1 := himage.fileSize (by decide)
  refine ⟨fs, fs₁, hwf, htrim, .root, by rw [hsize]; decide, ⟨.inl (by decide), by decide⟩, hrun,
    Image.fileAddr [smallFile] 0, himage.reach_iff.mpr (.inr ⟨0, by decide, rfl⟩), by decide, ?_⟩
  have hdst : fs.toView.byteAddr rootAddr 128 = sizeAddr (Image.fileAddr [smallFile] 0) := by
    unfold byteAddr
    rw [show 128 / 4096 = 0 from rfl, hptr]
    decide
  have hword : fs₁.toView.word (sizeAddr (Image.fileAddr [smallFile] 0)) = 0 := by
    rw [hview, hdst, word_copy_self]
    refine Bytes.loadNat_eq_zero fun x hle hlt => hzero x ?_
    unfold blockAddr
    omega
  rw [hfile]
  unfold fileSize
  rw [hword]
  decide

end Fs

end ZynexOS
