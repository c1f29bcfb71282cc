import ZynexOS.Fs.Contents
import ZynexOS.Fs.Proof.CopyLoop
import ZynexOS.Fs.Proof.Keep
import ZynexOS.Fs.Proof.Reads

/-! # What changes leave alone -/

namespace ZynexOS

open Library

namespace Fs

namespace View

variable {v v' : View} {f g i n x : Nat} {idx : Index}

theorem SameShape.refl (v : View) : SameShape v v :=
  ⟨fun _ _ => rfl, fun _ _ => rfl, fun _ _ _ => rfl, fun _ _ _ _ _ => rfl⟩

theorem SameShape.trans {w : View} (h : SameShape v v') (h' : SameShape v' w) :
    SameShape v w where
  name e he := (h'.name e (h.entry_iff.mpr he)).trans (h.name e he)
  type e he := (h'.type e (h.entry_iff.mpr he)).trans (h.type e he)
  size dir hdir htype :=
    (h'.size dir (h.reach hdir) ((h.isDir_iff hdir.toEntry).mpr htype)).trans (h.size dir hdir htype)
  ptr dir i hdir htype hi := by
    have htype' := (h.isDir_iff hdir.toEntry).mpr htype
    have hi' : i < v'.dirBlocks dir := (h.dirBlocks hdir htype).symm ▸ hi
    exact (h'.ptr dir i (h.reach hdir) htype' hi').trans (h.ptr dir i hdir htype hi)

theorem OnlyFile.refl (hwf : v.WellFormed) (f : Nat) : OnlyFile v v f :=
  ⟨hwf, .refl v, fun _ _ _ => ⟨rfl, rfl, rfl, fun _ _ => rfl⟩⟩

theorem SameEntry.trans {w : View} {e : Nat} (h : SameEntry v v' e) (h' : SameEntry v' w e) :
    SameEntry v w e :=
  ⟨h'.name.trans h.name, h'.size.trans h.size, h'.type.trans h.type,
    fun idx hidx => (h'.ptr idx hidx).trans (h.ptr idx hidx)⟩

theorem OnlyFile.trans {w : View} (h : OnlyFile v v' f) (h' : OnlyFile v' w f) :
    OnlyFile v w f where
  wellFormed := h'.wellFormed
  shape := h.shape.trans h'.shape
  others e he hne := (h.others e he hne).trans (h'.others e (h.shape.entry_iff.mpr he) hne)

theorem FileOk.entry_inCache (hok : v.FileOk f) : inCache f = true := by
  have hlow := hok.low
  have hlt := hok.entry_lt
  unfold Fs.inCache
  unfold blockAddr at hlow
  simp only [decide_eq_true_eq]
  omega

theorem FileOk.size_accessible (hok : v.FileOk f) : v.Accessible (sizeAddr f) := by
  refine hok.entry_accessible ?_ ?_
  all_goals
    unfold sizeAddr
    omega

theorem Accessible.freed {a : Nat} (hacc : v.Accessible a)
    (hne : blockOf a ≠ n) : (v.freed n).Accessible a := by
  intro hcache
  obtain ⟨hlt, hused⟩ := hacc hcache
  refine ⟨(nblocks_put_bitmap v _ _ _).symm ▸ hlt, ?_⟩
  rw [freeBit_freed, if_neg hne]
  exact hused

theorem FileOk.ptrAddr_away (hok : v.FileOk f) (hidx : idx.InRange)
    (hptr : v.ptr f idx ≠ 0) : blockOf (v.ptrAddr f idx) ≠ v.ptr f idx := by
  intro hsame
  obtain ⟨hlow, hhigh⟩ | ⟨hne, hind, hlow, hhigh⟩ := ptrAddr_cases hidx (hasSlot_of_ptr hptr)
  · refine hok.away idx hidx hptr (hsame.symm.trans ?_)
    have hstart := hok.low
    have hend := hok.high
    unfold blockAddr at hstart hend
    unfold blockOf at *
    omega
  · refine hne (hok.apart .indirect idx trivial hidx hind ?_).symm
    rw [← hsame]
    unfold blockAddr at hlow hhigh
    unfold blockOf
    omega

structure InData (v : View) (g i x : Nat) : Prop where
  reach : v.Reach g
  lt : i < 1034
  ptr : v.ptr g (.data i) ≠ 0
  block : blockOf x = v.ptr g (.data i)

namespace InData

section

variable (hdata : v.InData g i x) (hwf : v.WellFormed)
include hdata hwf

theorem valid : v.Valid (blockOf x) :=
  hdata.block ▸ hwf.valid g (.data i) hdata.reach hdata.lt hdata.ptr

theorem inCache : blockAddr 0 ≤ x ∧ x < 0xD0000000 := by
  have hvalid := hdata.valid hwf
  have hfirst := hvalid.1
  have hlast := hvalid.2.1
  have htwo := v.two_lt_firstData
  have hsize := hwf.disk.size
  unfold blockOf at hfirst hlast
  unfold blockAddr
  omega

theorem not_ptrAddr (hf : v.Reach f)
    (hidx : idx.InRange) (hslot : v.HasSlot f idx) (hout : x < f ∨ f + 256 ≤ x) :
    x < v.ptrAddr f idx ∨ v.ptrAddr f idx + 4 ≤ x := by
  by_contra hmem
  obtain hentry | ⟨-, hptr, hlow, hhigh⟩ := ptrAddr_cases hidx hslot
  · omega
  · have hsame : v.ptr f .indirect = v.ptr g (.data i) := by
      rw [← hdata.block]
      unfold blockAddr at hlow hhigh
      unfold blockOf
      omega
    cases (hwf.apart f g .indirect (.data i) hf hdata.reach trivial hdata.lt hptr hsame).2

theorem mem_withPtr (hf : v.Reach f)
    (hidx : idx.InRange) (hslot : v.HasSlot f idx) (hfree : v.LowestFree n)
    (hout : x < f ∨ f + 256 ≤ x) : (v.withPtr f idx n).mem x = v.mem x := by
  have hvalid := hdata.valid hwf
  refine View.mem_withPtr v f idx ?_ (hdata.not_ptrAddr hwf hf hidx hslot hout) ?_
  · exact bitmap_of_clear hvalid.clear_of_blockOf hfree.lt
  · exact block_of_ne (hfree.ne_of_valid hvalid) (hdata.inCache hwf).1

theorem mem_dropPtr (hf : v.Reach f)
    (hidx : idx.InRange) (hptr : v.ptr f idx ≠ 0) (hout : x < f ∨ f + 256 ≤ x) :
    (v.dropPtr f idx).mem x = v.mem x := by
  refine View.mem_dropPtr v f idx ?_ (hdata.not_ptrAddr hwf hf hidx (hasSlot_of_ptr hptr) hout)
  exact bitmap_of_clear (hdata.valid hwf).clear_of_blockOf (hwf.valid f idx hf hidx hptr).2.1

end

end InData

theorem byteAddr_congr {p : Nat}
    (hptr : v'.ptr f (.data (p / 4096)) = v.ptr f (.data (p / 4096))) :
    v'.byteAddr f p = v.byteAddr f p := by
  unfold byteAddr
  rw [hptr]

theorem byteAddr_add {p : Nat} (v : View) (f : Nat) (hi : p % 4096 + i < 4096) :
    v.byteAddr f (p + i) = v.byteAddr f p + i := by
  unfold byteAddr
  rw [show (p + i) / 4096 = p / 4096 by omega]
  omega

theorem byteAddr_range {p : Nat} (v : View) (f : Nat) (hn : p % 4096 + n ≤ 4096) :
    blockAddr (v.ptr f (.data (p / 4096))) ≤ v.byteAddr f p ∧
      v.byteAddr f p + n ≤ blockAddr (v.ptr f (.data (p / 4096)) + 1) := by
  rw [blockAddr_succ]
  unfold byteAddr
  omega

theorem inData_byteAddr {p : Nat} (hf : v.Reach f) (hp : p / 4096 < 1034) (hhas : v.HasByte f p) :
    v.InData f (p / 4096) (v.byteAddr f p) where
  reach := hf
  lt := hp
  ptr := hhas
  block := by
    unfold byteAddr blockOf blockAddr
    omega

theorem mem_withPtr_outside (hok : v.FileOk f) (hidx : idx.InRange) (hslot : v.HasSlot f idx)
    (hfree : v.LowestFree n) (hx : x < blockAddr 0 ∨ 0xD0000000 ≤ x) :
    (v.withPtr f idx n).mem x = v.mem x := by
  have hsize := hok.disk.size
  have hlast := bitmapAddr_lt hfree.lt
  have hroom := hok.disk.room
  have hn := hfree.lt
  have hlow := hok.low
  have hhigh := hok.entry_lt
  refine View.mem_withPtr v f idx ?_ ?_ ?_
  · unfold bitmapAddr blockAddr at *
    omega
  · obtain hentry | ⟨-, hptr, hstart, hend⟩ := ptrAddr_cases hidx hslot
    · unfold blockAddr at *
      omega
    · have hlt := (hok.valid .indirect trivial hptr).2.1
      unfold blockAddr at *
      omega
  · unfold blockAddr at *
    omega

theorem SameEntry.fileSize {e : Nat} (hsame : SameEntry v v' e) : v'.fileSize e = v.fileSize e :=
  congrArg int32 (congrArg Nat.cast hsame.size)

theorem FileOk.fileSize_withPtr (hok : v.FileOk f) (hidx : idx.InRange) (hslot : v.HasSlot f idx)
    (hfree : v.LowestFree n) : (v.withPtr f idx n).fileSize f = v.fileSize f := by
  refine congrArg int32 (congrArg Nat.cast (word_congr fun x hle hlt => ?_))
  refine hok.header_withPtr hidx hslot hfree ?_ ?_
  all_goals
    unfold sizeAddr at *
    omega

theorem FileOk.fileSize_copy {dst : Nat} (hok : v.FileOk f) (hidx : idx.InRange)
    (hptr : v.ptr f idx ≠ 0) (hlow : blockAddr (v.ptr f idx) ≤ dst)
    (hhigh : dst + n ≤ blockAddr (v.ptr f idx + 1)) (src : Nat) :
    (v.copy dst src n).fileSize f = v.fileSize f := by
  refine congrArg int32 (congrArg Nat.cast (word_congr fun x hle hlt => mem_copy_of_not_mem v ?_))
  have hdisj := hok.entry_disjoint (hok.away idx hidx hptr)
  unfold sizeAddr at hle hlt
  omega

/-- From `v` to `v'` the file `f` may have been given blocks for pointers in `grows`, a new size, and new
bytes where `writes` holds. -/
structure Kept (v v' : View) (f : Nat) (grows : Index → Prop) (writes : Nat → Prop) : Prop where
  only : OnlyFile v v' f
  ptr : ∀ idx, idx.InRange → v.ptr f idx ≠ 0 → v'.ptr f idx = v.ptr f idx
  zero : ∀ idx, idx.InRange → ¬grows idx → v.ptr f idx = 0 → v'.ptr f idx = 0
  own : ∀ p, p / 4096 < 1034 → v.HasByte f p → ¬writes p → v'.byte f p = v.byte f p
  others : ∀ g i x, v.InData g i x → g ≠ f → x < f ∨ f + 256 ≤ x → v'.mem x = v.mem x

namespace Kept

variable {w : View} {grows grows' : Index → Prop} {writes writes' : Nat → Prop}

theorem refl (hwf : v.WellFormed) (f : Nat) (grows : Index → Prop) (writes : Nat → Prop) :
    Kept v v f grows writes :=
  ⟨.refl hwf f, fun _ _ _ => rfl, fun _ _ _ h => h, fun _ _ _ _ => rfl, fun _ _ _ _ _ _ => rfl⟩

theorem hasByte {p : Nat} (hkept : Kept v v' f grows writes) (hp : p / 4096 < 1034)
    (hhas : v.HasByte f p) : v'.HasByte f p := by
  have hidx : (Index.data (p / 4096)).InRange := hp
  unfold HasByte
  rw [hkept.ptr _ hidx hhas]
  exact hhas

theorem inData (hkept : Kept v v' f grows writes) (hdata : v.InData g i x) (hne : g ≠ f) :
    v'.InData g i x := by
  have hidx : (Index.data i).InRange := hdata.lt
  have hptr := (hkept.only.others g hdata.reach.toEntry hne).ptr (.data i) hidx
  exact ⟨hkept.only.shape.reach hdata.reach, hdata.lt, hptr ▸ hdata.ptr, hptr ▸ hdata.block⟩

theorem mono (hkept : Kept v v' f grows writes) (hgrows : ∀ idx, grows idx → grows' idx)
    (hwrites : ∀ p, writes p → writes' p) : Kept v v' f grows' writes' :=
  ⟨hkept.only, hkept.ptr, fun idx hidx hnot => hkept.zero idx hidx fun h => hnot (hgrows idx h),
    fun p hp hhas hnot => hkept.own p hp hhas fun h => hnot (hwrites p h), hkept.others⟩

theorem trans (hkept : Kept v v' f grows writes) (hkept' : Kept v' w f grows writes) :
    Kept v w f grows writes where
  only := hkept.only.trans hkept'.only
  ptr idx hidx hptr := by
    have hsame := hkept.ptr idx hidx hptr
    exact (hkept'.ptr idx hidx (hsame ▸ hptr)).trans hsame
  zero idx hidx hnot hzero :=
    hkept'.zero idx hidx hnot (hkept.zero idx hidx hnot hzero)
  own p hp hhas hnot :=
    (hkept'.own p hp (hkept.hasByte hp hhas) hnot).trans (hkept.own p hp hhas hnot)
  others g i x hdata hne hout :=
    (hkept'.others g i x (hkept.inData hdata hne) hne hout).trans (hkept.others g i x hdata hne hout)

theorem byte_eq {p : Nat} (hptr : v'.ptr f (.data (p / 4096)) = v.ptr f (.data (p / 4096)))
    (hmem : v'.mem (v.byteAddr f p) = v.mem (v.byteAddr f p)) : v'.byte f p = v.byte f p := by
  unfold byte
  rw [byteAddr_congr hptr, hmem]

theorem own_out {p : Nat} (hok : v.FileOk f) (hp : p / 4096 < 1034) (hhas : v.HasByte f p) :
    v.byteAddr f p < f ∨ f + 256 ≤ v.byteAddr f p := by
  have hdisj := hok.entry_disjoint (hok.away (.data (p / 4096)) hp hhas)
  unfold byteAddr
  unfold blockAddr at *
  omega

theorem grow (hwf : v.WellFormed) (hf : v.Reach f) (hidx : idx.InRange) (hptr : v.ptr f idx = 0)
    (hslot : v.HasSlot f idx) (hfree : v.LowestFree n) (writes : Nat → Prop) :
    Kept v (v.withPtr f idx n) f (· = idx) writes := by
  have hok := hwf.fileOk hf
  have hgrows := grows_withPtr hok hidx hptr hslot hfree
  have hsame : ∀ idx', idx'.InRange → idx' ≠ idx →
      (v.withPtr f idx n).ptr f idx' = v.ptr f idx' := by
    intro idx' hidx' hne
    rw [hgrows.ptr idx' hidx', if_neg hne]
  have hset : ∀ idx', idx'.InRange → v.ptr f idx' ≠ 0 →
      (v.withPtr f idx n).ptr f idx' = v.ptr f idx' := by
    intro idx' hidx' hne
    refine hsame idx' hidx' ?_
    rintro rfl
    exact hne hptr
  refine ⟨hwf.grow hf hidx hptr hslot hfree, hset, ?_, ?_, ?_⟩
  · intro idx' hidx' hne hzero
    exact (hsame idx' hidx' hne).trans hzero
  · intro p hp hhas _
    refine byte_eq (hset _ hp hhas) ?_
    exact (inData_byteAddr hf hp hhas).mem_withPtr hwf hf hidx hslot hfree (own_out hok hp hhas)
  · intro g i x hdata _ hout
    exact hdata.mem_withPtr hwf hf hidx hslot hfree hout

theorem copy_data {p : Nat} (src : Nat) (hwf : v.WellFormed) (hf : v.Reach f) (htype : ¬v.IsDir f)
    (hp : p / 4096 < 1034) (hhas : v.HasByte f p) (hn : p % 4096 + n ≤ 4096)
    (grows : Index → Prop) :
    Kept v (v.copy (v.byteAddr f p) src n) f grows fun q => p ≤ q ∧ q < p + n := by
  have hok := hwf.fileOk hf
  have hidx : (Index.data (p / 4096)).InRange := hp
  obtain ⟨hlow, hhigh⟩ := v.byteAddr_range f hn
  have hcopied : ∀ x, v.byteAddr f p ≤ x → x < v.byteAddr f p + n →
      blockOf x = v.ptr f (.data (p / 4096)) := by
    intro x hle hlt
    unfold blockAddr at hlow hhigh
    unfold blockOf
    omega
  have hmem : ∀ x, blockOf x ≠ v.ptr f (.data (p / 4096)) →
      (v.copy (v.byteAddr f p) src n).mem x = v.mem x := by
    intro x hx
    refine mem_copy_of_not_mem _ ?_
    by_contra hin
    exact hx (hcopied x (by omega) (by omega))
  have hmiss := hok.misses_data hp hhas hlow hhigh
  have hptr := (hmiss.copy src).ptr
  refine ⟨(hwf.of_data hf htype hidx hhas hmem).onlyFile f, fun idx hidx _ => hptr idx hidx, ?_, ?_,
    ?_⟩
  · intro idx hidx _ hzero
    exact (hptr idx hidx).trans hzero
  · intro q hq hhas' hnot
    have hidx' : (Index.data (q / 4096)).InRange := hq
    refine byte_eq (hptr _ hidx') (mem_copy_of_not_mem _ ?_)
    by_contra hin
    -- the byte is in the same block, and in the part that is copied
    have hblock := (inData_byteAddr hf hq hhas').block
    rw [hcopied _ (by omega) (by omega)] at hblock
    have hsame := Index.data.inj (hok.apart _ _ hidx hidx' hhas hblock)
    unfold byteAddr at hin
    rw [hsame] at hin
    refine hnot ?_
    omega
  · intro g i x hdata hne _
    refine hmem x fun hblock => hne ?_
    have hidx' : (Index.data i).InRange := hdata.lt
    exact (hwf.apart g f (.data i) _ hdata.reach hf hidx' hidx hdata.ptr
      (hdata.block.symm.trans hblock)).1

theorem resize (hwf : v.WellFormed) (hf : v.Reach f) (htype : ¬v.IsDir f) (access : Access)
    (size : Nat) (grows : Index → Prop) (writes : Nat → Prop) :
    Kept v (v.put access (sizeAddr f) size) f grows writes := by
  have hok := hwf.fileOk hf
  have hptr := (hok.misses_size.put access size).ptr
  have hmem : ∀ x, x < f ∨ f + 256 ≤ x → (v.put access (sizeAddr f) size).mem x = v.mem x := by
    intro x hout
    refine mem_put_of_not_mem v access size ?_
    unfold sizeAddr
    omega
  refine ⟨hwf.resize hf htype access size, fun idx hidx _ => hptr idx hidx,
    fun idx hidx _ hzero => (hptr idx hidx).trans hzero, fun p hp hhas _ => ?_,
    fun _ _ x _ _ hout => hmem x hout⟩
  have hidx : (Index.data (p / 4096)).InRange := hp
  exact byte_eq (hptr _ hidx) (hmem _ (own_out hok hp hhas))

theorem copy_outside {dst src : Nat} (hwf : v.WellFormed) (hf : v.Reach f)
    (hdst : dst + n ≤ blockAddr 0 ∨ fileVa ≤ dst) (grows : Index → Prop) (writes : Nat → Prop) :
    Kept v (v.copy dst src n) f grows writes := by
  have hok := hwf.fileOk hf
  have hmem : ∀ x, blockAddr 0 ≤ x → x < 0xD0000000 → (v.copy dst src n).mem x = v.mem x := by
    intro x hlow hhigh
    refine mem_copy_of_not_mem _ ?_
    unfold fileVa at hdst
    omega
  have hkept := hwf.of_outside fun x hlow hhigh => hmem x (by unfold blockAddr at *; omega) hhigh
  have hsame := hkept.entries f hf.toEntry
  refine ⟨hkept.onlyFile f, fun idx hidx _ => hsame.ptr idx hidx,
    fun idx hidx _ hzero => (hsame.ptr idx hidx).trans hzero, fun p hp hhas _ => ?_,
    fun g i x hdata _ _ => ?_⟩
  · have hidx : (Index.data (p / 4096)).InRange := hp
    have hrange := (inData_byteAddr hf hp hhas).inCache hwf
    exact byte_eq (hsame.ptr _ hidx) (hmem _ hrange.1 hrange.2)
  · have hrange := hdata.inCache hwf
    exact hmem x hrange.1 hrange.2

end Kept

end View

end Fs

end ZynexOS
