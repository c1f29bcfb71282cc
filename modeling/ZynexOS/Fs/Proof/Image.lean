import ZynexOS.Fs.Format
import ZynexOS.Fs.Proof.Bitmap
import ZynexOS.Library.Outcome

/-! # What `fsformat` writes -/

namespace ZynexOS

open Library Bytes

namespace Fs

variable {nblocks : Nat} {heap mem mem' : Bytes} {h : HostFile} {s s' : Format}
variable {b start f j : Nat}

/-! ### Rounding and allocation -/

theorem roundup_eq {n : Nat} (hn : n ≤ 2 ^ 31) : roundup n = 4096 * ((n + 4095) / 4096) := by
  unfold roundup uint32
  dsimp only
  by_cases hzero : n = 0
  · subst hzero
    decide
  · omega

theorem roundupInt_eq (n : Nat) : (roundupInt n).toNat = 4096 * max 1 ((n + 4095) / 4096) := by
  unfold roundupInt
  by_cases hzero : n = 0
  · subst hzero
    decide
  · rw [Int.tmod_eq_emod_of_nonneg (by omega)]
    omega

def HostFile.span (h : HostFile) : Nat := h.blocks + if 10 ≤ h.blocks then 1 else 0

theorem alloc_eq {bytes : Nat} (halloc : s.alloc nblocks bytes = .ok (start, s'))
    (hbytes : bytes ≤ 2 ^ 31) (hpos : s.diskpos = blockAddr b) :
    start = blockAddr b ∧ b + (bytes + 4095) / 4096 < nblocks ∧
      s' = { s with diskpos := blockAddr (b + (bytes + 4095) / 4096) } := by
  have hnext : s.diskpos + roundup bytes = blockAddr (b + (bytes + 4095) / 4096) := by
    rw [hpos, roundup_eq hbytes]
    unfold blockAddr
    omega
  unfold Format.alloc at halloc
  dsimp only at halloc
  rw [hnext] at halloc
  split at halloc
  · cases halloc
  · next hroom =>
      cases halloc
      refine ⟨hpos, ?_, rfl⟩
      unfold blockOf blockAddr at hroom
      omega

/-- The memory that `finishfile` leaves for a file with its data from block `start` on and `b` as the
next free block. -/
def finished (mem : Bytes) (f start len b : Nat) : Bytes :=
  let mem := (mem.storeNat (sizeAddr f) 4 len).storeRun (directAddr f 0) start
    (min ((len + 4095) / 4096) 10)
  if 10 ≤ (len + 4095) / 4096 then
    (mem.storeNat (indirectAddr f) 4 b).storeRun (blockAddr b) (start + 10)
      ((len + 4095) / 4096 - 10)
  else mem

theorem finishFile_eq {len : Nat} (hlen : len ≤ 2 ^ 31) (hpos : s.diskpos = blockAddr b)
    (hroom : b < nblocks) (hfinish : s.finishFile nblocks f start len = .ok s') :
    s' = { s with
      mem := finished s.mem f start len b
      diskpos := blockAddr (b + if 10 ≤ (len + 4095) / 4096 then 1 else 0) } ∧
    (b + if 10 ≤ (len + 4095) / 4096 then 1 else 0) < nblocks := by
  have hcount : roundup len / 4096 = (len + 4095) / 4096 := by
    rw [roundup_eq hlen]
    omega
  unfold Format.finishFile at hfinish
  dsimp only at hfinish
  rw [hcount] at hfinish
  unfold finished
  by_cases hten : 10 ≤ (len + 4095) / 4096
  · rw [if_pos (show min ((len + 4095) / 4096) nDirect = nDirect from min_eq_right hten)] at hfinish
    obtain ⟨⟨ind, mid⟩, halloc, hrest⟩ := bind_eq_ok.mp hfinish
    obtain ⟨rfl, hlt, rfl⟩ := alloc_eq halloc (by norm_num) hpos
    cases pure_eq_ok.mp hrest
    dsimp only
    rw [blockOf_blockAddr, if_pos hten, if_pos hten]
    exact ⟨rfl, hlt⟩
  · have hfew : ¬min ((len + 4095) / 4096) nDirect = nDirect := fun hmin =>
      hten (min_eq_right_iff.mp hmin)
    rw [if_neg hfew] at hfinish
    cases hfinish
    dsimp only
    rw [if_neg hten, if_neg hten]
    refine ⟨?_, hroom⟩
    rw [show blockAddr (b + 0) = s.diskpos from hpos.symm]
    rfl

/-! ### One file -/

/-- The `struct File` at `f` describes the host file `h`, whose blocks begin at `start`. `stray` is
what the words at the offsets of pointers hold that are not set. -/
structure Laid (mem : Bytes) (f : Nat) (h : HostFile) (start : Nat) (stray : Nat → Nat) : Prop where
  small : h.size < maxFileSize
  name : ∀ i ≤ h.name.length, i < 128 → mem (f + i) = h.name.getD i 0
  size : mem.loadNat (sizeAddr f) 4 = h.size
  type : mem.loadNat (typeAddr f) 4 = 0
  direct : ∀ i < h.blocks, i < 10 → mem.loadNat (directAddr f i) 4 = start + i
  unset : ∀ i < 10, h.blocks ≤ i → mem.loadNat (directAddr f i) 4 = stray (136 + 4 * i)
  indirect : mem.loadNat (indirectAddr f) 4 = if 10 ≤ h.blocks then start + h.blocks else stray 176
  table : ∀ i < h.blocks, 10 ≤ i →
    mem.loadNat (blockAddr (start + h.blocks) + 4 * (i - 10)) 4 = start + i
  blank : ∀ i < 1034, 10 ≤ h.blocks → h.blocks ≤ i →
    mem.loadNat (blockAddr (start + h.blocks) + 4 * (i - 10)) 4 = 0
  data : ∀ i < h.size, mem (blockAddr start + i) = h.content.getD i 0

theorem Laid.move {f' : Nat} {stray : Nat → Nat} (hlaid : Laid mem f h start stray)
    (hfile : ∀ i < 256, mem' (f' + i) = mem (f + i))
    (hblocks : ∀ x, blockAddr start ≤ x → x < blockAddr (start + h.span) → mem' x = mem x) :
    Laid mem' f' h start stray := by
  have hword : ∀ k, k + 4 ≤ 256 → mem'.loadNat (f' + k) 4 = mem.loadNat (f + k) 4 := by
    intro k hk
    refine loadNat_shift fun i hi => ?_
    rw [Nat.add_assoc, Nat.add_assoc]
    exact hfile (k + i) (by omega)
  have hdirect : ∀ i < 10, mem'.loadNat (directAddr f' i) 4 = mem.loadNat (directAddr f i) 4 := by
    intro i hi
    have h := hword (136 + 4 * i) (by omega)
    rwa [← Nat.add_assoc, ← Nat.add_assoc] at h
  have htable : ∀ i < 1034, 10 ≤ i → 10 ≤ h.blocks →
      mem'.loadNat (blockAddr (start + h.blocks) + 4 * (i - 10)) 4 =
        mem.loadNat (blockAddr (start + h.blocks) + 4 * (i - 10)) 4 := by
    intro i hi hi' hten
    have hspan : h.span = h.blocks + 1 := by
      unfold HostFile.span
      rw [if_pos hten]
    refine loadNat_congr fun x hle hlt => hblocks x ?_ ?_ <;> rw [hspan] at * <;>
      unfold blockAddr at * <;> omega
  refine ⟨hlaid.small, ?_, (hword 128 (by omega)).trans hlaid.size,
    (hword 132 (by omega)).trans hlaid.type, ?_, ?_, (hword 176 (by omega)).trans hlaid.indirect, ?_,
    ?_, ?_⟩
  · intro i hi hlt
    exact (hfile i (by omega)).trans (hlaid.name i hi hlt)
  · intro i hi hten
    exact (hdirect i hten).trans (hlaid.direct i hi hten)
  · intro i hten hi
    exact (hdirect i hten).trans (hlaid.unset i hten hi)
  · intro i hi hten
    have hsmall := hlaid.small
    refine (htable i ?_ hten (by omega)).trans (hlaid.table i hi hten)
    unfold HostFile.blocks maxFileSize at *
    omega
  · intro i hlt hten hi
    exact (htable i hlt (by omega) hten).trans (hlaid.blank i hlt hten hi)
  · intro i hi
    rw [← hlaid.data i hi]
    refine hblocks _ (Nat.le_add_right _ _) ?_
    have hspan : h.blocks ≤ h.span := Nat.le_add_right _ _
    unfold HostFile.blocks blockAddr at *
    omega

theorem Laid.congr {stray stray' : Nat → Nat} (hlaid : Laid mem f h start stray)
    (hsame : ∀ k, k + 4 ≤ 256 → stray k = stray' k) : Laid mem f h start stray' :=
  { hlaid with
    unset := fun i hten hi => (hlaid.unset i hten hi).trans (hsame _ (by omega))
    indirect := by
      rw [hlaid.indirect, hsame 176 (by norm_num)] }

def written (mem : Bytes) (f start : Nat) (h : HostFile) : Bytes :=
  let mem := (mem.copyList f (h.name ++ [0])).storeNat (typeAddr f) 4 0
  finished (mem.copyList (blockAddr start) h.content) f start h.size (start + h.blocks)

theorem written_apply_of_not_mem {x : Nat} (hsmall : h.size < maxFileSize)
    (hfile : x < f ∨ f + 256 ≤ x)
    (hblocks : x < blockAddr start ∨ blockAddr (start + h.span) ≤ x) :
    written mem f start h x = mem x := by
  have hname : (h.name ++ [0]).length ≤ 256 := by
    have hshort := h.short
    simp only [List.length_append, List.length_singleton, HostFile.name]
    omega
  have hsize : h.content.length = h.size := rfl
  unfold written finished
  unfold HostFile.span HostFile.blocks at hblocks
  unfold HostFile.blocks
  unfold maxFileSize at hsmall
  by_cases hten : 10 ≤ (h.size + 4095) / 4096
  · rw [if_pos hten] at hblocks ⊢
    rw [storeRun_apply_of_not_mem (by unfold blockAddr at *; omega),
      storeNat_apply_of_not_mem (by unfold indirectAddr; omega),
      storeRun_apply_of_not_mem (by unfold directAddr; omega),
      storeNat_apply_of_not_mem (by unfold sizeAddr; omega),
      copyList_apply_of_not_mem (by unfold blockAddr at *; omega),
      storeNat_apply_of_not_mem (by unfold typeAddr; omega),
      copyList_apply_of_not_mem (by omega)]
  · rw [if_neg hten] at hblocks ⊢
    rw [storeRun_apply_of_not_mem (by unfold directAddr; omega),
      storeNat_apply_of_not_mem (by unfold sizeAddr; omega),
      copyList_apply_of_not_mem (by unfold blockAddr at *; omega),
      storeNat_apply_of_not_mem (by unfold typeAddr; omega),
      copyList_apply_of_not_mem (by omega)]

theorem finished_congr {len x : Nat} (hx : x < f + 176 ∨ f + 180 ≤ x) (hblock : x < blockAddr b) :
    finished mem f start len b x =
      (mem.storeNat (sizeAddr f) 4 len).storeRun (directAddr f 0) start
        (min ((len + 4095) / 4096) 10) x := by
  unfold finished
  split
  · rw [storeRun_apply_of_not_mem (.inl hblock),
      storeNat_apply_of_not_mem (by unfold indirectAddr; omega)]
  · rfl

theorem laid_written (hsmall : h.size < maxFileSize) (hf : f + 256 ≤ blockAddr 0)
    (hend : start + h.span ≤ 2 ^ 20)
    (hblank : ∀ x, blockAddr start ≤ x → x < blockAddr (start + h.span) → mem x = 0) :
    Laid (written mem f start h) f h start
      fun k => (mem.copyList f (h.name ++ [0])).loadNat (f + k) 4 := by
  have hblocks : h.blocks ≤ h.span := Nat.le_add_right _ _
  have hlow : ∀ x, x < f + 256 → x < blockAddr (start + h.blocks) := by
    intro x hx
    unfold blockAddr at *
    omega
  have hdata : ∀ x, x < f + 256 → x < blockAddr start ∨ blockAddr start + h.content.length ≤ x := by
    intro x hx
    unfold blockAddr at *
    omega
  have hcount : (h.size + 4095) / 4096 = h.blocks := rfl
  -- a word of the description below `f_indirect`
  have hword : ∀ a, a + 4 ≤ f + 176 → (written mem f start h).loadNat a 4 =
      (((((mem.copyList f (h.name ++ [0])).storeNat (typeAddr f) 4 0).copyList (blockAddr start)
        h.content).storeNat (sizeAddr f) 4 h.size).storeRun (directAddr f 0) start
          (min h.blocks 10)).loadNat a 4 := by
    intro a ha
    exact loadNat_congr fun x _ hlt => finished_congr (.inl (by omega)) (hlow x (by omega))
  refine ⟨hsmall, ?_, ?_, ?_, ?_, ?_, ?_, ?_, ?_, ?_⟩
  · intro i hi hlt
    have hlen : i < (h.name ++ [0]).length := by
      simp only [List.length_append, List.length_singleton]
      omega
    unfold written
    rw [finished_congr (.inl (by omega)) (hlow _ (by omega)),
      storeRun_apply_of_not_mem (by unfold directAddr; omega),
      storeNat_apply_of_not_mem (by unfold sizeAddr; omega),
      copyList_apply_of_not_mem (hdata _ (by omega)),
      storeNat_apply_of_not_mem (by unfold typeAddr; omega), copyList_apply hlen]
    by_cases hlast : i = h.name.length
    · rw [hlast, List.getD_append_right _ _ _ _ le_rfl, Nat.sub_self]
      simp
    · rw [List.getD_append _ _ _ _ (by omega)]
  · rw [hword _ (by unfold sizeAddr; omega),
      loadNat_storeRun_of_disjoint (by unfold sizeAddr directAddr; omega),
      loadNat_storeNat_self]
    unfold maxFileSize at hsmall
    omega
  · rw [hword _ (by unfold typeAddr; omega),
      loadNat_storeRun_of_disjoint (by unfold typeAddr directAddr; omega),
      loadNat_storeNat_of_disjoint (by unfold typeAddr sizeAddr; omega),
      loadNat_copyList_of_disjoint (by unfold typeAddr blockAddr at *; omega),
      loadNat_storeNat_self, Nat.zero_mod]
  · intro i hi hten
    have haddr : directAddr f i = directAddr f 0 + 4 * i := rfl
    rw [hword _ (by unfold directAddr; omega), haddr,
      loadNat_storeRun (lt_min hi hten)]
    omega
  · intro i hten hi
    rw [hword _ (by unfold directAddr; omega),
      loadNat_storeRun_of_disjoint (by unfold directAddr; omega),
      loadNat_storeNat_of_disjoint (by unfold directAddr sizeAddr; omega),
      loadNat_copyList_of_disjoint (by unfold directAddr blockAddr at *; omega),
      loadNat_storeNat_of_disjoint (by unfold directAddr typeAddr; omega)]
    unfold directAddr
    rw [Nat.add_assoc]
  · unfold written finished
    rw [hcount]
    by_cases hten : 10 ≤ h.blocks
    · rw [if_pos hten, if_pos hten, loadNat_storeRun_of_disjoint
        (by unfold indirectAddr blockAddr at *; omega), loadNat_storeNat_self]
      omega
    · rw [if_neg hten, if_neg hten,
        loadNat_storeRun_of_disjoint (by unfold indirectAddr directAddr; omega),
        loadNat_storeNat_of_disjoint (by unfold indirectAddr sizeAddr; omega),
        loadNat_copyList_of_disjoint (by unfold indirectAddr blockAddr at *; omega),
        loadNat_storeNat_of_disjoint (by unfold indirectAddr typeAddr; omega)]
      rfl
  · intro i hi hten
    unfold written finished
    rw [hcount, if_pos (by omega), loadNat_storeRun (by omega)]
    omega
  · intro i hlt hten hi
    have hspan : h.span = h.blocks + 1 := by
      unfold HostFile.span
      rw [if_pos hten]
    rw [hspan] at hblank
    refine loadNat_eq_zero fun x hle hx => ?_
    have hhigh : f + 256 ≤ x := by
      unfold blockAddr at *
      omega
    unfold written finished
    rw [hcount, if_pos hten, storeRun_apply_of_not_mem (.inr (by omega)),
      storeNat_apply_of_not_mem (by unfold indirectAddr; omega),
      storeRun_apply_of_not_mem (by unfold directAddr; omega),
      storeNat_apply_of_not_mem (by unfold sizeAddr; omega),
      copyList_apply_of_not_mem (.inr ?_),
      storeNat_apply_of_not_mem (by unfold typeAddr; omega),
      copyList_apply_of_not_mem (.inr ?_)]
    · refine hblank x ?_ ?_ <;> unfold blockAddr at * <;> omega
    · have hshort := h.short
      simp only [List.length_append, List.length_singleton, HostFile.name]
      omega
    · have hsize : h.content.length = h.size := rfl
      unfold HostFile.blocks blockAddr at *
      omega
  · intro i hi
    have hlast : blockAddr start + i < blockAddr (start + h.blocks) := by
      unfold HostFile.blocks blockAddr
      omega
    have hhigh : f + 256 ≤ blockAddr start + i := by
      unfold blockAddr at *
      omega
    unfold written
    rw [finished_congr (.inr (by omega)) hlast,
      storeRun_apply_of_not_mem (by unfold directAddr; omega),
      storeNat_apply_of_not_mem (by unfold sizeAddr; omega), copyList_apply hi]

/-! ### All files -/

def nextBlock (files : List HostFile) : Nat := 3 + (files.map HostFile.span).sum

theorem nextBlock_append (files : List HostFile) (h : HostFile) :
    nextBlock (files ++ [h]) = nextBlock files + h.span := by
  simp [nextBlock, Nat.add_assoc]

/-- `files` have been written; `low` is the contents of the first three blocks. -/
structure Written (nblocks : Nat) (heap low : Bytes) (files : List HostFile) (s : Format) :
    Prop where
  count : s.n = files.length
  few : files.length ≤ 128
  pos : s.diskpos = blockAddr (nextBlock files)
  room : nextBlock files < nblocks
  laid : ∀ j (hj : j < files.length),
    Laid s.mem (entsAddr + 256 * j) files[j] (nextBlock (files.take j)) (strayAt heap j files[j])
  blank : ∀ x, blockAddr (nextBlock files) ≤ x → x < blockAddr nblocks → s.mem x = 0
  heap : ∀ x, entsAddr + 256 * files.length ≤ x → x < entsAddr + 0x8000 → s.mem x = heap x
  low : ∀ x, blockAddr 0 ≤ x → x < blockAddr 3 → s.mem x = low x

variable {files : List HostFile} {low : Bytes}

theorem nextBlock_take_le (files : List HostFile) (j : Nat) :
    nextBlock (files.take j) ≤ nextBlock files := by
  conv_rhs => rw [← List.take_append_drop j files]
  simp only [nextBlock, List.map_append, List.sum_append]
  omega

theorem nextBlock_take_succ (hj : j < files.length) :
    nextBlock (files.take (j + 1)) = nextBlock (files.take j) + files[j].span := by
  rw [List.take_succ_eq_append_getElem hj, nextBlock_append]

theorem nextBlock_take_span_le {i : Nat} (hj : j < files.length) (hlt : j < i) :
    nextBlock (files.take j) + files[j].span ≤ nextBlock (files.take i) := by
  rw [← nextBlock_take_succ hj]
  have hle := nextBlock_take_le (files.take i) (j + 1)
  rwa [List.take_take, min_eq_left (by omega)] at hle

theorem Written.span_le (hj : j < files.length) :
    nextBlock (files.take j) + files[j].span ≤ nextBlock files := by
  have hle := nextBlock_take_span_le hj hj
  rwa [List.take_length] at hle

theorem Written.writeFile_eq (hwritten : Written nblocks heap low files s)
    (hwrite : s.writeFile nblocks h = .ok s') :
    h.size < maxFileSize ∧ files.length < 128 ∧ nextBlock files + h.span < nblocks ∧
      s' = ⟨written s.mem (entsAddr + 256 * files.length) (nextBlock files) h,
        blockAddr (nextBlock files + h.span), files.length + 1⟩ := by
  unfold Format.writeFile at hwrite
  split at hwrite
  · cases hwrite
  · next hsmall =>
      have hsmall : h.size < maxFileSize := not_le.mp hsmall
      have hsize : h.size ≤ 2 ^ 31 := by
        unfold maxFileSize at hsmall
        omega
      obtain ⟨⟨f, mid⟩, hadd, hrest⟩ := bind_eq_ok.mp hwrite
      unfold Format.dirAdd at hadd
      dsimp only at hadd
      split at hadd
      · cases hadd
      · next hfew =>
          cases hadd
          obtain ⟨⟨start, mid⟩, halloc, hfinish⟩ := bind_eq_ok.mp hrest
          obtain ⟨rfl, hroom, rfl⟩ := alloc_eq halloc hsize hwritten.pos
          dsimp only at hfinish
          rw [blockOf_blockAddr] at hfinish
          obtain ⟨rfl, hroom'⟩ := finishFile_eq hsize rfl hroom hfinish
          rw [hwritten.count] at hfew
          refine ⟨hsmall, ?_, ?_, ?_⟩
          · unfold maxDirEnts at hfew
            omega
          · unfold HostFile.span HostFile.blocks
            omega
          · unfold HostFile.span HostFile.blocks written
            rw [hwritten.count, ← Nat.add_assoc]
            rfl

theorem Written.step (hn : nblocks ≤ 1024) (hwritten : Written nblocks heap low files s)
    (hwrite : s.writeFile nblocks h = .ok s') : Written nblocks heap low (files ++ [h]) s' := by
  obtain ⟨hsmall, hfew, hroom, rfl⟩ := hwritten.writeFile_eq hwrite
  have hlen : (files ++ [h]).length = files.length + 1 := by simp
  have hstart : 3 ≤ nextBlock files := Nat.le_add_right _ _
  have hsame : ∀ x, (x < entsAddr + 256 * files.length ∨ entsAddr + 256 * files.length + 256 ≤ x) →
      (x < blockAddr (nextBlock files) ∨ blockAddr (nextBlock files + h.span) ≤ x) →
      written s.mem (entsAddr + 256 * files.length) (nextBlock files) h x = s.mem x := fun x hx hx' =>
    written_apply_of_not_mem hsmall hx hx'
  refine ⟨hlen.symm, by omega, by rw [nextBlock_append], by rw [nextBlock_append]; exact hroom,
    fun j hj => ?_, fun x hle hlt => ?_, fun x hle hlt => ?_, fun x hle hlt => ?_⟩
  · by_cases hlast : j = files.length
    · subst hlast
      have hname : (h.name ++ [0]).length ≤ 256 := by
        have hshort := h.short
        simp only [List.length_append, List.length_singleton, HostFile.name]
        omega
      have hword : ∀ k, k + 4 ≤ 256 → strayAt heap files.length h k =
          (s.mem.copyList (entsAddr + 256 * files.length) (h.name ++ [0])).loadNat
            (entsAddr + 256 * files.length + k) 4 := by
        intro k hk
        refine loadNat_congr fun x hle hlt => ?_
        unfold Bytes.copyList
        split
        · rfl
        · exact (hwritten.heap x (by omega) (by omega)).symm
      simp only [List.getElem_append_right (le_refl files.length), Nat.sub_self,
        List.getElem_cons_zero, List.take_left']
      refine (laid_written hsmall ?_ (by omega) fun x hle hlt =>
        hwritten.blank x hle (by unfold blockAddr at *; omega)).congr fun k hk => (hword k hk).symm
      unfold entsAddr blockAddr
      omega
    · have hj' : j < files.length := by omega
      have hspan := Written.span_le hj'
      simp only [List.getElem_append_left hj', List.take_append_of_le_length hj'.le]
      refine (hwritten.laid j hj').move (fun i hi => hsame _ (.inl (by omega)) (.inl ?_))
        fun x hle hlt => hsame x (.inr ?_) (.inl ?_)
      · unfold entsAddr blockAddr at *
        omega
      · unfold entsAddr blockAddr at *
        omega
      · unfold blockAddr at *
        omega
  · rw [nextBlock_append] at hle
    refine (hsame x (.inr ?_) (.inr hle)).trans (hwritten.blank x ?_ hlt)
    · unfold entsAddr blockAddr at *
      omega
    · unfold blockAddr at *
      omega
  · rw [hlen, Nat.mul_succ, ← Nat.add_assoc] at hle
    refine (hsame x (.inr hle) (.inl ?_)).trans (hwritten.heap x (by omega) hlt)
    unfold entsAddr blockAddr at *
    omega
  · refine (hsame x (.inr ?_) (.inl ?_)).trans (hwritten.low x hle hlt)
    · unfold entsAddr blockAddr at *
      omega
    · unfold blockAddr at *
      omega

theorem Written.foldlM (hn : nblocks ≤ 1024) {done : List HostFile}
    (hwritten : Written nblocks heap low done s)
    (hrun : files.foldlM (Format.writeFile nblocks) s = .ok s') :
    Written nblocks heap low (done ++ files) s' := by
  induction files generalizing done s with
  | nil =>
      cases pure_eq_ok.mp hrun
      rwa [List.append_nil]
  | cons h files ih =>
      rw [List.foldlM_cons] at hrun
      obtain ⟨mid, hmid, hrest⟩ := bind_eq_ok.mp hrun
      rw [List.append_cons]
      exact ih (hwritten.step hn hmid) hrest

/-! ### The beginning -/

def opened (nblocks : Nat) (heap : Bytes) : Bytes :=
  let mem := (heap.fill (blockAddr 0) (nblocks * 4096) 0).storeNat (blockAddr 1) 4 fsMagic
  let mem := mem.storeNat (blockAddr 1 + 4) 4 nblocks
  let mem := mem.storeNat (typeAddr (blockAddr 1 + 8)) 4 fTypeDir
  (mem.copyList (blockAddr 1 + 8) [slash, 0]).fill (blockAddr 2) 4096 0xff

theorem openDisk_eq (hn : nblocks ≤ 1024) (hopen : Format.openDisk nblocks heap = .ok s) :
    3 < nblocks ∧ s = ⟨opened nblocks heap, blockAddr 3, 0⟩ := by
  unfold Format.openDisk at hopen
  dsimp only at hopen
  obtain ⟨⟨start, mid⟩, halloc, hrest⟩ := bind_eq_ok.mp hopen
  obtain ⟨rfl, hroom, rfl⟩ := alloc_eq (b := 0) halloc (by norm_num) rfl
  obtain ⟨⟨super, mid⟩, halloc, hrest⟩ := bind_eq_ok.mp hrest
  obtain ⟨rfl, hroom, rfl⟩ := alloc_eq (b := 1) halloc (by norm_num) rfl
  dsimp only at hrest
  have hbits : (nblocks + 32767) / 32768 = 1 := by omega
  rw [hbits] at hrest
  obtain ⟨⟨bitmap, mid⟩, halloc, hrest⟩ := bind_eq_ok.mp hrest
  obtain ⟨rfl, hroom, rfl⟩ := alloc_eq (b := 2) halloc (by norm_num) rfl
  cases pure_eq_ok.mp hrest
  exact ⟨by omega, rfl⟩

theorem opened_eq_zero {x : Nat} (hx : x < blockAddr nblocks)
    (hblank : blockAddr 1 + 144 ≤ x ∧ x < blockAddr 2 ∨ blockAddr 3 ≤ x) :
    opened nblocks heap x = 0 := by
  have hname : ([slash, 0] : Name).length = 2 := rfl
  unfold opened
  rw [fill_apply_of_not_mem (by unfold blockAddr at *; omega),
    copyList_apply_of_not_mem (by rw [hname]; unfold blockAddr at *; omega),
    storeNat_apply_of_not_mem (by unfold typeAddr blockAddr at *; omega),
    storeNat_apply_of_not_mem (by unfold blockAddr at *; omega),
    storeNat_apply_of_not_mem (by unfold blockAddr at *; omega)]
  unfold Bytes.fill
  rw [if_pos (by unfold blockAddr at *; omega)]

theorem written_nil (hroom : 3 < nblocks) :
    Written nblocks heap (opened nblocks heap) [] ⟨opened nblocks heap, blockAddr 3, 0⟩ := by
  refine ⟨rfl, by simp, rfl, hroom, by nofun, fun x hle hlt => ?_, fun x hle hlt => ?_,
    fun _ _ _ => rfl⟩
  · exact opened_eq_zero hlt (.inr hle)
  · have hlow : x < blockAddr 0 := by
      unfold entsAddr blockAddr at *
      omega
    show opened nblocks heap x = _
    unfold opened
    rw [fill_apply_of_not_mem (by unfold blockAddr at *; omega),
      copyList_apply_of_not_mem (by unfold blockAddr at *; omega),
      storeNat_apply_of_not_mem (by unfold typeAddr blockAddr at *; omega),
      storeNat_apply_of_not_mem (by unfold blockAddr at *; omega),
      storeNat_apply_of_not_mem (by unfold blockAddr at *; omega),
      fill_apply_of_not_mem (.inl hlow)]

/-- The superblock and the bitmap after `opendisk`; the description of the root directory is blank but
for its type and its name. -/
structure Opened (nblocks : Nat) (mem : Bytes) : Prop where
  magic : mem.loadNat superAddr 4 = fsMagic
  nblocks : mem.loadNat (superAddr + 4) 4 = nblocks
  type : mem.loadNat (typeAddr rootAddr) 4 = fTypeDir
  blank : ∀ x, rootAddr + 136 ≤ x → x < rootAddr + 256 → mem x = 0
  bits : ∀ b < 32768, (mem.loadNat (bitmapAddr b) 4).testBit (b % 32) = true

theorem opened_opened (hroom : 3 < nblocks) (hn : nblocks ≤ 1024) :
    Opened nblocks (opened nblocks heap) := by
  have hname : ([slash, 0] : Name).length = 2 := rfl
  refine ⟨?_, ?_, ?_, fun x hle hlt => opened_eq_zero ?_ (.inl ?_), fun b hb => ?_⟩
  · unfold opened
    rw [loadNat_fill_of_disjoint (by unfold superAddr blockAddr; omega),
      loadNat_copyList_of_disjoint (by rw [hname]; unfold superAddr blockAddr; omega),
      loadNat_storeNat_of_disjoint (by unfold superAddr typeAddr blockAddr; omega),
      loadNat_storeNat_of_disjoint (by unfold superAddr blockAddr; omega)]
    exact loadNat_storeNat_self
  · unfold opened
    rw [loadNat_fill_of_disjoint (by unfold superAddr blockAddr; omega),
      loadNat_copyList_of_disjoint (by rw [hname]; unfold superAddr blockAddr; omega),
      loadNat_storeNat_of_disjoint (by unfold superAddr typeAddr blockAddr; omega)]
    refine loadNat_storeNat_self.trans ?_
    omega
  · unfold opened
    rw [loadNat_fill_of_disjoint (by unfold typeAddr rootAddr superAddr blockAddr; omega),
      loadNat_copyList_of_disjoint
        (by rw [hname]; unfold typeAddr rootAddr superAddr blockAddr; omega)]
    exact loadNat_storeNat_self
  · unfold rootAddr superAddr blockAddr at *
    omega
  · unfold rootAddr superAddr blockAddr at *
    omega
  · unfold opened
    rw [loadNat_fill_ones (by unfold bitmapAddr; omega) (by unfold bitmapAddr; omega),
      show 256 ^ 4 - 1 = 2 ^ 32 - 1 from rfl, Nat.testBit_two_pow_sub_one]
    exact decide_eq_true (Nat.mod_lt b (by norm_num))

theorem Opened.congr (hopened : Opened nblocks mem)
    (hsame : ∀ x, blockAddr 0 ≤ x → x < blockAddr 3 → mem' x = mem x) : Opened nblocks mem' := by
  have hword : ∀ a, blockAddr 0 ≤ a → a + 4 ≤ blockAddr 3 → mem'.loadNat a 4 = mem.loadNat a 4 :=
    fun a hle hlt => loadNat_congr fun x hx hx' => hsame x (by omega) (by omega)
  refine ⟨(hword _ ?_ ?_).trans hopened.magic, (hword _ ?_ ?_).trans hopened.nblocks,
    (hword _ ?_ ?_).trans hopened.type, fun x hle hlt => (hsame x ?_ ?_).trans (hopened.blank x hle hlt),
    fun b hb => ?_⟩
  · unfold superAddr blockAddr; omega
  · unfold superAddr blockAddr; omega
  · unfold superAddr blockAddr; omega
  · unfold superAddr blockAddr; omega
  · unfold typeAddr rootAddr superAddr blockAddr; omega
  · unfold typeAddr rootAddr superAddr blockAddr; omega
  · unfold rootAddr superAddr blockAddr at *; omega
  · unfold rootAddr superAddr blockAddr at *; omega
  · rw [hword _ (by unfold bitmapAddr blockAddr; omega) (by unfold bitmapAddr blockAddr; omega)]
    exact hopened.bits b hb

/-! ### The end -/

/-- The number of blocks that the root directory has, and of those that are allocated for it: there is
always one at least, but none is allocated for an empty directory. -/
def rootBlocks (n : Nat) : Nat := max 1 ((n + 15) / 16)

def usedBlocks (files : List HostFile) : Nat := nextBlock files + (files.length + 15) / 16

structure Image (nblocks : Nat) (heap : Bytes) (files : List HostFile) (mem : Bytes) : Prop where
  room : usedBlocks files < nblocks
  magic : mem.loadNat superAddr 4 = fsMagic
  limit : mem.loadNat (superAddr + 4) 4 = nblocks
  rootSize : mem.loadNat (sizeAddr rootAddr) 4 = 4096 * rootBlocks files.length
  rootType : mem.loadNat (typeAddr rootAddr) 4 = fTypeDir
  rootDirect : ∀ i < rootBlocks files.length,
    mem.loadNat (directAddr rootAddr i) 4 = nextBlock files + i
  rootUnset : ∀ i < 10, rootBlocks files.length ≤ i → mem.loadNat (directAddr rootAddr i) 4 = 0
  rootIndirect : mem.loadNat (indirectAddr rootAddr) 4 = 0
  laid : ∀ j (hj : j < files.length),
    Laid mem (blockAddr (nextBlock files) + 256 * j) files[j] (nextBlock (files.take j))
      (strayAt heap j files[j])
  blank : ∀ x, blockAddr (nextBlock files) + 256 * files.length ≤ x → x < blockAddr nblocks →
    mem x = 0
  bits : ∀ b < nblocks,
    (mem.loadNat (bitmapAddr b) 4).testBit (b % 32) = decide (usedBlocks files ≤ b)
  few : files.length ≤ 128

theorem clearBits_apply_of_not_mem {count x : Nat} (hcount : count ≤ 32768)
    (hx : x < blockAddr 2 ∨ blockAddr 3 ≤ x) : Format.clearBits mem count x = mem x := by
  induction count with
  | zero => rfl
  | succ i ih =>
      rw [Format.clearBits, storeNat_apply_of_not_mem, ih (by omega)]
      unfold bitmapAddr blockAddr at *
      omega

theorem clearBits_testBit (mem : Bytes) (count b : Nat) :
    ((Format.clearBits mem count).loadNat (bitmapAddr b) 4).testBit (b % 32) =
      (decide (count ≤ b) && (mem.loadNat (bitmapAddr b) 4).testBit (b % 32)) := by
  induction count with
  | zero => simp [Format.clearBits]
  | succ i ih =>
      have hbit := View.freeBit_allocated (Format.view ⟨Format.clearBits mem i, 0, 0⟩) i b
      have hnext : ((Format.clearBits mem (i + 1)).loadNat (bitmapAddr b) 4).testBit (b % 32) =
          if b = i then false
          else ((Format.clearBits mem i).loadNat (bitmapAddr b) 4).testBit (b % 32) := hbit
      rw [hnext]
      by_cases heq : b = i
      · rw [if_pos heq, decide_eq_false (by omega), Bool.false_and]
      · rw [if_neg heq, ih]
        congr 1
        exact decide_eq_decide.mpr (by omega)

def finishedDisk (mem : Bytes) (files : List HostFile) : Bytes :=
  let mem := mem.move (blockAddr (nextBlock files)) entsAddr (files.length * 256)
  let mem := mem.storeNat (sizeAddr rootAddr) 4 (4096 * rootBlocks files.length)
  let mem := mem.storeRun (directAddr rootAddr 0) (nextBlock files) (rootBlocks files.length)
  Format.clearBits mem (usedBlocks files)

theorem Written.finishDisk_eq (hwritten : Written nblocks heap low files s)
    (hfinish : s.finishDir nblocks = .ok s') :
    usedBlocks files < nblocks ∧ s'.finishDisk.mem = finishedDisk s.mem files := by
  obtain ⟨⟨start, mid⟩, halloc, hrest⟩ := bind_eq_ok.mp hfinish
  have hcount := hwritten.count
  have hfew := hwritten.few
  obtain ⟨rfl, hroom, rfl⟩ := alloc_eq halloc (by omega) hwritten.pos
  dsimp only at hrest
  rw [blockOf_blockAddr, roundupInt_eq, hcount] at hrest
  have hblocks : (files.length * 256 + 4095) / 4096 = (files.length + 15) / 16 := by omega
  rw [hcount, hblocks] at hroom
  rw [hblocks] at hrest
  have hrb : rootBlocks files.length ≤ 8 := by
    unfold rootBlocks
    omega
  have hlen : (4096 * rootBlocks files.length + 4095) / 4096 = rootBlocks files.length := by omega
  change Format.finishFile nblocks rootAddr _ (4096 * rootBlocks files.length) _ = _ at hrest
  obtain ⟨rfl, -⟩ := finishFile_eq (by omega) rfl (by omega) hrest
  refine ⟨hroom, ?_⟩
  unfold Format.finishDisk finished
  dsimp only
  rw [hlen, if_neg (by omega), if_neg (by omega), min_eq_left (by omega), Nat.add_zero,
    blockOf_blockAddr]
  rfl

variable {x : Nat}

theorem finishedDisk_high (hfew : files.length ≤ 128) (hn : usedBlocks files ≤ 1024)
    (hx : blockAddr 3 ≤ x) : finishedDisk mem files x =
      mem.move (blockAddr (nextBlock files)) entsAddr (files.length * 256) x := by
  have hrb : rootBlocks files.length ≤ 8 := by
    unfold rootBlocks
    omega
  unfold finishedDisk
  rw [clearBits_apply_of_not_mem (by omega) (.inr hx), storeRun_apply_of_not_mem,
    storeNat_apply_of_not_mem]
  · unfold sizeAddr rootAddr superAddr blockAddr at *
    omega
  · unfold directAddr rootAddr superAddr blockAddr at *
    omega

theorem finishedDisk_low (hfew : files.length ≤ 128) (hn : usedBlocks files ≤ 1024)
    (hx : x < blockAddr 2) (hsize : x < sizeAddr rootAddr ∨ sizeAddr rootAddr + 4 ≤ x)
    (hdirect : x < directAddr rootAddr 0 ∨ directAddr rootAddr 10 ≤ x) :
    finishedDisk mem files x = mem x := by
  have hrb : rootBlocks files.length ≤ 8 := by
    unfold rootBlocks
    omega
  have hstart : 3 ≤ nextBlock files := Nat.le_add_right _ _
  unfold finishedDisk
  rw [clearBits_apply_of_not_mem (by omega) (.inl hx), storeRun_apply_of_not_mem,
    storeNat_apply_of_not_mem hsize, move_apply_of_not_mem]
  · unfold blockAddr at *
    omega
  · unfold directAddr at *
    omega

theorem Written.image (hn : nblocks ≤ 1024) (hwritten : Written nblocks heap low files s)
    (hlow : Opened nblocks low) (hroom : usedBlocks files < nblocks) :
    Image nblocks heap files (finishedDisk s.mem files) := by
  have hfew := hwritten.few
  have hused : usedBlocks files ≤ 1024 := by omega
  have hstart : 3 ≤ nextBlock files := Nat.le_add_right _ _
  have hopened := hlow.congr hwritten.low
  have hrb : rootBlocks files.length ≤ 8 := by
    unfold rootBlocks
    omega
  have hword : ∀ a, a + 4 ≤ blockAddr 2 → (a + 4 ≤ sizeAddr rootAddr ∨ sizeAddr rootAddr + 4 ≤ a) →
      (a + 4 ≤ directAddr rootAddr 0 ∨ directAddr rootAddr 10 ≤ a) →
      (finishedDisk s.mem files).loadNat a 4 = s.mem.loadNat a 4 := fun a ha hsize hdirect =>
    loadNat_congr fun x _ _ => finishedDisk_low hfew hused (by omega) (by omega) (by omega)
  have hmoved : ∀ x, blockAddr (nextBlock files) + 256 * files.length ≤ x →
      finishedDisk s.mem files x = s.mem x := by
    intro x hx
    rw [finishedDisk_high hfew hused (by unfold blockAddr at *; omega),
      move_apply_of_not_mem (.inr (by omega))]
  refine ⟨hroom, (hword _ ?_ ?_ ?_).trans hopened.magic, (hword _ ?_ ?_ ?_).trans hopened.nblocks, ?_,
    (hword _ ?_ ?_ ?_).trans hopened.type, ?_, ?_, (hword _ ?_ ?_ ?_).trans ?_, ?_, ?_, ?_, hfew⟩
  any_goals
    simp only [indirectAddr, typeAddr, sizeAddr, directAddr, rootAddr, superAddr, blockAddr]
    omega
  · unfold finishedDisk
    rw [loadNat_congr fun x hle hlt => clearBits_apply_of_not_mem (by omega) (.inl ?_),
      loadNat_storeRun_of_disjoint (by unfold sizeAddr directAddr; omega),
      loadNat_storeNat_self]
    · omega
    · unfold sizeAddr rootAddr superAddr blockAddr at *
      omega
  · intro i hi
    have haddr : directAddr rootAddr i = directAddr rootAddr 0 + 4 * i := rfl
    unfold finishedDisk
    rw [haddr, loadNat_congr fun x hle hlt => clearBits_apply_of_not_mem (by omega) (.inl ?_),
      loadNat_storeRun hi]
    · unfold usedBlocks at hused
      omega
    · unfold directAddr rootAddr superAddr blockAddr at *
      omega
  · intro i hten hi
    have hblocks : 1 ≤ rootBlocks files.length := le_max_left _ _
    refine loadNat_eq_zero fun x hle hlt => ?_
    unfold finishedDisk
    rw [clearBits_apply_of_not_mem (by omega) (.inl ?_),
      storeRun_apply_of_not_mem (.inr ?_), storeNat_apply_of_not_mem (.inr ?_),
      move_apply_of_not_mem (.inl ?_)]
    · refine hopened.blank x ?_ ?_ <;> unfold directAddr at * <;> omega
    · unfold directAddr rootAddr superAddr blockAddr at *
      omega
    · unfold directAddr sizeAddr at *
      omega
    · unfold directAddr at *
      omega
    · unfold directAddr rootAddr superAddr blockAddr at *
      omega
  · refine loadNat_eq_zero fun x hle hlt => hopened.blank x ?_ ?_ <;>
      unfold indirectAddr at * <;> omega
  · intro j hj
    have hspan := Written.span_le hj
    refine (hwritten.laid j hj).move (fun i hi => ?_) fun x hle hlt => ?_
    · rw [finishedDisk_high hfew hused (by unfold blockAddr at *; omega), Bytes.move,
        if_pos (by omega)]
      congr 1
      omega
    · have hthree : 3 ≤ nextBlock (files.take j) := Nat.le_add_right _ _
      rw [finishedDisk_high hfew hused (by unfold blockAddr at *; omega),
        move_apply_of_not_mem (.inl (by unfold blockAddr at *; omega))]
  · intro x hle hlt
    rw [hmoved x hle]
    exact hwritten.blank x (by omega) hlt
  · intro b hb
    have hbit : ∀ x, bitmapAddr b ≤ x → x < bitmapAddr b + 4 →
        ((s.mem.move (blockAddr (nextBlock files)) entsAddr (files.length * 256)).storeNat
          (sizeAddr rootAddr) 4 (4096 * rootBlocks files.length)).storeRun (directAddr rootAddr 0)
            (nextBlock files) (rootBlocks files.length) x = s.mem x := by
      intro x hle hlt
      rw [storeRun_apply_of_not_mem, storeNat_apply_of_not_mem,
        move_apply_of_not_mem]
      · unfold bitmapAddr blockAddr at *
        omega
      · unfold bitmapAddr sizeAddr rootAddr superAddr blockAddr at *
        omega
      · unfold bitmapAddr directAddr rootAddr superAddr blockAddr at *
        omega
    unfold finishedDisk
    rw [clearBits_testBit, loadNat_congr hbit, hopened.bits b (by omega), Bool.and_true]

theorem image_of_fsformat (hrun : fsformat heap nblocks files = .ok s) :
    nblocks ≤ 1024 ∧ Image nblocks heap files s.mem := by
  unfold fsformat at hrun
  split at hrun
  · cases hrun
  · next husage =>
      have hn : nblocks ≤ 1024 := by omega
      obtain ⟨first, hopen, hrest⟩ := bind_eq_ok.mp hrun
      obtain ⟨hroom, rfl⟩ := openDisk_eq hn hopen
      obtain ⟨mid, hfiles, hrest⟩ := bind_eq_ok.mp hrest
      have hwritten := (written_nil hroom).foldlM hn hfiles
      rw [List.nil_append] at hwritten
      obtain ⟨last, hfinish, hrest⟩ := bind_eq_ok.mp hrest
      cases pure_eq_ok.mp hrest
      obtain ⟨hused, hmem⟩ := hwritten.finishDisk_eq hfinish
      refine ⟨hn, ?_⟩
      rw [hmem]
      exact hwritten.image hn (opened_opened hroom hn) hused

end Fs

end ZynexOS
