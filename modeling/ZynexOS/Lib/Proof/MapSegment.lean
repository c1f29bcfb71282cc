import ZynexOS.Lib.MapSegment
import ZynexOS.Lib.Proof.ForkSpaces

/-! # `spawn` maps segments -/

namespace ZynexOS

open Function

namespace SegmentFile

variable {file : SegmentFile} {io : Int → Int} {offset : Int} {n : Nat}

theorem le_of_count_eq_zero {wanted pos : Int} {n : Nat} (hn : 0 < n)
    (h : file.count wanted pos n = 0) : file.size ≤ pos := by
  unfold count at h
  omega

theorem add_count_le {wanted pos : Int} {n : Nat} (h : file.count wanted pos n ≠ 0) :
    pos + file.count wanted pos n ≤ file.size := by
  unfold count at h ⊢
  omega

theorem count_le (file : SegmentFile) (wanted pos : Int) (n : Nat) : file.count wanted pos n ≤ n := by
  unfold count
  omega

theorem fill_fill (file : SegmentFile) (offset : Int) (tot m k : Nat) (page : Nat → BitVec 8) :
    file.fill offset (tot + m) k (file.fill offset tot m page) = file.fill offset tot (m + k) page := by
  funext j
  unfold fill
  grind

theorem fill_zero (file : SegmentFile) (offset : Int) (tot : Nat) (page : Nat → BitVec 8) :
    file.fill offset tot 0 page = page := by
  funext j
  exact if_neg (by omega)

theorem readn_spec (tot : Nat) (page : Nat → BitVec 8) (htot : tot ≤ n)
    (hr : 0 ≤ (file.readn io offset n tot page).1) :
    ∃ t, tot ≤ t ∧ t ≤ n ∧
      file.readn io offset n tot page = ((t : Int), file.fill offset tot (t - tot) page) ∧
      (tot < t → offset + t ≤ file.size) ∧ (t < n → file.size ≤ offset + t) := by
  fun_induction readn file io offset n tot page with
  | case1 tot page hlt herr => exact absurd hr (not_le.mpr herr)
  | case2 tot page hlt herr m hm =>
      have hend := le_of_count_eq_zero (Nat.sub_pos_of_lt hlt) hm
      exact ⟨tot, le_rfl, htot, by rw [Nat.sub_self, fill_zero], fun h => absurd h (lt_irrefl _),
        fun _ => hend⟩
  | case3 tot page hlt herr m hm ih =>
      have hle : m ≤ n - tot := count_le file _ _ _
      have hin : offset + tot + m ≤ file.size := add_count_le hm
      obtain ⟨t, hge, htn, heq, hfile, hend⟩ := ih (by omega) hr
      refine ⟨t, by omega, htn, ?_, fun _ => ?_, hend⟩
      · rw [heq, fill_fill, show m + (t - (tot + m)) = t - tot by omega]
      · rcases hge.eq_or_lt with rfl | hlt'
        · push_cast
          omega
        · exact hfile hlt'
  | case4 tot page hge =>
      obtain rfl : tot = n := by omega
      exact ⟨tot, le_rfl, le_rfl, by rw [Nat.sub_self, fill_zero], fun h => absurd h (lt_irrefl _),
        fun h => absurd h (lt_irrefl _)⟩

theorem readn_of_le (hend : offset + n ≤ file.size) (page : Nat → BitVec 8)
    (hr : 0 ≤ (file.readn io offset n 0 page).1) :
    file.readn io offset n 0 page = ((n : Int), file.fill offset 0 n page) := by
  obtain ⟨t, -, htn, heq, -, hlast⟩ := readn_spec 0 page (Nat.zero_le n) hr
  obtain rfl : t = n := by
    by_contra hne
    have := hlast (by omega)
    omega
  exact heq

theorem readn_nonneg (hio : ∀ pos, 0 ≤ io pos) (tot : Nat) (page : Nat → BitVec 8) :
    0 ≤ (file.readn io offset n tot page).1 := by
  fun_induction readn file io offset n tot page with
  | case1 tot page hlt herr => exact absurd herr (not_lt.mpr (hio _))
  | case2 => exact Int.natCast_nonneg _
  | case3 tot page hlt herr m hm ih => exact ih
  | case4 => exact Int.natCast_nonneg _

end SegmentFile

namespace Family

variable {s s₀ s' : Family} {file : SegmentFile} {seg : Segment} {io : SegmentIo} {n : Nat}

structure Gains (s : Family) (pn : Nat) (perm : Perm) (byte : Nat → BitVec 8) (s' : Family) : Prop where
  child : s'.space .child = update (s.space .child) pn (some ⟨s.next, perm⟩)
  next : s'.next = s.next + 1
  page : ∀ j < 4096, s'.data s.next j = byte j
  data : ∀ frame, frame ≠ s.next → s'.data frame = s.data frame

theorem Gains.congr {pn : Nat} {perm : Perm} {byte byte' : Nat → BitVec 8}
    (h : s.Gains pn perm byte s') (hbyte : ∀ j < 4096, byte j = byte' j) : s.Gains pn perm byte' s' :=
  ⟨h.child, h.next, fun j hj => (h.page j hj).trans (hbyte j hj), h.data⟩

structure Paged (seg : Segment) (file : SegmentFile) : Prop where
  va : seg.va % 4096 = 0
  filesz : seg.filesz ≤ seg.memsz
  memsz : seg.memsz < 2 ^ 30 + 4096
  end_lt : seg.va + seg.memsz < 2 ^ 64
  offset : 0 ≤ seg.fileoffset
  offset_lt : seg.fileoffset + seg.memsz < 2 ^ 31
  file : seg.fileoffset + seg.filesz ≤ file.size

theorem Paged.pageAt (h : Paged seg file) (hn : 4096 * n < seg.memsz) :
    seg.pageAt (4096 * n : Nat) = seg.va / 4096 + n := by
  have hend := h.end_lt
  have hva := h.va
  unfold Segment.pageAt
  rw [← Nat.cast_add, uint64_natCast (by omega)]
  omega

theorem Paged.readn_page (h : Paged seg file) (hn : 4096 * n < seg.filesz) {read : Int → Int}
    (hr : 0 ≤ (file.readn read (int32 (seg.fileoffset + (4096 * n : Nat)))
      (min 4096 (uint64 (seg.filesz - (4096 * n : Nat)))) 0 fun _ => 0).1) :
    ∀ j < 4096, (file.readn read (int32 (seg.fileoffset + (4096 * n : Nat)))
      (min 4096 (uint64 (seg.filesz - (4096 * n : Nat)))) 0 fun _ => 0).2 j =
        segmentByte file seg (4096 * n + j) := by
  intro j hj
  have hfilesz := h.filesz
  have hmemsz := h.memsz
  have hlt := h.offset_lt
  have hfile := h.file
  obtain ⟨o, ho⟩ := Int.eq_ofNat_of_zero_le h.offset
  have hpos : int32 (seg.fileoffset + (4096 * n : Nat)) = seg.fileoffset + (4096 * n : Nat) := by
    rw [ho, ← Nat.cast_add, int32_natCast (by omega)]
  have hcount : uint64 (seg.filesz - (4096 * n : Nat)) = seg.filesz - 4096 * n := by
    rw [← Nat.cast_sub hn.le, uint64_natCast (by omega)]
  rw [hpos, hcount] at hr ⊢
  rw [SegmentFile.readn_of_le (by omega) _ hr]
  unfold SegmentFile.fill segmentByte
  dsimp only
  by_cases hin : 4096 * n + j < seg.filesz
  · rw [if_pos (by omega), if_pos hin, Nat.cast_add, add_assoc]
  · rw [if_neg (by omega), if_neg hin]

theorem data_pageAlloc_next (s : Family) (side : Side) (pn : Nat) (perm : Perm) :
    (s.pageAlloc side pn perm).data s.next = fun _ => 0 := update_self ..

theorem gains_pageAlloc (s : Family) (pn : Nat) (perm : Perm) :
    s.Gains pn perm (fun _ => 0) (s.pageAlloc .child pn perm) where
  child := by rw [space_pageAlloc, space_set_self]
  next := rfl
  page _ _ := by rw [data_pageAlloc_next]
  data _ hne := update_of_ne hne ..

def gaveTemp (s : Family) (pn : Nat) (perm : Perm) (page : Nat → BitVec 8) : Family :=
  (((s.pageAlloc .parent pnTemp .readWrite).putPage s.next page).set .child pn
    (some ⟨s.next, perm⟩)).set .parent pnTemp none

theorem gains_gaveTemp (s : Family) (pn : Nat) (perm : Perm) (page : Nat → BitVec 8) :
    s.Gains pn perm page (s.gaveTemp pn perm page) where
  child := by
    unfold gaveTemp
    rw [space_set_of_ne (by decide), space_set_self]
    show update ((s.pageAlloc .parent pnTemp .readWrite).space .child) pn _ = _
    rw [space_pageAlloc, space_set_of_ne (by decide)]
  next := rfl
  page j _ := by
    show update (s.pageAlloc .parent pnTemp .readWrite).data s.next page s.next j = page j
    rw [update_self]
  data frame hne := by
    show update (update s.data s.next _) s.next page frame = s.data frame
    rw [update_of_ne hne, update_of_ne hne]

theorem pageMap_temp (s : Family) (pn : Nat) (perm : Perm) (page : Nat → BitVec 8) :
    ((s.pageAlloc .parent pnTemp .readWrite).putPage s.next page).pageMap .parent pnTemp .child pn perm =
      some (((s.pageAlloc .parent pnTemp .readWrite).putPage s.next page).set .child pn
        (some ⟨s.next, perm⟩)) := by
  have htemp : ((s.pageAlloc .parent pnTemp .readWrite).putPage s.next page).space .parent pnTemp =
      some ⟨s.next, .readWrite⟩ := by
    show (s.pageAlloc .parent pnTemp .readWrite).space .parent pnTemp = _
    rw [space_pageAlloc, space_set_self, update_self]
  exact pageMap_of_some htemp fun _ => rfl

theorem Paged.mapRound (h : Paged seg file) (hn : 4096 * n < seg.memsz) {r : Int}
    (hrun : s.mapRound file seg io (4096 * n : Nat) = some (r, s')) (hr : 0 ≤ r) :
    s.Gains (seg.va / 4096 + n) seg.perm (fun j => segmentByte file seg (4096 * n + j)) s' := by
  have hmemsz := h.memsz
  unfold Family.mapRound at hrun
  rw [uint64_natCast (by omega), h.pageAt hn] at hrun
  split at hrun
  case isTrue hblank =>
    split at hrun
    case isTrue => cases hrun; omega
    case isFalse =>
      cases hrun
      have hzero : (fun j => segmentByte file seg (4096 * n + j)) = fun _ => 0 :=
        funext fun j => if_neg (by omega)
      rw [hzero]
      exact gains_pageAlloc s _ _
  case isFalse hfile =>
    unfold mapFromFile at hrun
    dsimp only at hrun
    rw [h.pageAt hn, data_pageAlloc_next, pageMap_temp] at hrun
    split_ifs at hrun with halloc hseek hread hmap
    · cases hrun; omega
    · cases hrun; omega
    · cases hrun; omega
    · obtain ⟨-, rfl⟩ := Prod.mk.inj (Option.some.inj hrun)
      exact (gains_gaveTemp s _ _ _).congr (h.readn_page (not_le.mp hfile) (not_lt.mp hread))

theorem exists_mapRound (s : Family) (file : SegmentFile) (seg : Segment) (i : Int)
    (halloc : 0 ≤ io.alloc) (hseek : 0 ≤ io.seek) (hread : ∀ pos, 0 ≤ io.read pos) (hmap : 0 ≤ io.map) :
    ∃ s', s.mapRound file seg io i = some (0, s') := by
  unfold mapRound
  split
  · rw [if_neg (not_lt.mpr halloc)]
    exact ⟨_, rfl⟩
  · unfold mapFromFile
    dsimp only
    rw [if_neg (not_lt.mpr halloc), if_neg (not_lt.mpr hseek),
      if_neg (not_lt.mpr (SegmentFile.readn_nonneg hread _ _)), if_neg (not_lt.mpr hmap), pageMap_temp]
    exact ⟨_, rfl⟩

structure Mapped (s : Family) (file : SegmentFile) (seg : Segment) (n : Nat) (s' : Family) : Prop where
  next : s.next ≤ s'.next
  pages : ∀ k < n, ∃ frame, s.next ≤ frame ∧ frame < s'.next ∧
    s'.space .child (seg.va / 4096 + k) = some ⟨frame, seg.perm⟩ ∧
      ∀ j < 4096, s'.data frame j = segmentByte file seg (4096 * k + j)
  space : ∀ pn, (pn < seg.va / 4096 ∨ seg.va / 4096 + n ≤ pn) → s'.space .child pn = s.space .child pn
  data : ∀ frame < s.next, s'.data frame = s.data frame

theorem Mapped.zero (s : Family) (file : SegmentFile) (seg : Segment) : s.Mapped file seg 0 s :=
  ⟨le_rfl, nofun, fun _ _ => rfl, fun _ _ => rfl⟩

theorem Mapped.succ (h : s₀.Mapped file seg n s)
    (hgains : s.Gains (seg.va / 4096 + n) seg.perm (fun j => segmentByte file seg (4096 * n + j)) s') :
    s₀.Mapped file seg (n + 1) s' where
  next := h.next.trans (by rw [hgains.next]; exact Nat.le_succ _)
  pages k hk := by
    rw [hgains.child, hgains.next]
    rcases Nat.lt_succ_iff_lt_or_eq.mp hk with hlt | rfl
    · obtain ⟨frame, hge, hframe, hspace, hbytes⟩ := h.pages k hlt
      refine ⟨frame, hge, hframe.trans (Nat.lt_succ_self _), ?_, fun j hj => ?_⟩
      · rw [update_of_ne (by omega), hspace]
      · rw [hgains.data frame hframe.ne, hbytes j hj]
    · exact ⟨s.next, h.next, Nat.lt_succ_self _, update_self .., hgains.page⟩
  space pn hpn := by
    rw [hgains.child, update_of_ne (by omega), h.space pn (by omega)]
  data frame hframe := by
    rw [hgains.data frame (hframe.trans_le h.next).ne, h.data frame hframe]

def pageCount (seg : Segment) : Nat := (seg.memsz + 4095) / 4096

theorem lt_pageCount : n < pageCount seg ↔ 4096 * n < seg.memsz := by
  unfold pageCount
  omega

theorem mapLoop_of_ge {i : Int} (hi : ¬uint64 i < seg.memsz) (ios : List SegmentIo) (s : Family) :
    mapLoop file seg ios i s = some (0, s) := by
  unfold mapLoop
  rw [if_neg hi]

theorem mapLoop_nil {i : Int} (hi : uint64 i < seg.memsz) (s : Family) :
    mapLoop file seg [] i s = none := by
  unfold mapLoop
  rw [if_pos hi]

theorem mapLoop_cons {i : Int} (hi : uint64 i < seg.memsz) (io : SegmentIo) (ios : List SegmentIo)
    (s : Family) :
    mapLoop file seg (io :: ios) i s = (s.mapRound file seg io i).bind fun p =>
      if p.1 < 0 then some p else mapLoop file seg ios (int32 (i + 4096)) p.2 := by
  conv_lhs => unfold mapLoop
  rw [if_pos hi]
  rfl

theorem Paged.uint64_index (h : Paged seg file) (hn : n ≤ pageCount seg) :
    uint64 (4096 * n : Nat) = 4096 * n := by
  have hmemsz := h.memsz
  unfold pageCount at hn
  exact uint64_natCast (by omega)

theorem Paged.index_lt (h : Paged seg file) (hn : n < pageCount seg) :
    uint64 (4096 * n : Nat) < seg.memsz := by
  rw [h.uint64_index hn.le]
  exact lt_pageCount.mp hn

theorem Paged.int32_index (h : Paged seg file) (hn : n < pageCount seg) :
    int32 ((4096 * n : Nat) + 4096) = (4096 * (n + 1) : Nat) := by
  have hmemsz := h.memsz
  have hsucc : ((4096 * n : Nat) + 4096 : Int) = (4096 * (n + 1) : Nat) := by omega
  rw [lt_pageCount] at hn
  rw [hsucc, int32_natCast (by omega)]

theorem Paged.mapLoop_end (h : Paged seg file) (ios : List SegmentIo) (s : Family) :
    Family.mapLoop file seg ios (4096 * pageCount seg : Nat) s = some (0, s) := by
  apply mapLoop_of_ge
  rw [h.uint64_index le_rfl, ← lt_pageCount]
  exact lt_irrefl _

theorem Paged.mapLoop (h : Paged seg file) {ios : List SegmentIo} (hmapped : s₀.Mapped file seg n s)
    (hn : n ≤ pageCount seg) (hrun : Family.mapLoop file seg ios (4096 * n : Nat) s = some (0, s')) :
    s₀.Mapped file seg (pageCount seg) s' := by
  induction ios generalizing n s with
  | nil =>
      rcases hn.eq_or_lt with rfl | hlt
      · rw [h.mapLoop_end] at hrun
        cases hrun
        exact hmapped
      · rw [mapLoop_nil (h.index_lt hlt)] at hrun
        cases hrun
  | cons io ios ih =>
      rcases hn.eq_or_lt with rfl | hlt
      · rw [h.mapLoop_end] at hrun
        cases hrun
        exact hmapped
      rw [mapLoop_cons (h.index_lt hlt), h.int32_index hlt] at hrun
      obtain ⟨⟨r, t⟩, hround, hrest⟩ := Option.bind_eq_some_iff.mp hrun
      dsimp only at hrest
      split_ifs at hrest with hr
      · cases hrest
        exact absurd hr (lt_irrefl _)
      · exact ih (hmapped.succ (h.mapRound (lt_pageCount.mp hlt) hround (not_lt.mp hr))) hlt hrest

def goodIo : SegmentIo := ⟨0, 0, fun _ => 0, 0⟩

theorem Paged.exists_mapLoop (h : Paged seg file) (k : Nat) (hn : n + k = pageCount seg) (s : Family) :
    ∃ s', Family.mapLoop file seg (.replicate k goodIo) (4096 * n : Nat) s = some (0, s') := by
  induction k generalizing n s with
  | zero =>
      obtain rfl : n = pageCount seg := hn
      exact ⟨s, h.mapLoop_end _ s⟩
  | succ k ih =>
      have hlt : n < pageCount seg := by omega
      obtain ⟨t, hround⟩ := @exists_mapRound goodIo s file seg (4096 * n : Nat) le_rfl le_rfl
        (fun _ => le_rfl) le_rfl
      rw [List.replicate_succ, mapLoop_cons (h.index_lt hlt), h.int32_index hlt, hround]
      exact ih (by omega) t

def fromPage (seg : Segment) : Segment :=
  { seg with
    va := seg.va - seg.va % 4096
    memsz := seg.memsz + seg.va % 4096
    filesz := seg.filesz + seg.va % 4096
    fileoffset := seg.fileoffset - (seg.va % 4096 : Nat) }

theorem aligned_eq_fromPage (h : seg.Linked file) : seg.aligned = fromPage seg := by
  obtain ⟨hpgoff, hfilesz, hmemsz, hva, hoffset, hend, -⟩ := h
  obtain ⟨o, ho⟩ := Int.eq_ofNat_of_zero_le hoffset
  have hmod : o % 4096 = seg.va % 4096 := by omega
  unfold Segment.aligned fromPage
  dsimp only
  split_ifs with hi
  · have hcast : (seg.va : Int) % 4096 = (seg.va % 4096 : Nat) := by omega
    rw [hcast, ho, ← Nat.cast_sub (Nat.mod_le ..), ← Nat.cast_add, ← Nat.cast_add,
      ← Nat.cast_sub (hmod ▸ Nat.mod_le ..), uint64_natCast (by omega), uint64_natCast (by omega),
      uint64_natCast (by omega), int32_natCast (by omega)]
  · have hzero : seg.va % 4096 = 0 := by omega
    rw [hzero, Nat.sub_zero, Nat.add_zero, Nat.add_zero, Nat.cast_zero, sub_zero]

theorem paged_fromPage (h : seg.Linked file) : Paged (fromPage seg) file := by
  obtain ⟨hpgoff, hfilesz, hmemsz, hva, hoffset, hend, hfile⟩ := h
  unfold fromPage
  constructor <;> dsimp only <;> omega

theorem segmentByte_fromPage (file : SegmentFile) (seg : Segment) (k : Nat) :
    segmentByte file (fromPage seg) (seg.va % 4096 + k) = segmentByte file seg k := by
  have hpos : seg.fileoffset - (seg.va % 4096 : Nat) + (seg.va % 4096 + k : Nat) =
      seg.fileoffset + k := by omega
  unfold segmentByte fromPage
  dsimp only
  rw [hpos, Nat.add_comm (seg.va % 4096) k]
  exact if_congr (Nat.add_lt_add_iff_right ..) rfl rfl

theorem va_fromPage_div (seg : Segment) : (fromPage seg).va / 4096 = seg.va / 4096 := by
  unfold fromPage
  dsimp only
  omega

theorem lt_pageCount_fromPage : n < pageCount (fromPage seg) ↔ 4096 * n < seg.memsz + seg.va % 4096 :=
  lt_pageCount

theorem exists_of_lt_pageCount (hcond : 0 < seg.memsz ∨ seg.va % 4096 = 0)
    (hn : n < pageCount (fromPage seg)) : ∃ k < seg.memsz, (seg.va + k) / 4096 = seg.va / 4096 + n := by
  rw [lt_pageCount_fromPage] at hn
  exact ⟨4096 * n - seg.va % 4096, by omega, by omega⟩

theorem Mapped.mapsSegment (h : s.Mapped file (fromPage seg) (pageCount (fromPage seg)) s')
    (hbounded : s.Bounded) (hcond : 0 < seg.memsz ∨ seg.va % 4096 = 0) :
    s.MapsSegment file seg s' := by
  have hpages := h.pages
  have hspace := h.space
  rw [va_fromPage_div] at hpages hspace
  refine ⟨fun k hk => ?_, fun pn hpn => hspace pn ?_, fun pn m _ hm => h.data _ (hbounded _ _ _ hm)⟩
  · obtain ⟨frame, -, -, hframe, hbytes⟩ := hpages ((seg.va % 4096 + k) / 4096)
      (lt_pageCount_fromPage.mpr (by omega))
    have hpn : seg.va / 4096 + (seg.va % 4096 + k) / 4096 = (seg.va + k) / 4096 := by omega
    rw [hpn] at hframe
    refine ⟨_, hframe, rfl, ?_⟩
    have hbyte := hbytes ((seg.va % 4096 + k) % 4096) (Nat.mod_lt _ (by decide))
    rw [Nat.div_add_mod, segmentByte_fromPage, Nat.mod_add_mod] at hbyte
    exact hbyte
  · by_contra hnot
    obtain ⟨k, hk, heq⟩ := exists_of_lt_pageCount hcond
      (show pn - seg.va / 4096 < pageCount (fromPage seg) by omega)
    exact hpn k hk (by omega)

theorem Mapped.not_mapsSegment (h : s.Mapped file (fromPage seg) (pageCount (fromPage seg)) s')
    (hbounded : s.Bounded) (hempty : seg.memsz = 0) (hva : seg.va % 4096 ≠ 0) :
    ¬s.MapsSegment file seg s' := by
  intro hmaps
  obtain ⟨frame, hge, -, hframe, -⟩ := h.pages 0 (lt_pageCount_fromPage.mpr (by omega))
  rw [hmaps.space _ fun k hk => by omega] at hframe
  exact absurd (hbounded _ _ _ hframe) (not_lt.mpr hge)

/-- The segment is mapped as it should be whenever `map_segment` succeeds, unless the segment is empty
and not at the start of a page. -/
theorem mapSegment_faithful_iff (hbounded : s.Bounded) (hseg : seg.Linked file) :
    (∀ ios s', s.mapSegment ios file seg = some (0, s') → s.MapsSegment file seg s') ↔
      0 < seg.memsz ∨ seg.va % 4096 = 0 := by
  have hpaged := paged_fromPage hseg
  have hloop : ∀ ios s', mapLoop file (fromPage seg) ios 0 s = some (0, s') →
      s.Mapped file (fromPage seg) (pageCount (fromPage seg)) s' :=
    fun ios s' hrun => hpaged.mapLoop (Mapped.zero ..) (Nat.zero_le _) hrun
  unfold mapSegment
  rw [aligned_eq_fromPage hseg]
  constructor
  · intro h
    by_contra hnot
    obtain ⟨s', hrun⟩ := hpaged.exists_mapLoop _ (Nat.zero_add _) s
    exact (hloop _ s' hrun).not_mapsSegment hbounded (by omega) (by omega) (h _ s' hrun)
  · intro hcond ios s' hrun
    exact (hloop ios s' hrun).mapsSegment hbounded hcond

def noPages : Family where
  space _ _ := none
  data _ _ := 0
  next := 0

def dataSegment (memsz : Nat) : Segment where
  va := 0x800010
  memsz := memsz
  filesz := memsz - 0x800
  fileoffset := 0x1010
  perm := .readWrite

def codeFile : SegmentFile where
  bytes _ := 0x13
  size := 0x10000

theorem linked_dataSegment {memsz : Nat} (h : memsz ≤ 0x2000) : (dataSegment memsz).Linked codeFile := by
  unfold dataSegment codeFile
  constructor <;> dsimp only <;> omega

theorem mapSegment_dataSegment :
    noPages.Bounded ∧ (dataSegment 0x2000).Linked codeFile ∧
      ∀ ios s', noPages.mapSegment ios codeFile (dataSegment 0x2000) = some (0, s') →
        noPages.MapsSegment codeFile (dataSegment 0x2000) s' := by
  have hbounded : noPages.Bounded := nofun
  have hlinked := linked_dataSegment (le_refl 0x2000)
  exact ⟨hbounded, hlinked, (mapSegment_faithful_iff hbounded hlinked).mpr (.inl (by decide))⟩

/-- An empty segment at `0x800010` gets a page that it has no byte in. -/
theorem mapSegment_emptySegment :
    noPages.Bounded ∧ (dataSegment 0).Linked codeFile ∧
      ∃ s', noPages.mapSegment [goodIo] codeFile (dataSegment 0) = some (0, s') ∧
        ¬noPages.MapsSegment codeFile (dataSegment 0) s' := by
  have hbounded : noPages.Bounded := nofun
  have hlinked := linked_dataSegment (Nat.zero_le 0x2000)
  have hpaged := paged_fromPage hlinked
  obtain ⟨s', hrun⟩ := hpaged.exists_mapLoop 1 (show 0 + 1 = _ by decide) noPages
  refine ⟨hbounded, hlinked, s', ?_, ?_⟩
  · unfold mapSegment
    rw [aligned_eq_fromPage hlinked]
    exact hrun
  · exact (hpaged.mapLoop (Mapped.zero ..) (Nat.zero_le _) hrun).not_mapsSegment hbounded rfl (by decide)

end Family

end ZynexOS
