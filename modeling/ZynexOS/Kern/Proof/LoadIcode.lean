import ZynexOS.Kern.LoadIcode

/-!
# When the kernel loads a program

`region_alloc` rounds the start down before it adds the length, so it can miss the last page.
-/

namespace ZynexOS

open Function

theorem pageIndex_inj {p q : Nat} (hp : CanonicalPage p) (hq : CanonicalPage q)
    (h : pageIndex p = pageIndex q) : p = q := by
  unfold CanonicalPage pageIndex at *
  omega

namespace Loader

variable {s s' : Loader} {pn n a base : Nat} {byte : Nat → BitVec 8}

/-! ### `region_alloc` -/

def inserted (s : Loader) (pn : Nat) : Loader :=
  { s with env := update s.env (pageIndex pn) (some s.next), next := s.next + 1 }

theorem pageInsert_eq (h : pageSlot pn ≠ selfSlot) : s.pageInsert pn = some (s.inserted pn) :=
  if_neg h

theorem slot_of_pageInsert (h : s.pageInsert pn = some s') : pageSlot pn ≠ selfSlot := by
  intro hslot
  unfold pageInsert at h
  rw [if_pos hslot] at h
  cases h

structure Mapped (s : Loader) (pn n : Nat) (s' : Loader) : Prop where
  next : s'.next = s.next + n
  data : s'.data = s.data
  kern : s'.kern = s.kern
  other : ∀ i, (∀ j < n, i ≠ pageIndex (pn + j)) → s'.env i = s.env i
  slot : ∀ j < n, pageSlot (pn + j) ≠ selfSlot
  shared : ∀ j < n, s'.shared (pageSlot (pn + j)) = true
  env : (∀ j < n, CanonicalPage (pn + j)) → ∀ j < n, s'.env (pageIndex (pn + j)) = some (s.next + j)

theorem Mapped.zero (s : Loader) (pn : Nat) : s.Mapped pn 0 s :=
  ⟨rfl, rfl, rfl, fun _ _ => rfl, nofun, nofun, nofun⟩

theorem mapPage_eq (h : pageSlot pn ≠ selfSlot) : s.mapPage pn =
    some { s.inserted pn with shared := update s.shared (pageSlot pn) true } := by
  unfold mapPage
  rw [pageInsert_eq h]
  rfl

theorem Mapped.succ {t : Loader} (h : s.Mapped pn n t) (hrun : t.mapPage (pn + n) = some s') :
    s.Mapped pn (n + 1) s' := by
  have hslot : pageSlot (pn + n) ≠ selfSlot := by
    obtain ⟨u, hu, -⟩ := Option.bind_eq_some_iff.mp hrun
    exact slot_of_pageInsert hu
  rw [mapPage_eq hslot] at hrun
  cases hrun
  refine ⟨?_, h.data, h.kern, ?_, ?_, ?_, ?_⟩
  · show t.next + 1 = s.next + (n + 1)
    rw [h.next, Nat.add_assoc]
  · intro i hi
    show update t.env _ _ i = s.env i
    rw [update_of_ne (hi n (Nat.lt_succ_self n)),
      h.other i fun j hj => hi j (hj.trans (Nat.lt_succ_self n))]
  · intro j hj
    rcases Nat.lt_succ_iff_lt_or_eq.mp hj with hlt | rfl
    · exact h.slot j hlt
    · exact hslot
  · intro j hj
    show update t.shared _ true _ = true
    by_cases heq : pageSlot (pn + j) = pageSlot (pn + n)
    · rw [heq, update_self]
    · rw [update_of_ne heq]
      exact h.shared j (lt_of_le_of_ne (Nat.lt_succ_iff.mp hj) fun h => heq (by rw [h]))
  · intro hcanonical j hj
    show update t.env _ _ _ = _
    rcases Nat.lt_succ_iff_lt_or_eq.mp hj with hlt | rfl
    · rw [update_of_ne, h.env (fun i hi => hcanonical i (hi.trans (Nat.lt_succ_self n))) j hlt]
      intro heq
      have := pageIndex_inj (hcanonical j hj) (hcanonical n (Nat.lt_succ_self n)) heq
      omega
    · rw [update_self, h.next]

theorem mapPages_mapped (hrun : s.mapPages pn n = some s') : s.Mapped pn n s' := by
  induction n generalizing s' with
  | zero =>
      cases hrun
      exact Mapped.zero s pn
  | succ n ih =>
      obtain ⟨t, ht, hlast⟩ := Option.bind_eq_some_iff.mp hrun
      exact (ih ht).succ hlast

theorem exists_mapPages (hslot : ∀ j < n, pageSlot (pn + j) ≠ selfSlot) :
    ∃ s', s.mapPages pn n = some s' := by
  induction n with
  | zero => exact ⟨s, rfl⟩
  | succ n ih =>
      obtain ⟨t, ht⟩ := ih fun j hj => hslot j (hj.trans (Nat.lt_succ_self n))
      unfold mapPages
      rw [ht, Option.bind_eq_bind, Option.bind_some, mapPage_eq (hslot n (Nat.lt_succ_self n))]
      exact ⟨_, rfl⟩

theorem regionAlloc_eq {va len : Nat} (hva : va < 2 ^ 64) (hlen : 0 < len → va + len ≤ 2 ^ 64 - 4096) :
    s.regionAlloc va len = s.mapPages (va / 4096) ((len + 4095) / 4096) := by
  have hcast : ((va / 4096 * 4096 : Nat) + (len : Int) + 4095) =
      (va / 4096 * 4096 + len + 4095 : Nat) := by
    rw [Nat.cast_add, Nat.cast_add]
    rfl
  have hpages : ((va / 4096 * 4096 + len + 4095) / 4096 * 4096 - va / 4096 * 4096) / 4096 =
      (len + 4095) / 4096 := by omega
  unfold regionAlloc
  dsimp only
  rw [hcast, uint64_natCast (by omega), hpages, Nat.mul_div_cancel _ (by decide)]

/-! ### Filling pages -/

/-- The address of byte `o` of a physical page, where `base` is the physical page of page `pn`. -/
def addrOf (base pn frame o : Nat) : Nat := 4096 * (frame - base + pn) + o

structure Filled (s : Loader) (base pn a n : Nat) (byte : Nat → BitVec 8) (s' : Loader) : Prop where
  env : s'.env = s.env
  kern : s'.kern = s.kern
  shared : s'.shared = s.shared
  next : s'.next = s.next
  data : ∀ frame o, s'.data frame o =
    if base ≤ frame ∧ o < 4096 ∧ a ≤ addrOf base pn frame o ∧ addrOf base pn frame o < a + n then
      byte (addrOf base pn frame o - a)
    else s.data frame o

def Reaches (s : Loader) (base pn a n : Nat) : Prop :=
  ∀ k < n, s.kernPage ((a + k) / 4096) = some (base + ((a + k) / 4096 - pn))

theorem kernPage_congr (henv : s'.env = s.env) (hkern : s'.kern = s.kern) (hshared : s'.shared = s.shared)
    (q : Nat) : s'.kernPage q = s.kernPage q := by
  unfold kernPage
  rw [henv, hkern, hshared]

theorem addrOf_eq_iff {b frame o : Nat} (hpn : pn ≤ b / 4096) (hframe : base ≤ frame) (ho : o < 4096) :
    addrOf base pn frame o = b ↔ frame = base + (b / 4096 - pn) ∧ o = b % 4096 := by
  unfold addrOf
  omega

theorem fill_filled (hpn : pn ≤ a / 4096) (h : s.Reaches base pn a n) :
    ∃ s', s.fill a byte n = some s' ∧ s.Filled base pn a n byte s' := by
  induction n with
  | zero => exact ⟨s, rfl, rfl, rfl, rfl, rfl, fun frame o => (if_neg (by omega)).symm⟩
  | succ n ih =>
      obtain ⟨t, ht, hfilled⟩ := ih fun k hk => h k (hk.trans (Nat.lt_succ_self n))
      have hpage : t.kernPage ((a + n) / 4096) = some (base + ((a + n) / 4096 - pn)) := by
        rw [kernPage_congr hfilled.env hfilled.kern hfilled.shared]
        exact h n (Nat.lt_succ_self n)
      unfold fill
      rw [ht, Option.bind_eq_bind, Option.bind_some, store, hpage]
      refine ⟨_, rfl, hfilled.env, hfilled.kern, hfilled.shared, hfilled.next, fun frame o => ?_⟩
      have hlast : pn ≤ (a + n) / 4096 := hpn.trans (Nat.div_le_div_right (Nat.le_add_right a n))
      show update t.data _ (update _ _ (byte n)) frame o = _
      by_cases hat : frame = base + ((a + n) / 4096 - pn) ∧ o = (a + n) % 4096
      · have haddr := (addrOf_eq_iff hlast (by omega) (by omega)).mpr hat
        rw [haddr, if_pos (by omega), hat.1, hat.2, update_self, update_self,
          Nat.add_sub_cancel_left]
      · have hold : update t.data (base + ((a + n) / 4096 - pn))
            (update (t.data (base + ((a + n) / 4096 - pn))) ((a + n) % 4096) (byte n)) frame o =
              t.data frame o := by
          by_cases hframe : frame = base + ((a + n) / 4096 - pn)
          · rw [hframe, update_self, update_of_ne fun ho => hat ⟨hframe, ho⟩]
          · rw [update_of_ne hframe]
        have hne : base ≤ frame → o < 4096 → addrOf base pn frame o ≠ a + n := fun hframe ho haddr =>
          hat ((addrOf_eq_iff hlast hframe ho).mp haddr)
        rw [hold, hfilled.data]
        refine if_congr ⟨fun hin => ?_, fun hin => ?_⟩ rfl rfl
        · exact ⟨hin.1, hin.2.1, hin.2.2.1, by omega⟩
        · have := hne hin.1 hin.2.1
          exact ⟨hin.1, hin.2.1, hin.2.2.1, by omega⟩

/-! ### A segment -/

variable {image : ElfImage} {ph : LoadHeader}

structure Loaded (image : ElfImage) (ph : LoadHeader) (s s' : Loader) : Prop where
  next : s.next ≤ s'.next
  used : ∀ frame < s.next, s'.data frame = s.data frame
  other : ∀ i, (∀ k < ph.pMemsz, i ≠ pageIndex ((ph.pVa + k) / 4096)) → s'.env i = s.env i
  bytes : ∀ k < ph.pMemsz, ∃ frame, frame < s'.next ∧
    s'.env (pageIndex ((ph.pVa + k) / 4096)) = some frame ∧
      s'.data frame ((ph.pVa + k) % 4096) = image.byteAt ph k

theorem page_lt (hfits : ph.Fits) {k : Nat} (hk : k < ph.pMemsz) :
    (ph.pVa + k) / 4096 - ph.pVa / 4096 < (ph.pMemsz + 4095) / 4096 := by
  have hpages := hfits.pages (by omega)
  omega

theorem exists_byte {j : Nat} (hj : j < (ph.pMemsz + 4095) / 4096) :
    ∃ k < ph.pMemsz, (ph.pVa + k) / 4096 = ph.pVa / 4096 + j :=
  ⟨4096 * j - ph.pVa % 4096, by omega, by omega⟩

theorem loadablePage (hfits : ph.Fits) {j : Nat} (hj : j < (ph.pMemsz + 4095) / 4096) :
    LoadablePage (ph.pVa / 4096 + j) := by
  obtain ⟨k, hk, heq⟩ := exists_byte hj
  rw [← heq]
  exact hfits.loadable k hk

theorem exists_regionAlloc (hfits : ph.Fits) (s : Loader) :
    ∃ s', s.mapPages (ph.pVa / 4096) ((ph.pMemsz + 4095) / 4096) = some s' ∧
      s.Mapped (ph.pVa / 4096) ((ph.pMemsz + 4095) / 4096) s' := by
  obtain ⟨s', hrun⟩ := @exists_mapPages s (ph.pVa / 4096) ((ph.pMemsz + 4095) / 4096)
    fun j hj => (loadablePage hfits hj).slot
  exact ⟨s', hrun, mapPages_mapped hrun⟩

theorem Mapped.env_eq (hfits : ph.Fits)
    (h : s.Mapped (ph.pVa / 4096) ((ph.pMemsz + 4095) / 4096) s') {k : Nat} (hk : k < ph.pMemsz) :
    s'.env (pageIndex ((ph.pVa + k) / 4096)) =
      some (s.next + ((ph.pVa + k) / 4096 - ph.pVa / 4096)) := by
  have henv := h.env (fun j hj => (loadablePage hfits hj).canonical) _ (page_lt hfits hk)
  rwa [Nat.add_sub_of_le (Nat.div_le_div_right (Nat.le_add_right ..))] at henv

theorem Mapped.reaches (hfits : ph.Fits)
    (h : s.Mapped (ph.pVa / 4096) ((ph.pMemsz + 4095) / 4096) s') :
    s'.Reaches s.next (ph.pVa / 4096) ph.pVa ph.pMemsz := by
  intro k hk
  have hshared := h.shared _ (page_lt hfits hk)
  rw [Nat.add_sub_of_le (Nat.div_le_div_right (Nat.le_add_right ..))] at hshared
  have hpage := hfits.loadable k hk
  unfold kernPage
  rw [if_neg fun hnot => hnot.elim hpage.slot fun hc => hc hpage.canonical, if_pos hshared,
    h.env_eq hfits hk]

theorem Filled.trans {t u : Loader} {byte' : Nat → BitVec 8} {m : Nat}
    (h : s.Filled base pn a n byte t) (h' : t.Filled base pn (a + n) m byte' u) :
    s.Filled base pn a (n + m) (fun k => if k < n then byte k else byte' (k - n)) u where
  env := h'.env.trans h.env
  kern := h'.kern.trans h.kern
  shared := h'.shared.trans h.shared
  next := h'.next.trans h.next
  data frame o := by
    rw [h'.data, h.data, ← Nat.sub_sub]
    generalize addrOf base pn frame o = b
    grind

theorem loadSegment_eq (hload : ph.pType = 1) (hfilesz : ph.pFilesz ≤ ph.pMemsz) :
    loadSegment image s ph = (s.regionAlloc ph.pVa ph.pMemsz).bind fun s =>
      (s.fill ph.pVa (fun k => image.bytes (ph.pOffset + k)) ph.pFilesz).bind fun s =>
        s.fill (ph.pVa + ph.pFilesz) (fun _ => 0) (ph.pMemsz - ph.pFilesz) := by
  have hzero : ∀ t : Loader, (if ph.pFilesz ≠ ph.pMemsz then
      t.fill (ph.pVa + ph.pFilesz) (fun _ => 0) (ph.pMemsz - ph.pFilesz) else some t) =
        t.fill (ph.pVa + ph.pFilesz) (fun _ => 0) (ph.pMemsz - ph.pFilesz) := by
    intro t
    by_cases heq : ph.pFilesz = ph.pMemsz
    · rw [if_neg (not_not.mpr heq), heq, Nat.sub_self]
      rfl
    · rw [if_pos heq]
  unfold loadSegment
  rw [if_pos hload, if_neg (not_lt.mpr hfilesz)]
  simp only [hzero]
  rfl

theorem Mapped.loaded {t : Loader} (hfits : ph.Fits)
    (hmapped : s.Mapped (ph.pVa / 4096) ((ph.pMemsz + 4095) / 4096) t)
    (hfilled : t.Filled s.next (ph.pVa / 4096) ph.pVa ph.pMemsz (image.byteAt ph) s') :
    Loaded image ph s s' := by
  have hnext : s'.next = s.next + (ph.pMemsz + 4095) / 4096 := by rw [hfilled.next, hmapped.next]
  refine ⟨by omega, fun frame hframe => ?_, fun i hi => ?_, fun k hk => ?_⟩
  · funext o
    rw [hfilled.data, if_neg (by omega), hmapped.data]
  · rw [hfilled.env, hmapped.other i fun j hj => ?_]
    obtain ⟨k, hk, heq⟩ := exists_byte hj
    rw [← heq]
    exact hi k hk
  · have hpage := page_lt hfits hk
    have hpn : ph.pVa / 4096 ≤ (ph.pVa + k) / 4096 := Nat.div_le_div_right (Nat.le_add_right ..)
    have haddr := (addrOf_eq_iff hpn (Nat.le_add_right s.next _)
      (Nat.mod_lt (ph.pVa + k) (by decide))).mpr ⟨rfl, rfl⟩
    refine ⟨s.next + ((ph.pVa + k) / 4096 - ph.pVa / 4096), by omega, ?_, ?_⟩
    · rw [hfilled.env, hmapped.env_eq hfits hk]
    · rw [hfilled.data, haddr, if_pos (by omega), Nat.add_sub_cancel_left]

theorem exists_loadSegment (hload : ph.pType = 1) (hfilesz : ph.pFilesz ≤ ph.pMemsz)
    (hva : ph.pVa < 2 ^ 64) (hutop : 0 < ph.pMemsz → ph.pVa + ph.pMemsz ≤ 0xfffffd7ff0000000)
    (hfits : ph.Fits) (s : Loader) :
    ∃ s', loadSegment image s ph = some s' ∧ Loaded image ph s s' := by
  obtain ⟨t, hregion, hmapped⟩ := exists_regionAlloc hfits s
  have hreach := hmapped.reaches hfits
  obtain ⟨u, hfile, hfilled⟩ := @fill_filled t (ph.pVa / 4096) ph.pFilesz ph.pVa s.next
    (fun k => image.bytes (ph.pOffset + k)) le_rfl fun k hk => hreach k (hk.trans_le hfilesz)
  obtain ⟨v, hzero, hfilled'⟩ := @fill_filled u (ph.pVa / 4096) (ph.pMemsz - ph.pFilesz)
    (ph.pVa + ph.pFilesz) s.next (fun _ => 0) (Nat.div_le_div_right (Nat.le_add_right ..)) fun k hk => by
      rw [kernPage_congr hfilled.env hfilled.kern hfilled.shared, Nat.add_assoc]
      exact hreach _ (by omega)
  have hboth := hfilled.trans hfilled'
  rw [Nat.add_sub_of_le hfilesz] at hboth
  refine ⟨v, ?_, hmapped.loaded hfits hboth⟩
  rw [loadSegment_eq hload hfilesz, regionAlloc_eq hva (by omega), hregion, Option.bind_some, hfile,
    Option.bind_some, hzero]

/-! ### The image -/

variable {done : List LoadHeader}

def AllLoaded (image : ElfImage) (done : List LoadHeader) (s : Loader) : Prop :=
  ∀ ph ∈ done, ∀ k < ph.pMemsz, ∃ frame, frame < s.next ∧
    s.env (pageIndex ((ph.pVa + k) / 4096)) = some frame ∧
      s.data frame ((ph.pVa + k) % 4096) = image.byteAt ph k

theorem index_ne {ph ph' : LoadHeader} (hfits : ph.Fits) (hfits' : ph'.Fits) (h : ph.Disjoint ph')
    {k k' : Nat} (hk : k < ph.pMemsz) (hk' : k' < ph'.pMemsz) :
    pageIndex ((ph.pVa + k) / 4096) ≠ pageIndex ((ph'.pVa + k') / 4096) := fun heq =>
  h k hk k' hk' (pageIndex_inj (hfits.loadable k hk).canonical (hfits'.loadable k' hk').canonical heq)

theorem AllLoaded.cons (h : AllLoaded image done s) (hloaded : Loaded image ph s s') (hfits : ph.Fits)
    (hdone : ∀ ph' ∈ done, ph'.Fits ∧ ph'.Disjoint ph) : AllLoaded image (ph :: done) s' := by
  intro ph' hmem k hk
  rcases List.mem_cons.mp hmem with rfl | hmem
  · exact hloaded.bytes k hk
  · obtain ⟨frame, hframe, henv, hdata⟩ := h ph' hmem k hk
    obtain ⟨hfits', hdisjoint⟩ := hdone ph' hmem
    refine ⟨frame, hframe.trans_le hloaded.next, ?_, ?_⟩
    · rw [hloaded.other _ fun k' hk' => index_ne hfits' hfits hdisjoint hk hk', henv]
    · rw [hloaded.used frame hframe, hdata]

structure Good (ph : LoadHeader) : Prop where
  filesz : ph.pFilesz ≤ ph.pMemsz
  va : ph.pVa < 2 ^ 64
  utop : 0 < ph.pMemsz → ph.pVa + ph.pMemsz ≤ 0xfffffd7ff0000000
  fits : ph.Fits

theorem exists_foldlM {rest : List LoadHeader} (hgood : ∀ ph ∈ rest, ph.pType = 1 → Good ph)
    (hpairs : (rest.filter fun ph => ph.pType = 1).Pairwise LoadHeader.Disjoint)
    (hdone : ∀ ph ∈ done, ph.Fits ∧ ∀ ph' ∈ rest, ph'.pType = 1 → ph.Disjoint ph')
    (h : AllLoaded image done s) :
    ∃ s', rest.foldlM (loadSegment image) s = some s' ∧
      AllLoaded image ((rest.filter fun ph => ph.pType = 1).reverse ++ done) s' := by
  induction rest generalizing done s with
  | nil => exact ⟨s, rfl, h⟩
  | cons ph rest ih =>
      rw [List.foldlM_cons]
      by_cases hload : ph.pType = 1
      · rw [List.filter_cons_of_pos (by simpa using hload)] at hpairs ⊢
        obtain ⟨hfirst, hrest⟩ := List.pairwise_cons.mp hpairs
        have hph := hgood ph List.mem_cons_self hload
        obtain ⟨t, hrun, hloaded⟩ := exists_loadSegment hload hph.filesz hph.va hph.utop hph.fits s
        have hall := h.cons hloaded hph.fits fun ph' hmem =>
          ⟨(hdone ph' hmem).1, (hdone ph' hmem).2 ph List.mem_cons_self hload⟩
        have hnext : ∀ ph' ∈ ph :: done,
            ph'.Fits ∧ ∀ q ∈ rest, q.pType = 1 → ph'.Disjoint q := by
          intro ph' hmem
          rcases List.mem_cons.mp hmem with rfl | hmem
          · exact ⟨hph.fits, fun q hq hqload =>
              hfirst q (List.mem_filter.mpr ⟨hq, by simpa using hqload⟩)⟩
          · exact ⟨(hdone ph' hmem).1, fun q hq => (hdone ph' hmem).2 q (List.mem_cons_of_mem _ hq)⟩
        obtain ⟨s', hfold, hend⟩ := ih (fun ph' hmem => hgood ph' (List.mem_cons_of_mem _ hmem)) hrest
          hnext hall
        refine ⟨s', ?_, ?_⟩
        · rw [hrun, Option.bind_eq_bind, Option.bind_some, hfold]
        · rwa [List.reverse_cons, List.append_assoc, List.singleton_append]
      · rw [List.filter_cons_of_neg (by simpa using hload)] at hpairs ⊢
        have hskip : loadSegment image s ph = some s := if_neg hload
        rw [hskip, Option.bind_eq_bind, Option.bind_some]
        exact ih (fun ph' hmem => hgood ph' (List.mem_cons_of_mem _ hmem)) hpairs
          (fun ph' hmem => ⟨(hdone ph' hmem).1, fun q hq =>
            (hdone ph' hmem).2 q (List.mem_cons_of_mem _ hq)⟩) h

/-! ### Free memory -/

def FreeAs (d : Nat → Nat → BitVec 8) (s : Loader) : Prop :=
  s.Bounded ∧ ∀ frame, s.next ≤ frame → s.data frame = d frame

variable {d : Nat → Nat → BitVec 8}

theorem FreeAs.pageInsert (h : FreeAs d s) (hrun : s.pageInsert pn = some s') : FreeAs d s' := by
  rw [pageInsert_eq (slot_of_pageInsert hrun)] at hrun
  cases hrun
  refine ⟨fun i frame hmem => ?_, fun frame hframe => h.2 frame ((Nat.le_succ _).trans hframe)⟩
  show frame < s.next + 1
  rcases hmem with henv | hkern
  · change update s.env (pageIndex pn) (some s.next) i = some frame at henv
    by_cases hi : i = pageIndex pn
    · rw [hi, update_self] at henv
      cases henv
      exact Nat.lt_succ_self _
    · rw [update_of_ne hi] at henv
      exact (h.1 i frame (.inl henv)).trans (Nat.lt_succ_self _)
  · exact (h.1 i frame (.inr hkern)).trans (Nat.lt_succ_self _)

theorem FreeAs.mapPages (h : FreeAs d s) (hrun : s.mapPages pn n = some s') : FreeAs d s' := by
  induction n generalizing s' with
  | zero =>
      cases hrun
      exact h
  | succ n ih =>
      obtain ⟨t, ht, hlast⟩ := Option.bind_eq_some_iff.mp hrun
      obtain ⟨u, hu, hshared⟩ := Option.bind_eq_some_iff.mp hlast
      have hu' := (ih ht).pageInsert hu
      cases hshared
      exact hu'

theorem FreeAs.fill (h : FreeAs d s) (hrun : s.fill a byte n = some s') : FreeAs d s' := by
  induction n generalizing s' with
  | zero =>
      cases hrun
      exact h
  | succ n ih =>
      obtain ⟨t, ht, hlast⟩ := Option.bind_eq_some_iff.mp hrun
      obtain ⟨frame, hframe, hstore⟩ := Option.bind_eq_some_iff.mp hlast
      obtain ⟨hbounded, hfree⟩ := ih ht
      have hlt : frame < t.next := by
        unfold kernPage at hframe
        split_ifs at hframe
        · exact hbounded _ frame (.inl hframe)
        · exact hbounded _ frame (.inr hframe)
      cases hstore
      refine ⟨hbounded, fun frame' hframe' => ?_⟩
      show update t.data frame _ frame' = d frame'
      rw [update_of_ne (hlt.trans_le hframe').ne', hfree frame' hframe']

theorem FreeAs.loadSegment (h : FreeAs d s) (hrun : loadSegment image s ph = some s') : FreeAs d s' := by
  unfold Loader.loadSegment at hrun
  split_ifs at hrun with hload hfilesz hzero
  · obtain ⟨t, ht, hrun⟩ := Option.bind_eq_some_iff.mp hrun
    obtain ⟨u, hu, hrun⟩ := Option.bind_eq_some_iff.mp hrun
    exact ((h.mapPages ht).fill hu).fill hrun
  · obtain ⟨t, ht, hrun⟩ := Option.bind_eq_some_iff.mp hrun
    obtain ⟨u, hu, hrun⟩ := Option.bind_eq_some_iff.mp hrun
    cases hrun
    exact (h.mapPages ht).fill hu
  · cases hrun
    exact h

theorem FreeAs.foldlM {phs : List LoadHeader} (h : FreeAs d s)
    (hrun : phs.foldlM (Loader.loadSegment image) s = some s') : FreeAs d s' := by
  induction phs generalizing s with
  | nil =>
      cases hrun
      exact h
  | cons ph phs ih =>
      rw [List.foldlM_cons] at hrun
      obtain ⟨t, ht, hrest⟩ := Option.bind_eq_some_iff.mp hrun
      exact ih (h.loadSegment ht) hrest

/-! ### When an image is loaded -/

theorem slot_stackPn : pageSlot stackPn ≠ selfSlot := by decide

theorem canonical_stackPn : CanonicalPage stackPn := by decide

theorem loadIcode_eq (hmagic : image.eMagic = 0x464C457F) (s : Loader) :
    s.loadIcode image =
      (image.phdrs.foldlM (loadSegment image) s).bind fun s => s.pageInsert stackPn := by
  unfold loadIcode
  rw [if_neg (not_not.mpr hmagic)]
  rfl

def blank (b : BitVec 8) : Loader := ⟨fun _ => none, fun _ => none, fun _ => false, fun _ _ => b, 0⟩

theorem bounded_blank (b : BitVec 8) : (blank b).Bounded := by
  rintro i frame (h | h) <;> cases h

theorem stack_of_loadIcode (hmagic : image.eMagic = 0x464C457F) {b : BitVec 8}
    (hrun : (blank b).loadIcode image = some s') {o : Nat} :
    (s'.env (pageIndex stackPn)).map (fun frame => s'.data frame o) = some b := by
  rw [loadIcode_eq hmagic] at hrun
  obtain ⟨t, hfold, hinsert⟩ := Option.bind_eq_some_iff.mp hrun
  have hfree : FreeAs (fun _ _ => b) t := FreeAs.foldlM ⟨bounded_blank b, fun _ _ => rfl⟩ hfold
  rw [pageInsert_eq slot_stackPn] at hinsert
  cases hinsert
  unfold inserted
  dsimp only
  rw [update_self, Option.map_some, hfree.2 t.next le_rfl]

theorem loadablePage_of_loads (hmagic : image.eMagic = 0x464C457F) (h : image.Loads)
    (hph : ph ∈ image.segments) {k : Nat} (hk : k < ph.pMemsz) : LoadablePage ((ph.pVa + k) / 4096) := by
  obtain ⟨s', hrun, hbytes⟩ := h.contents _ (bounded_blank (image.byteAt ph k + 1))
  have hbyte := hbytes ph hph k hk
  unfold envByte at hbyte
  split_ifs at hbyte with hnot
  obtain ⟨hslot, hcanonical⟩ := not_or.mp hnot
  refine ⟨not_not.mp hcanonical, hslot, fun hstack => ?_⟩
  rw [hstack, stack_of_loadIcode hmagic hrun] at hbyte
  exact absurd (Option.some.inj hbyte) (by simp)

theorem fits_of_loads (hwell : image.WellFormed) (h : image.Loads) (hph : ph ∈ image.segments) :
    ph.Fits := by
  have hloadable : ∀ k < ph.pMemsz, LoadablePage ((ph.pVa + k) / 4096) := fun k hk =>
    loadablePage_of_loads hwell.magic h hph hk
  refine ⟨fun hpos => ?_, hloadable⟩
  by_contra hmissed
  obtain ⟨s', hrun, hregion⟩ := h.region ph hph (blank 0)
  obtain ⟨frame, -, hframe⟩ := hregion (ph.pMemsz - 1) (by omega)
  have hutop := hwell.utop ph hph hpos
  rw [regionAlloc_eq (hwell.va ph hph) (by omega)] at hrun
  -- the last page of the segment is the one after those that are mapped
  rw [(mapPages_mapped hrun).other _ fun j hj heq => ?_] at hframe
  · cases hframe
  · obtain ⟨k, hk, hpage⟩ := exists_byte hj
    rw [← hpage] at heq
    have := pageIndex_inj (hloadable _ (by omega)).canonical (hloadable k hk).canonical heq
    omega

theorem loads_of_fits (hwell : image.WellFormed) (hfits : ∀ ph ∈ image.segments, ph.Fits) :
    image.Loads := by
  refine ⟨fun ph hph s => ?_, fun s _ => ?_⟩
  · obtain ⟨s', hrun, hmapped⟩ := exists_regionAlloc (hfits ph hph) s
    have hutop := hwell.utop ph hph
    refine ⟨s', ?_, fun k hk => ⟨_, Nat.le_add_right .., hmapped.env_eq (hfits ph hph) hk⟩⟩
    rw [regionAlloc_eq (hwell.va ph hph) (by omega), hrun]
  · have hgood : ∀ ph ∈ image.phdrs, ph.pType = 1 → Good ph := by
      intro ph hmem hload
      have hph : ph ∈ image.segments := List.mem_filter.mpr ⟨hmem, by simpa using hload⟩
      exact ⟨hwell.filesz ph hph, hwell.va ph hph, hwell.utop ph hph, hfits ph hph⟩
    obtain ⟨t, hfold, hall⟩ := @exists_foldlM s image [] image.phdrs hgood hwell.disjoint nofun nofun
    refine ⟨t.inserted stackPn, ?_, fun ph hph k hk => ?_⟩
    · rw [loadIcode_eq hwell.magic, hfold, Option.bind_some, pageInsert_eq slot_stackPn]
    · obtain ⟨frame, -, henv, hdata⟩ := hall ph (List.mem_append_left _ (List.mem_reverse.mpr hph)) k hk
      have hpage := (hfits ph hph).loadable k hk
      have hne : pageIndex ((ph.pVa + k) / 4096) ≠ pageIndex stackPn := fun heq =>
        hpage.stack (pageIndex_inj hpage.canonical canonical_stackPn heq)
      unfold envByte inserted
      dsimp only
      rw [if_neg fun hnot => hnot.elim hpage.slot fun hc => hc hpage.canonical,
        update_of_ne hne, henv, Option.map_some, hdata]

/-- An image is loaded if and only if no segment touches more pages than its length rounded up has, and
all pages can be loaded. -/
theorem loads_iff_fits (hwell : image.WellFormed) : image.Loads ↔ ∀ ph ∈ image.segments, ph.Fits :=
  ⟨fun h _ hph => fits_of_loads hwell h hph, loads_of_fits hwell⟩

def oneSegment (va memsz : Nat) : ElfImage where
  eMagic := 0x464C457F
  phdrs := [⟨1, 0x1000, va, memsz - 1, memsz⟩]
  bytes _ := 0x13

theorem wellFormed_oneSegment {va memsz : Nat} (h : va + memsz ≤ 0x10000000) :
    (oneSegment va memsz).WellFormed := by
  have hsegments : (oneSegment va memsz).segments = [⟨1, 0x1000, va, memsz - 1, memsz⟩] := rfl
  refine ⟨rfl, ?_, ?_, ?_, ?_⟩ <;> rw [hsegments]
  · simp
  · simp only [List.mem_singleton, forall_eq]
    omega
  · simp only [List.mem_singleton, forall_eq]
    omega
  · exact List.pairwise_singleton ..

theorem loads_oneSegment :
    (oneSegment 0x800000 0x1800).WellFormed ∧ (oneSegment 0x800000 0x1800).Loads := by
  have hwell := wellFormed_oneSegment (show 0x800000 + 0x1800 ≤ 0x10000000 by decide)
  refine ⟨hwell, (loads_iff_fits hwell).mpr ?_⟩
  have hsegments : (oneSegment 0x800000 0x1800).segments = [⟨1, 0x1000, 0x800000, 0x17ff, 0x1800⟩] := rfl
  rw [hsegments]
  simp only [List.mem_singleton, forall_eq]
  refine ⟨fun _ => by decide, fun k hk => ?_⟩
  dsimp only at hk ⊢
  refine ⟨?_, ?_, ?_⟩
  · unfold CanonicalPage
    omega
  · unfold pageSlot pageIndex selfSlot
    omega
  · unfold stackPn
    omega

/-- Two bytes on both sides of the end of a page: the second page is not mapped, and the kernel faults. -/
theorem loadIcode_missed_page : (oneSegment 0x800fff 2).WellFormed ∧
    (∃ s', (blank 0).regionAlloc 0x800fff 2 = some s' ∧ s'.env (pageIndex 0x801) = none) ∧
      (blank 0).loadIcode (oneSegment 0x800fff 2) = none :=
  ⟨wellFormed_oneSegment (by decide), ⟨_, rfl, rfl⟩, rfl⟩

end Loader

end ZynexOS
