import ZynexOS.Kern.Proof.TreeWalk

/-!
# The forest of page tables

The steps of which the kernel's functions are composed keep the forest.
-/

namespace ZynexOS

open Library Function

/-! ### Leaf entries -/

namespace MapsPage

variable {w : Word} {c : Nat}

theorem ne_zero (h : MapsPage w c) : w ≠ 0 := by
  obtain ⟨flags, rfl, -, hvalid⟩ := h
  intro hzero
  have hboth : (pteEntry (page2pa c) ||| flags) &&& pteV = 0 := by
    rw [hzero]
    exact zero_and_pteV
  rw [BitVec.and_or_distrib_right] at hboth
  exact hvalid (BitVec.or_eq_zero_iff.mp hboth).2

theorem and_pteV_ne (h : MapsPage w c) : w &&& pteV ≠ 0 := by
  obtain ⟨flags, rfl, -, hvalid⟩ := h
  rw [BitVec.and_or_distrib_right]
  exact fun hboth => hvalid (BitVec.or_eq_zero_iff.mp hboth).2

theorem ptePhy_eq (h : MapsPage w c) (hc : c < 2 ^ 19) : ptePhy w = page2pa c := by
  obtain ⟨flags, rfl, hflags, -⟩ := h
  exact (ptePhy_or_flags _ hflags).trans (ptePhy_pteEntry hc)

theorem target_eq (h : MapsPage w c) (hc : c < 2 ^ 19) : Pt.target w = some c := by
  rw [Pt.target, if_neg h.ne_zero, h.ptePhy_eq hc, pgnum_page2pa hc]

end MapsPage

/-! ### Reference counts -/

theorem toNat_sub_one {x : BitVec 16} (hx : x ≠ 0) : (x - 1).toNat = x.toNat - 1 := by
  have hpos : x.toNat ≠ 0 := fun hzero => hx (BitVec.eq_of_toNat_eq hzero)
  have hlt := x.isLt
  rw [BitVec.toNat_sub]
  have hone : (1 : BitVec 16).toNat = 1 := rfl
  omega

theorem toNat_add_one {x : BitVec 16} (hx : x ≠ 65535) : (x + 1).toNat = x.toNat + 1 := by
  have hmax : x.toNat ≠ 65535 := fun heq => hx (BitVec.eq_of_toNat_eq heq)
  have hlt := x.isLt
  rw [BitVec.toNat_add]
  have hone : (1 : BitVec 16).toNat = 1 := rfl
  omega

namespace Pt

theorem word_decref (pt : Pt) (c : Nat) : (pt.decref c).word = pt.word := by
  unfold decref
  split_ifs <;> rfl

theorem ref_decref (pt : Pt) (c : Nat) :
    (pt.decref c).ref = update pt.ref c (pt.ref c - 1) := by
  unfold decref
  split_ifs <;> rfl

theorem mem_free_decref {pt : Pt} {c q : Nat} :
    q ∈ (pt.decref c).free ↔ q ∈ pt.free ∨ q = c ∧ pt.ref c - 1 = 0 := by
  unfold decref
  by_cases hlast : pt.ref c - 1 = 0
  · rw [if_pos hlast, and_iff_left hlast, or_comm]
    exact List.mem_cons
  · rw [if_neg hlast]
    exact ⟨.inl, fun hq => hq.resolve_right fun hc => hlast hc.2⟩

theorem returned_decref (pt : Pt) (c p : Nat) (hp : p ∈ pt.free ∨ pt.ref p ≠ 0)
    (hzero : (pt.decref c).ref p = 0) : p ∈ (pt.decref c).free := by
  rw [mem_free_decref]
  rw [ref_decref] at hzero
  by_cases hpc : p = c
  · rw [hpc, update_self] at hzero
    exact .inr ⟨hpc, hzero⟩
  · rw [update_of_ne hpc] at hzero
    exact .inl (hp.resolve_right fun hne => hne hzero)

theorem nodup_decref {pt : Pt} {c : Nat} (hnodup : pt.free.Nodup) (hc : c ∉ pt.free) :
    (pt.decref c).free.Nodup := by
  unfold decref
  split_ifs
  · exact List.nodup_cons.mpr ⟨hc, hnodup⟩
  · exact hnodup

end Pt

namespace Tables

variable {T : Tables} {t i c q : Nat}

theorem own_addTable_self : (T.addTable t i c).own c = T.own t := update_self ..

theorem lvl_addTable_self : (T.addTable t i c).lvl c = T.lvl t + 1 := update_self ..

theorem own_addTable_of_ne (hq : q ≠ c) : (T.addTable t i c).own q = T.own q :=
  update_of_ne hq ..

theorem lvl_addTable_of_ne (hq : q ≠ c) : (T.addTable t i c).lvl q = T.lvl q :=
  update_of_ne hq ..

theorem word_addTable_of_ne_zero (hq : q ≠ c) (hword : T.word t i = 0) {j : Nat}
    (hne : T.word q j ≠ 0) : (T.addTable t i c).word q j = T.word q j := by
  refine (Pt.word_addTable t i c q j).trans ?_
  rw [if_neg, if_neg hq]
  rintro ⟨rfl, rfl⟩
  exact hne hword

theorem ref_addTable_of_ne (hq : q ≠ c) : (T.addTable t i c).ref q = T.ref q :=
  update_of_ne hq ..

theorem ref_addTable_self : (T.addTable t i c).ref c = T.ref c + 1 := update_self ..

/-- From `T` to `T'` the first page of the free list becomes the table `c`. The other tables keep their
places, and their entries if they are leaves. -/
structure Adopts (T T' : Tables) (c : Nat) : Prop where
  free : T.free = c :: T'.free
  own : ∀ q, q ≠ c → T'.own q = T.own q
  lvl : ∀ q, q ≠ c → T'.lvl q = T.lvl q
  ref : T'.ref = update T.ref c (T.ref c + 1)
  self : T'.self = T.self
  other : T'.other = T.other
  leaf : ∀ q j, q ≠ c → T.lvl q = 3 → T'.word q j = T.word q j
  table : T'.own c ≠ none ∧ T'.lvl c ≤ 3 ∧ (T'.lvl c = 0 → T'.own c = some c)
  blank : T'.lvl c = 3 → ∀ j, T'.word c j = 0

theorem Adopts.mem_free {T' : Tables} (ha : T.Adopts T' c) : c ∈ T.free := by simp [ha.free]

theorem Adopts.dir_iff {T' : Tables} (ha : T.Adopts T' c) (hq : q ≠ c) : T'.Dir q i ↔ T.Dir q i := by
  rw [Dir, Dir, ha.lvl q hq, ha.self]

end Tables

namespace Forest

variable {n kd : Nat} {fixed : Nat → Nat → Bool} {T T' : Tables} {p r t i c d : Nat} {rest : List Nat}

section

variable (h : Forest n kd fixed T)
include h

theorem own_free (hp : p ∈ T.free) : T.own p = none := by
  cases hown : T.own p with
  | none => rfl
  | some r => exact absurd hp (h.table p r hown).2.1

theorem refs_pos (hown : T.own p = some r) (hlvl : T.lvl p = 3)
    (hi : i < 512) (hfixed : fixed p i = false) (hmaps : MapsPage (T.word p i) c) (hc : c < n) :
    0 < T.refs n fixed c := by
  rw [Nat.pos_iff_ne_zero]
  intro hzero
  refine count_eq_zero_iff.mp hzero (p, i) ?_ ?_
  · exact Finset.mk_mem_product (Finset.mem_range.mpr (h.table p r hown).1) (Finset.mem_range.mpr hi)
  · rw [Tables.mapsTo, if_pos ⟨by simp [hown], hlvl, hfixed⟩,
      hmaps.target_eq (lt_of_lt_of_le hc h.bound)]

theorem refs_eq_zero (hc : c < n) (hzero : T.ref c = 0) :
    T.refs n fixed c = 0 ∧ T.held kd c = 0 := by
  have hrefs := h.refs c hc
  rw [hzero] at hrefs
  exact Nat.add_eq_zero_iff.mp hrefs.symm

/-! ### Following links -/

theorem link_below (hown : T.own t = some r) (hlvl : 0 < T.lvl t)
    (hdir : T.Dir t i) : T.word t i = 0 ∨
      ∃ c, T.word t i = link c ∧ T.lvl c = T.lvl t + 1 ∧ T.own c = some r := by
  obtain hzero | ⟨c, hword, hnext, hr | ⟨hroot, -⟩⟩ := h.links t r i hown hdir
  · exact .inl hzero
  · exact .inr ⟨c, hword, hnext, hr⟩
  · omega

theorem sound_below (hown : T.own t = some r) (hlvl : 0 < T.lvl t)
    {path : List Nat} (hlen : T.lvl t + path.length ≤ 3) (hpath : ∀ i ∈ path, i < 512) :
    T.Sound n t path := by
  obtain ⟨ht, hfree, -⟩ := h.table t r hown
  induction path generalizing t with
  | nil => exact ⟨ht, hfree⟩
  | cons i path ih =>
      rw [List.length_cons] at hlen
      have hi := hpath i List.mem_cons_self
      refine ⟨ht, hfree, hi, ?_⟩
      obtain hzero | ⟨c, hword, hnext, hc⟩ := h.link_below hown hlvl ⟨by omega, hi, by omega⟩
      · exact .inl hzero
      · refine .inr ⟨c, hword, ih hc (by omega) (by omega) (fun j hj => ?_)
          (h.table c r hc).1 (h.table c r hc).2.1⟩
        exact hpath j (List.mem_cons_of_mem i hj)

theorem sound (hown : T.own d = some d) (hlvl : T.lvl d = 0) {va : Word}
    (hva : T.self ≠ some (pd0x va)) : T.Sound n d (path va) := by
  obtain ⟨hd, hfree, -⟩ := h.table d d hown
  refine ⟨hd, hfree, pd0x_lt va, ?_⟩
  have hpath : ∀ i ∈ [pd1x va, pd2x va], i < 512 := by
    simp [pd1x_lt, pd2x_lt]
  obtain hzero | ⟨c, hword, hnext, howner⟩ :=
    h.links d d (pd0x va) hown ⟨by omega, pd0x_lt va, fun hself => hva hself.2⟩
  · exact .inl hzero
  · refine .inr ⟨c, hword, ?_⟩
    obtain hc | ⟨-, -, hc, -⟩ := howner
    · exact h.sound_below hc (by omega) (by simp; omega) hpath
    · exact h.sound_below hc (by omega) (by simp; omega) hpath

/-! ### Adding a table -/

theorem of_link (hown : T.own p = some r) (hdir : T.Dir p i)
    (hc : c < n) (hword : T.word p i = link c) : T.lvl c = T.lvl p + 1 ∧ (T.own c = some r ∨
      T.lvl p = 0 ∧ i ∈ Kern.setupSlots ∧ T.own c = some kd ∧ T.word kd i = link c) := by
  obtain hzero | ⟨c', hlink, hnext, howner⟩ := h.links p r i hown hdir
  · rw [hzero] at hword
    exact absurd hword.symm link_ne_zero
  · have hc' : c' < n := by
      obtain hc' | ⟨-, -, hc', -⟩ := howner
      · exact (h.table c' _ hc').1
      · exact (h.table c' _ hc').1
    obtain rfl : c' = c := link_inj (lt_of_lt_of_le hc' h.bound) (lt_of_lt_of_le hc h.bound)
      (hlink.symm.trans hword)
    exact ⟨hnext, howner⟩

theorem own_child (hown : T.own p = some r) (hdir : T.Dir p i)
    (hc : c < n) (hword : T.word p i = link c) : T.own c ≠ none := by
  obtain ⟨-, hc' | ⟨-, -, hc', -⟩⟩ := h.of_link hown hdir hc hword
  · simp [hc']
  · simp [hc']

end

section

variable (h : Forest n kd fixed T) (ha : T.Adopts T' c)
include h ha

theorem adopted_ne (hown : T.own p = some r) : p ≠ c := by
  rintro rfl
  exact (h.table p r hown).2.1 ha.mem_free

theorem adopted_links (hown : T.own p = some r) (hdir : T.Dir p i)
    (hkern : ∀ c, T.word kd i = link c → T'.word kd i = link c) : T.word p i = 0 ∨
      ∃ c, T.word p i = link c ∧ T'.lvl c = T.lvl p + 1 ∧ (T'.own c = some r ∨
        T.lvl p = 0 ∧ i ∈ Kern.setupSlots ∧ T'.own c = some kd ∧ T'.word kd i = link c) := by
  obtain hempty | ⟨c', hlink, hlvl, howner⟩ := h.links p r i hown hdir
  · exact .inl hempty
  · have hne : c' ≠ c := by
      obtain hc' | ⟨-, -, hc', -⟩ := howner
      · exact h.adopted_ne ha hc'
      · exact h.adopted_ne ha hc'
    rw [← ha.own c' hne] at howner
    rw [← ha.lvl c' hne] at hlvl
    exact .inr ⟨c', hlink, hlvl, howner.imp id fun ⟨hroot, hslot, hc', hword⟩ =>
      ⟨hroot, hslot, hc', hkern c' hword⟩⟩

theorem adopted_refs (q : Nat) : T'.refs n fixed q = T.refs n fixed q := by
  have hnone := h.own_free ha.mem_free
  refine count_congr fun ⟨p, j⟩ _ => ?_
  by_cases hpc : p = c
  · subst hpc
    by_cases hlvl : T'.lvl p = 3
    · simp [Tables.mapsTo, hnone, ha.blank hlvl, Pt.target]
    · simp [Tables.mapsTo, hnone, hlvl]
  · simp only [Tables.mapsTo, ha.own p hpc, ha.lvl p hpc]
    by_cases hlvl : T.lvl p = 3
    · rw [ha.leaf p j hpc hlvl]
    · simp [hlvl]

theorem adopt
    (hlinks : ∀ p r i, T'.own p = some r → T'.Dir p i → T'.word p i = 0 ∨
      ∃ c, T'.word p i = link c ∧ T'.lvl c = T'.lvl p + 1 ∧ (T'.own c = some r ∨
        T'.lvl p = 0 ∧ i ∈ Kern.setupSlots ∧ T'.own c = some kd ∧ T'.word kd i = link c))
    (hparent : ∀ p p' i i' c r, T'.own p = some r → T'.own p' = some r → T'.own c = some r →
      T'.Dir p i → T'.Dir p' i' → T'.word p i = link c → T'.word p' i' = link c → p = p' ∧ i = i')
    (hself : ∀ d i, T'.own d = some d → T'.lvl d = 0 → d ≠ kd → T'.self = some i →
      T'.word d i = page2pa d ||| pteV) : Forest n kd fixed T' := by
  have hmem := ha.mem_free
  obtain ⟨hc, hzero⟩ := h.free c hmem
  have hnodup : (c :: T'.free).Nodup := ha.free ▸ h.nodup
  have hkd := h.adopted_ne ha h.kern.1
  refine ⟨h.bound, ?_, ?_, hnodup.of_cons, ?_, hlinks, hparent, hself, ?_, ?_, ?_⟩
  · rw [ha.own kd hkd, ha.lvl kd hkd]
    exact h.kern
  · intro q r hq
    by_cases hqc : q = c
    · subst hqc
      refine ⟨hc, (List.nodup_cons.mp hnodup).1, ha.table.2.1, fun hroot => ?_⟩
      exact Option.some.inj ((ha.table.2.2 hroot).symm.trans hq)
    · rw [ha.own q hqc] at hq
      rw [ha.lvl q hqc]
      obtain ⟨hlt, hnot, hrest⟩ := h.table q r hq
      exact ⟨hlt, fun hin => hnot (ha.free ▸ List.mem_cons_of_mem c hin), hrest⟩
  · intro q hq
    have hqc : q ≠ c := by
      rintro rfl
      exact (List.nodup_cons.mp hnodup).1 hq
    rw [ha.ref, update_of_ne hqc]
    exact h.free q (ha.free ▸ List.mem_cons_of_mem c hq)
  · intro q r j hq hlvl hj hfix
    by_cases hqc : q = c
    · subst hqc
      exact .inl (ha.blank hlvl j)
    · rw [ha.own q hqc] at hq
      rw [ha.lvl q hqc] at hlvl
      rw [ha.leaf q j hqc hlvl]
      exact h.leaf q r j hq hlvl hj hfix
  · intro q hq
    rw [h.adopted_refs ha, ha.ref, Tables.held, ha.other]
    by_cases hqc : q = c
    · subst hqc
      obtain ⟨hrefs, hheld⟩ := h.refs_eq_zero hc hzero
      have hother : T.other q = 0 := (Nat.add_eq_zero_iff.mp hheld).2
      rw [update_self, hzero, hrefs, if_pos ⟨ha.table.1, hkd.symm⟩, hother]
      rfl
    · rw [update_of_ne hqc, h.refs q hq, Tables.held, ha.own q hqc]
  · intro q j hfix
    have hq := h.fixed q j hfix
    rw [ha.own q (h.adopted_ne ha hq), hq]

end

section

variable (h : Forest n kd fixed T)
include h

theorem adopts_addTable (hown : T.own t = some r)
    (hdir : T.Dir t i) (hfree : T.free = c :: rest) : T.Adopts (T.addTable t i c) c := by
  have htc : t ≠ c := by
    rintro rfl
    exact (h.table t r hown).2.1 (by simp [hfree])
  refine ⟨by simp [Tables.addTable, hfree], fun q hq => Tables.own_addTable_of_ne hq,
    fun q hq => Tables.lvl_addTable_of_ne hq, rfl, rfl, rfl, fun q j hq hlvl => ?_, ?_,
    fun _ => Pt.word_addTable_new htc⟩
  · refine (Pt.word_addTable t i c q j).trans ?_
    rw [if_neg, if_neg hq]
    rintro ⟨rfl, -⟩
    exact absurd hdir.1 (by omega)
  · have hlvl := hdir.1
    rw [Tables.own_addTable_self, Tables.lvl_addTable_self, hown]
    exact ⟨nofun, by omega, by omega⟩

theorem addTable (hown : T.own t = some r)
    (hdir : T.Dir t i) (hword : T.word t i = 0) (hfree : T.free = c :: rest) :
    Forest n kd fixed (T.addTable t i c) := by
  have ha := h.adopts_addTable hown hdir hfree
  have hmem := ha.mem_free
  have hc := (h.free c hmem).1
  have hnew : ∀ j, (T.addTable t i c).word c j = 0 :=
    Pt.word_addTable_new (h.adopted_ne ha hown)
  -- an entry that is a link was one before, unless it is the one that leads to the new table
  have hentry : ∀ q j c', (T.addTable t i c).word q j = link c' →
      q ≠ c ∧ (q = t ∧ j = i ∧ link c = link c' ∨ ¬(q = t ∧ j = i) ∧ T.word q j = link c') := by
    intro q j c' hlink
    have hqc : q ≠ c := by
      rintro rfl
      rw [hnew j] at hlink
      exact link_ne_zero hlink.symm
    refine ⟨hqc, ?_⟩
    replace hlink := (Pt.word_addTable t i c q j).symm.trans hlink
    split_ifs at hlink with hslot
    · exact .inl ⟨hslot.1, hslot.2, hlink⟩
    · exact .inr ⟨hslot, hlink⟩
  refine h.adopt ha ?_ ?_ ?_
  · intro q r' j hq hqdir
    by_cases hqc : q = c
    · subst hqc
      exact .inl (hnew j)
    rw [ha.own q hqc] at hq
    rw [ha.dir_iff hqc] at hqdir
    rw [ha.lvl q hqc]
    by_cases hslot : q = t ∧ j = i
    · obtain ⟨rfl, rfl⟩ := hslot
      refine .inr ⟨c, ?_, Tables.lvl_addTable_self, .inl ?_⟩
      · exact (Pt.word_addTable q j c q j).trans (if_pos ⟨rfl, rfl⟩)
      · rw [Tables.own_addTable_self, hq]
    · have hsame : (T.addTable t i c).word q j = T.word q j :=
        (Pt.word_addTable t i c q j).trans (by rw [if_neg hslot, if_neg hqc])
      rw [hsame]
      refine h.adopted_links ha hq hqdir fun c' hlink => ?_
      rw [Tables.word_addTable_of_ne_zero (h.adopted_ne ha h.kern.1) hword, hlink]
      rw [hlink]
      exact link_ne_zero
  · intro q q' j j' c' r' hq hq' hc' hqdir hqdir' hlink hlink'
    obtain ⟨hqc, hlink⟩ := hentry q j c' hlink
    obtain ⟨hqc', hlink'⟩ := hentry q' j' c' hlink'
    rw [ha.own q hqc] at hq
    rw [ha.own q' hqc'] at hq'
    rw [ha.dir_iff hqc] at hqdir
    rw [ha.dir_iff hqc'] at hqdir'
    by_cases hcc : c' = c
    · -- only the entry just written leads to the new table
      subst hcc
      have honly : ∀ q j, T.own q = some r' → T.Dir q j → T.word q j ≠ link c' := fun q j hq hqdir hold =>
        h.own_child hq hqdir hc hold (h.own_free hmem)
      obtain ⟨rfl, rfl, -⟩ := hlink.resolve_right fun hold => honly q j hq hqdir hold.2
      obtain ⟨rfl, rfl, -⟩ := hlink'.resolve_right fun hold => honly q' j' hq' hqdir' hold.2
      exact ⟨rfl, rfl⟩
    · rw [ha.own c' hcc] at hc'
      have hlinks : link c ≠ link c' := fun heq =>
        hcc (link_inj (lt_of_lt_of_le hc h.bound)
          (lt_of_lt_of_le (h.table c' r' hc').1 h.bound) heq).symm
      exact h.parent q q' j j' c' r' hq hq' hc' hqdir hqdir'
        (hlink.resolve_left fun hslot => hlinks hslot.2.2).2
        (hlink'.resolve_left fun hslot => hlinks hslot.2.2).2
  · intro q j hq hlvl hkd hself
    have hqc : q ≠ c := by
      rintro rfl
      rw [Tables.lvl_addTable_self] at hlvl
      omega
    rw [ha.own q hqc] at hq
    rw [ha.lvl q hqc] at hlvl
    rw [← h.selfMap q j hq hlvl hkd hself]
    refine (Pt.word_addTable t i c q j).trans ?_
    rw [if_neg, if_neg hqc]
    rintro ⟨rfl, rfl⟩
    exact hdir.2.2 ⟨hlvl, hself⟩

/-! ### Changing leaf entries -/

theorem reword {pt : Pt}
    (hdirs : ∀ q r j, T.own q = some r → T.lvl q < 3 → pt.word q j = T.word q j)
    (hleaf : ∀ q r j, T.own q = some r → T.lvl q = 3 → j < 512 → fixed q j = false →
      pt.word q j = 0 ∨ ∃ c, c < n ∧ MapsPage (pt.word q j) c)
    (hrefs : ∀ c < n,
      (pt.ref c).toNat = Tables.refs { T with toPt := pt } n fixed c + T.held kd c)
    (hnodup : pt.free.Nodup)
    (hfree : ∀ q ∈ pt.free, q < n ∧ T.own q = none ∧ pt.ref q = 0) :
    Forest n kd fixed { T with toPt := pt } where
  bound := h.bound
  kern := h.kern
  table q r hq := by
    obtain ⟨hlt, -, hrest⟩ := h.table q r hq
    refine ⟨hlt, fun hin => ?_, hrest⟩
    have hnone := (hfree q hin).2.1
    rw [show T.own q = some r from hq] at hnone
    cases hnone
  nodup := hnodup
  free q hq := ⟨(hfree q hq).1, (hfree q hq).2.2⟩
  links q r j hq hdir := by
    have hkern : T.lvl kd < 3 := by
      rw [h.kern.2]
      decide
    simp only [hdirs q r j hq hdir.1, hdirs kd kd j h.kern.1 hkern]
    exact h.links q r j hq hdir
  parent q q' j j' c r hq hq' hc hdir hdir' hlink hlink' := by
    simp only [hdirs q r j hq hdir.1] at hlink
    simp only [hdirs q' r j' hq' hdir'.1] at hlink'
    exact h.parent q q' j j' c r hq hq' hc hdir hdir' hlink hlink'
  selfMap q j hq hlvl hkd hself := by
    replace hlvl : T.lvl q = 0 := hlvl
    simp only [hdirs q q j hq (by rw [hlvl]; decide)]
    exact h.selfMap q j hq hlvl hkd hself
  leaf := hleaf
  refs := hrefs
  fixed := h.fixed

theorem setLeaf (hown : T.own p = some r) (hlvl : T.lvl p = 3)
    (hi : i < 512) (hfixed : fixed p i = false) {w : Word} {pt : Pt}
    (hword : pt.word = (T.setWord p i w).word)
    (hw : w = 0 ∨ ∃ c, c < n ∧ MapsPage w c)
    (hrefs : ∀ c < n, (pt.ref c).toNat + (if Pt.target (T.word p i) = some c then 1 else 0) =
      (T.ref c).toNat + if Pt.target w = some c then 1 else 0)
    (hnodup : pt.free.Nodup)
    (hfree : ∀ q ∈ pt.free, q < n ∧ T.own q = none ∧ pt.ref q = 0) :
    Forest n kd fixed { T with toPt := pt } := by
  refine h.reword ?_ ?_ ?_ hnodup hfree
  · intro q r' j hq hdir
    rw [hword, Pt.word_setWord, if_neg]
    rintro ⟨rfl, -⟩
    omega
  · intro q r' j hq hleaf hj hfix
    rw [hword, Pt.word_setWord]
    split_ifs with hslot
    · exact hw
    · exact h.leaf q r' j hq hleaf hj hfix
  · intro c hc
    have hmaps : Tables.mapsTo { T with toPt := pt } fixed =
        update (T.mapsTo fixed) (p, i) (Pt.target w) := by
      funext slot
      by_cases hslot : slot = (p, i)
      · subst hslot
        simp [Tables.mapsTo, hown, hlvl, hfixed, hword]
      · rw [update_of_ne hslot]
        have hne : ¬ (slot.1 = p ∧ slot.2 = i) := fun heq => hslot (Prod.ext heq.1 heq.2)
        simp only [Tables.mapsTo, hword, Pt.word_setWord, if_neg hne]
    have hin : (p, i) ∈ Finset.range n ×ˢ Finset.range 512 :=
      Finset.mk_mem_product (Finset.mem_range.mpr (h.table p r hown).1) (Finset.mem_range.mpr hi)
    have hcount := count_update_of_mem (f := T.mapsTo fixed) (p := c) hin (Pt.target w)
    have hbefore : T.mapsTo fixed (p, i) = Pt.target (T.word p i) := by
      simp [Tables.mapsTo, hown, hlvl, hfixed]
    have hold : (T.ref c).toNat =
        count (Finset.range n ×ˢ Finset.range 512) (T.mapsTo fixed) c + T.held kd c := h.refs c hc
    rw [hbefore] at hcount
    rw [Tables.refs, hmaps]
    have hnew := hrefs c hc
    omega

/-! ### Giving up a table -/

theorem unlink (hown : T.own t = some r) (hr : r ≠ kd)
    (hdir : T.Dir t i) : Forest n kd fixed { T with toPt := T.setWord t i 0 } := by
  have hword : ∀ q j, (T.setWord t i 0).word q j = 0 ∨
      (T.setWord t i 0).word q j = T.word q j := by
    intro q j
    rw [Pt.word_setWord]
    split_ifs
    · exact .inl rfl
    · exact .inr rfl
  have hkept : ∀ q j c, (T.setWord t i 0).word q j = link c → T.word q j = link c := by
    intro q j c hlink
    obtain hzero | hsame := hword q j
    · rw [hzero] at hlink
      exact absurd hlink.symm link_ne_zero
    · rw [← hsame, hlink]
  have hleafWord : ∀ q j, T.lvl q = 3 → (T.setWord t i 0).word q j = T.word q j := by
    intro q j hlvl
    rw [Pt.word_setWord, if_neg]
    rintro ⟨rfl, -⟩
    exact absurd hdir.1 (by omega)
  refine ⟨h.bound, h.kern, h.table, h.nodup, h.free, ?_, ?_, ?_, ?_, ?_, h.fixed⟩
  · intro q r' j hq hqdir
    obtain hzero | hsame := hword q j
    · exact .inl hzero
    · obtain hempty | ⟨c, hlink, hlvl, howner⟩ := h.links q r' j hq hqdir
      · exact .inl (hsame.trans hempty)
      · refine .inr ⟨c, hsame.trans hlink, hlvl, howner.imp id fun hshared => ?_⟩
        refine ⟨hshared.1, hshared.2.1, hshared.2.2.1, ?_⟩
        refine Eq.trans (if_neg ?_) hshared.2.2.2
        rintro ⟨rfl, -⟩
        have hkern := h.kern.1
        rw [hown] at hkern
        exact hr (Option.some.inj hkern)
  · intro q q' j j' c r' hq hq' hc hqdir hqdir' hlink hlink'
    exact h.parent q q' j j' c r' hq hq' hc hqdir hqdir' (hkept q j c hlink) (hkept q' j' c hlink')
  · intro q j hq hlvl hkd hself
    refine Eq.trans (if_neg ?_) (h.selfMap q j hq hlvl hkd hself)
    rintro ⟨rfl, rfl⟩
    exact hdir.2.2 ⟨hlvl, hself⟩
  · intro q r' j hq hlvl hj hfix
    simp only [hleafWord q j hlvl]
    exact h.leaf q r' j hq hlvl hj hfix
  · intro c hc
    refine (h.refs c hc).trans (congrArg (· + T.held kd c) (count_congr fun slot _ => ?_))
    by_cases hlvl : T.lvl slot.1 = 3
    · simp only [Tables.mapsTo, hleafWord slot.1 slot.2 hlvl]
    · simp [Tables.mapsTo, hlvl]

theorem retire (hown : T.own c = some r) (hr : r ≠ kd)
    (hunlinked : ∀ q r' j, T.own q = some r' → T.Dir q j → T.word q j ≠ link c)
    (hempty : T.lvl c = 3 → ∀ j < 512, T.word c j = 0) : Forest n kd fixed (T.retire c) := by
  obtain ⟨hc, hcfree, -⟩ := h.table c r hown
  have hkd : c ≠ kd := by
    rintro rfl
    rw [h.kern.1] at hown
    exact hr (Option.some.inj hown).symm
  have hheld : T.held kd c = 1 + T.other c := by
    rw [Tables.held, if_pos ⟨by rw [hown]; nofun, hkd⟩]
  have hpos : T.ref c ≠ 0 := by
    intro hzero
    have := (h.refs_eq_zero hc hzero).2
    omega
  have hword : (T.retire c).word = T.word := Pt.word_decref T.toPt c
  have href : (T.retire c).ref = update T.ref c (T.ref c - 1) := Pt.ref_decref T.toPt c
  have hothers : ∀ q, q ≠ c → (T.retire c).own q = T.own q := fun q hq => update_of_ne hq ..
  have hself : (T.retire c).own c = none := update_self ..
  have htable : ∀ q r', (T.retire c).own q = some r' → q ≠ c ∧ T.own q = some r' := by
    intro q r' hq
    have hne : q ≠ c := by
      rintro rfl
      rw [hself] at hq
      cases hq
    exact ⟨hne, hothers q hne ▸ hq⟩
  have hmaps : ∀ slot ∈ Finset.range n ×ˢ Finset.range 512,
      (T.retire c).mapsTo fixed slot = T.mapsTo fixed slot := by
    intro slot hslot
    by_cases hq : slot.1 = c
    · simp only [Tables.mapsTo, hq, hself]
      by_cases hlvl : T.lvl c = 3
      · simp [hempty hlvl slot.2 (Finset.mem_range.mp (Finset.mem_product.mp hslot).2), Pt.target]
      · simp [hlvl]
    · simp only [Tables.mapsTo, hothers slot.1 hq, hword]
      rfl
  have hrefs : ∀ q, (T.retire c).refs n fixed q = T.refs n fixed q := by
    intro q
    exact count_congr fun slot hslot => by rw [hmaps slot hslot]
  refine ⟨h.bound, ?_, ?_, Pt.nodup_decref h.nodup hcfree, ?_, ?_, ?_, ?_, ?_, ?_, ?_⟩
  · exact ⟨(hothers kd hkd.symm).trans h.kern.1, h.kern.2⟩
  · intro q r' hq
    obtain ⟨hne, hq⟩ := htable q r' hq
    obtain ⟨hlt, hnot, hrest⟩ := h.table q r' hq
    refine ⟨hlt, fun hin => ?_, hrest⟩
    exact (Pt.mem_free_decref.mp hin).elim hnot fun hsame => hne hsame.1
  · intro q hq
    rw [href]
    obtain hq | ⟨rfl, hlast⟩ := Pt.mem_free_decref.mp hq
    · have hne : q ≠ c := fun heq => hcfree (heq ▸ hq)
      rw [update_of_ne hne]
      exact h.free q hq
    · exact ⟨hc, (update_self ..).trans hlast⟩
  · intro q r' j hq hdir
    obtain ⟨hne, hold⟩ := htable q r' hq
    rw [hword]
    obtain hzero | ⟨c', hlink, hlvl, howner⟩ := h.links q r' j hold hdir
    · exact .inl hzero
    · have hcc : c' ≠ c := by
        rintro rfl
        exact hunlinked q r' j hold hdir hlink
      rw [← hothers c' hcc] at howner
      exact .inr ⟨c', hlink, hlvl, howner⟩
  · intro q q' j j' c' r' hq hq' hc' hdir hdir' hlink hlink'
    rw [hword] at hlink hlink'
    exact h.parent q q' j j' c' r' (htable q r' hq).2 (htable q' r' hq').2 (htable c' r' hc').2
      hdir hdir' hlink hlink'
  · intro q j hq hlvl hqkd hself
    rw [hword]
    exact h.selfMap q j (htable q q hq).2 hlvl hqkd hself
  · intro q r' j hq hlvl hj hfix
    rw [hword]
    exact h.leaf q r' j (htable q r' hq).2 hlvl hj hfix
  · intro q hq
    have hbefore := h.refs q hq
    rw [hrefs q, href]
    by_cases hqc : q = c
    · subst hqc
      rw [update_self, toNat_sub_one hpos, Tables.held, hself, if_neg fun hnot => hnot.1 rfl]
      show _ = _ + (0 + T.other q)
      omega
    · rw [update_of_ne hqc, Tables.held, hothers q hqc]
      exact hbefore
  · intro q j hfix
    have hq := h.fixed q j hfix
    rw [hothers q, hq]
    rintro rfl
    rw [hown] at hq
    exact hr (Option.some.inj hq)

end

/-! ### A new directory -/

theorem adopts_addDir (hfree : T.free = c :: rest) : T.Adopts (T.addDir kd c) c where
  free := by simp [Tables.addDir, hfree]
  own _ hq := update_of_ne hq ..
  lvl _ hq := update_of_ne hq ..
  ref := rfl
  self := rfl
  other := rfl
  leaf _ _ hq _ := if_neg hq
  table := by simp [Tables.addDir]
  blank := by simp [Tables.addDir]

theorem addDir (h : Forest n kd fixed T) (hself : T.self = some (pd0x uvpt))
    (hfree : T.free = c :: rest) : Forest n kd fixed (T.addDir kd c) := by
  have ha : T.Adopts (T.addDir kd c) c := adopts_addDir hfree
  have hc := (h.free c ha.mem_free).1
  have hkd := h.adopted_ne ha h.kern.1
  have hnew : (T.addDir kd c).own c = some c := update_self ..
  have hroot : (T.addDir kd c).lvl c = 0 := update_self ..
  have hword : ∀ q j, q ≠ c → (T.addDir kd c).word q j = T.word q j := fun q j hq => if_neg hq
  -- an entry of the new directory is copied from `kern_pgdir` or empty
  have hcopied : ∀ j, (T.addDir kd c).Dir c j → T.Dir kd j ∧
      (T.addDir kd c).word c j = if j ∈ Kern.setupSlots then T.word kd j else 0 := by
    intro j hdir
    have hj : j ≠ pd0x uvpt := fun heq => hdir.2.2 ⟨hroot, heq ▸ hself⟩
    exact ⟨⟨by rw [h.kern.2]; decide, hdir.2.1,
      fun heq => hj (Option.some.inj (heq.2.symm.trans hself))⟩, (if_pos rfl).trans (if_neg hj)⟩
  refine h.adopt ha ?_ ?_ ?_
  · intro q r j hq hdir
    by_cases hqc : q = c
    · subst hqc
      obtain ⟨hkdir, hentry⟩ := hcopied j hdir
      rw [hentry, hroot, hword kd j hkd]
      by_cases hshared : j ∈ Kern.setupSlots
      · rw [if_pos hshared]
        obtain hempty | ⟨c', hlink, hnext, howner⟩ := h.links kd kd j h.kern.1 hkdir
        · exact .inl hempty
        · have hc' : T.own c' = some kd := howner.elim id fun hshared => hshared.2.2.1
          have hne := h.adopted_ne ha hc'
          refine .inr ⟨c', hlink, ?_, .inr ⟨rfl, hshared, ?_, hlink⟩⟩
          · rw [ha.lvl c' hne, hnext, h.kern.2]
          · rw [ha.own c' hne, hc']
      · exact .inl (if_neg hshared)
    · rw [ha.own q hqc] at hq
      rw [ha.dir_iff hqc] at hdir
      rw [hword q j hqc, ha.lvl q hqc]
      exact h.adopted_links ha hq hdir fun c' hlink => (hword kd j hkd).trans hlink
  · intro q q' j j' c' r hq hq' hc' hdir hdir' hlink hlink'
    -- the tables of the new directory are all the kernel's, so that it is no parent
    have hkept : ∀ q j, (T.addDir kd c).own q = some r → (T.addDir kd c).Dir q j →
        (T.addDir kd c).word q j = link c' →
          T.own q = some r ∧ T.Dir q j ∧ T.word q j = link c' ∧ T.own c' = some r := by
      intro p j hp hdir₁ hlink₁
      by_cases hpc : p = c
      · subst hpc
        obtain ⟨hkdir, hentry⟩ := hcopied j hdir₁
        rw [hentry] at hlink₁
        have hshared : j ∈ Kern.setupSlots := by
          by_contra hnot
          rw [if_neg hnot] at hlink₁
          exact link_ne_zero hlink₁.symm
        rw [if_pos hshared] at hlink₁
        have hc'n : c' < n := by
          by_cases hcc : c' = p
          · exact hcc ▸ hc
          · exact (h.table c' r (ha.own c' hcc ▸ hc')).1
        have howner : T.own c' = some kd :=
          (h.of_link h.kern.1 hkdir hc'n hlink₁).2.elim id fun hshared => hshared.2.2.1
        rw [ha.own c' (h.adopted_ne ha howner), howner, ← hp, hnew] at hc'
        exact absurd (Option.some.inj hc') hkd
      · rw [ha.own p hpc] at hp
        rw [ha.dir_iff hpc] at hdir₁
        rw [hword p j hpc] at hlink₁
        have hcc : c' ≠ c := by
          rintro rfl
          exact h.own_child hp hdir₁ hc hlink₁ (h.own_free ha.mem_free)
        exact ⟨hp, hdir₁, hlink₁, ha.own c' hcc ▸ hc'⟩
    obtain ⟨hq, hdir, hlink, howner⟩ := hkept q j hq hdir hlink
    obtain ⟨hq', hdir', hlink', -⟩ := hkept q' j' hq' hdir' hlink'
    exact h.parent q q' j j' c' r hq hq' howner hdir hdir' hlink hlink'
  · intro q j hq hlvl0 hqkd hslot
    by_cases hqc : q = c
    · subst hqc
      have hj : j = pd0x uvpt := Option.some.inj (hslot.symm.trans hself)
      exact (if_pos rfl).trans (if_pos hj)
    · rw [ha.own q hqc] at hq
      rw [ha.lvl q hqc] at hlvl0
      rw [hword q j hqc]
      exact h.selfMap q j hq hlvl0 hqkd hslot

theorem of_zeroed {vm : Vm} {pt : Pt} {root : Nat} (hs : vm.Shows n pt) (hroot : root < n)
    (hnot : root ∉ pt.free) (hfree : ∀ p ∈ pt.free, pt.ref p = 0)
    (hzero : ∀ i < 512, pt.word root i = 0) (self : Option Nat) :
    Forest n root (fun _ _ => false) ⟨pt, fun p => if p = root then some root else none, fun _ => 0,
      self, fun p => (pt.ref p).toNat⟩ := by
  have hown : ∀ p r, (if p = root then some root else none) = some r → p = root ∧ r = root := by
    intro p r hp
    split_ifs at hp with heq
    exact ⟨heq, (Option.some.inj hp).symm⟩
  refine ⟨hs.bound, ⟨if_pos rfl, rfl⟩, ?_, hs.nodup, fun p hp => ⟨hs.free p hp, hfree p hp⟩, ?_, ?_, ?_,
    ?_, ?_, nofun⟩
  · intro p r hp
    obtain ⟨rfl, rfl⟩ := hown p r hp
    exact ⟨hroot, hnot, Nat.zero_le 3, fun _ => rfl⟩
  · intro p r i hp hdir
    obtain ⟨rfl, rfl⟩ := hown p r hp
    exact .inl (hzero i hdir.2.1)
  · intro p p' i i' c r hp hp' _ hdir hdir' hlink
    obtain ⟨rfl, rfl⟩ := hown p r hp
    exact absurd ((hzero i hdir.2.1).symm.trans hlink).symm link_ne_zero
  · intro d i hd _ hne _
    exact absurd (hown d d hd).1 hne
  · intro p r i _ hlvl
    cases hlvl
  · intro c hc
    have hnone : Tables.refs ⟨pt, fun p => if p = root then some root else none, fun _ => 0, self,
        fun p => (pt.ref p).toNat⟩ n (fun _ _ => false) c = 0 :=
      count_eq_zero_iff.mpr fun slot _ => by simp [Tables.mapsTo]
    rw [hnone, Tables.held]
    by_cases hcr : c = root
    · simp [hcr]
    · simp [hcr]

end Forest

end ZynexOS
