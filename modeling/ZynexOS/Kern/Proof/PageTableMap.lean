import ZynexOS.Kern.Proof.TreeMap
import ZynexOS.Library.Run

/-! # A page table is a finite map -/

namespace ZynexOS

open Library Function

namespace Tables

variable {n kd root : Nat} {fixed : Nat → Nat → Bool} {T T' : Tables} {t t' i leaf : Nat}

theorem step_cases (h : Forest n root fixed T) (hself : T.self = none) (hown : T.own t = some root)
    (hlvl : T.lvl t < 3) (hi : i < 512) : T.word t i = 0 ∨
      ∃ c, T.word t i = link c ∧ T.lvl c = T.lvl t + 1 ∧ T.own c = some root := by
  have hdir : T.Dir t i := ⟨hlvl, hi, by rw [hself]; nofun⟩
  obtain hzero | ⟨c, hlink, hnext, hc | ⟨-, -, hc, -⟩⟩ := h.links t root i hown hdir
  · exact .inl hzero
  · exact .inr ⟨c, hlink, hnext, hc⟩
  · exact .inr ⟨c, hlink, hnext, hc⟩

theorem descend_inj (h : Forest n root fixed T) (hself : T.self = none) :
    ∀ (path₁ path₂ : List Nat) (t t' : Nat), path₁.length = path₂.length →
      T.own t = some root → T.own t' = some root → T.lvl t + path₁.length ≤ 3 →
      T.lvl t' + path₂.length ≤ 3 → (∀ i ∈ path₁, i < 512) → (∀ i ∈ path₂, i < 512) →
      T.descend t path₁ = some leaf → T.descend t' path₂ = some leaf →
      t = t' ∧ path₁ = path₂ := by
  intro path₁
  induction path₁ with
  | nil =>
      intro path₂ t t' hlen _ _ _ _ _ _ hleaf hleaf'
      obtain rfl := List.length_eq_zero_iff.mp hlen.symm
      exact ⟨Option.some.inj (hleaf.trans hleaf'.symm), rfl⟩
  | cons i path₁ ih =>
      intro path₂ t t' hlen hown hown' hlvl hlvl' hpath₁ hpath₂ hleaf hleaf'
      cases path₂ with
      | nil => cases hlen
      | cons i' path₂ =>
          simp only [List.length_cons] at hlen hlvl hlvl'
          have hi := hpath₁ i List.mem_cons_self
          have hi' := hpath₂ i' List.mem_cons_self
          obtain hzero | ⟨c, hlink, hnext, hc⟩ := step_cases h hself hown (by omega) hi
          · rw [Pt.descend_zero hzero] at hleaf
            cases hleaf
          obtain hzero | ⟨c', hlink', hnext', hc'⟩ := step_cases h hself hown' (by omega) hi'
          · rw [Pt.descend_zero hzero] at hleaf'
            cases hleaf'
          rw [Pt.descend_link (lt_of_lt_of_le (h.table c root hc).1 h.bound) hlink] at hleaf
          rw [Pt.descend_link (lt_of_lt_of_le (h.table c' root hc').1 h.bound) hlink'] at hleaf'
          -- the tables below agree, and a table has one entry that leads to it
          obtain ⟨rfl, rfl⟩ := ih path₂ c c' (by omega) hc hc' (by omega) (by omega)
            (fun j hj => hpath₁ j (List.mem_cons_of_mem i hj))
            (fun j hj => hpath₂ j (List.mem_cons_of_mem i' hj)) hleaf hleaf'
          obtain ⟨rfl, rfl⟩ := h.parent t t' i i' c root hown hown' hc
            ⟨by omega, hi, by rw [hself]; nofun⟩ ⟨by omega, hi', by rw [hself]; nofun⟩ hlink hlink'
          exact ⟨rfl, rfl⟩

theorem path_lt (va : Word) : ∀ i ∈ path va, i < 512 := by
  simp [path, pd0x_lt, pd1x_lt, pd2x_lt]

section

variable (h : Forest n root fixed T) (hself : T.self = none)
include h hself

theorem descend_congr
    (hword : ∀ p j, T.own p = some root → T.lvl p < 3 → T'.word p j = T.word p j) :
    ∀ (path : List Nat) (t : Nat), T.own t = some root → T.lvl t + path.length ≤ 3 →
      (∀ i ∈ path, i < 512) → T'.descend t path = T.descend t path := by
  intro path
  induction path with
  | nil => exact fun _ _ _ _ => rfl
  | cons i path ih =>
      intro t hown hlvl hpath
      rw [List.length_cons] at hlvl
      have hsame := hword t i hown (by omega)
      obtain hzero | ⟨c, hlink, hnext, hc⟩ :=
        step_cases h hself hown (by omega) (hpath i List.mem_cons_self)
      · rw [Pt.descend_zero hzero, Pt.descend_zero (hsame.trans hzero)]
      · have hbound := lt_of_lt_of_le (h.table c root hc).1 h.bound
        rw [Pt.descend_link hbound hlink, Pt.descend_link hbound (hsame.trans hlink)]
        exact ih c hc (by omega) fun j hj => hpath j (List.mem_cons_of_mem i hj)

theorem linked_congr (hword : ∀ p j, T.own p = some root → T.lvl p < 3 → T'.word p j = T.word p j) :
    ∀ (path : List Nat) (t : Nat), T.own t = some root → T.lvl t + path.length ≤ 3 →
      (∀ i ∈ path, i < 512) → T'.Linked n t path := by
  intro path
  induction path with
  | nil => exact fun t hown _ _ => (h.table t root hown).1
  | cons i path ih =>
      intro t hown hlvl hpath
      rw [List.length_cons] at hlvl
      have hi := hpath i List.mem_cons_self
      refine ⟨(h.table t root hown).1, hi, ?_⟩
      rw [hword t i hown (by omega)]
      obtain hzero | ⟨c, hlink, hnext, hc⟩ := step_cases h hself hown (by omega) hi
      · exact .inl hzero
      · exact .inr ⟨c, hlink, ih c hc (by omega) fun j hj => hpath j (List.mem_cons_of_mem i hj)⟩

theorem entry_setWord {va va' w : Word}
    (hleaf : T.descend root (path va) = some leaf) (hleafLvl : T.lvl leaf = 3)
    (hword : T'.word = (T.setWord leaf (ptx va) w).word) :
    T'.entry root va' = if vpn va' = vpn va then decode w else T.entry root va' := by
  have hdescend : T'.descend root (path va') = T.descend root (path va') := by
    refine descend_congr h hself (fun p j hp hlvl => ?_) (path va') root h.kern.1 ?_ (path_lt va')
    · rw [hword, Pt.word_setWord, if_neg]
      rintro ⟨rfl, -⟩
      omega
    · rw [h.kern.2]
      exact Nat.le_refl 3
  rw [entry, entry, hdescend, hword]
  by_cases hsame : vpn va' = vpn va
  · obtain ⟨hpath, hptx⟩ := vpn_eq_iff.mp hsame
    rw [if_pos hsame, hpath, hleaf, hptx]
    show decode ((T.setWord leaf (ptx va) w).word leaf (ptx va)) = decode w
    rw [Pt.word_setWord, if_pos ⟨rfl, rfl⟩]
  · rw [if_neg hsame]
    cases hother : T.descend root (path va') with
    | none => rfl
    | some leaf' =>
        show decode ((T.setWord leaf (ptx va) w).word leaf' (ptx va')) = decode (T.word leaf' (ptx va'))
        rw [Pt.word_setWord, if_neg]
        rintro ⟨rfl, hptx⟩
        have hlen : T.lvl root + (path va).length ≤ 3 := by
          rw [h.kern.2]
          exact Nat.le_refl 3
        have hpath := (descend_inj h hself (path va') (path va) root root rfl h.kern.1 h.kern.1
          hlen hlen (path_lt va') (path_lt va) hother hleaf).2
        exact hsame (vpn_eq_iff.mpr ⟨hpath, hptx⟩)

theorem lvl_descend :
    ∀ (path : List Nat) (t : Nat), T.own t = some root → T.lvl t + path.length = 3 →
      (∀ i ∈ path, i < 512) → T.descend t path = some leaf →
      T.own leaf = some root ∧ T.lvl leaf = 3 := by
  intro path
  induction path with
  | nil =>
      intro t hown hlvl _ hleaf
      obtain rfl : t = leaf := Option.some.inj hleaf
      exact ⟨hown, hlvl⟩
  | cons i path ih =>
      intro t hown hlvl hpath hleaf
      rw [List.length_cons] at hlvl
      obtain hzero | ⟨c, hlink, hnext, hc⟩ :=
        step_cases h hself hown (by omega) (hpath i List.mem_cons_self)
      · rw [Pt.descend_zero hzero] at hleaf
        cases hleaf
      · rw [Pt.descend_link (lt_of_lt_of_le (h.table c root hc).1 h.bound) hlink] at hleaf
        exact ih c hc (by omega) (fun j hj => hpath j (List.mem_cons_of_mem i hj)) hleaf

end

theorem Grows.entry {r : Nat} (hgrows : T.Grows T' r) (h : Forest n root fixed T)
    (h' : Forest n root fixed T') (hself : T.self = none) (va : Word) :
    T'.entry root va = T.entry root va := by
  have hlen : T.lvl root + (path va).length = 3 := by
    rw [h.kern.2]
    rfl
  have hlen' : T'.lvl root + (path va).length = 3 := by
    rw [h'.kern.2]
    rfl
  unfold Tables.entry
  obtain hsame | ⟨hnone, leaf, hin, hnot, hleaf⟩ :=
    hgrows.descend h (h.sound h.kern.1 h.kern.2 (by rw [hself]; nofun))
  · rw [hsame]
    cases hleaf : T.descend root (path va) with
    | none => rfl
    | some leaf =>
        obtain ⟨hown, hlvl⟩ := lvl_descend h hself (path va) root h.kern.1 hlen (path_lt va) hleaf
        show decode (T'.word leaf (ptx va)) = decode (T.word leaf (ptx va))
        rw [hgrows.leaf leaf (ptx va) (h.table leaf root hown).2.1 (.inr hlvl)]
  · obtain ⟨-, hlvl⟩ := lvl_descend h' (hgrows.self.trans hself) (path va) root h'.kern.1 hlen'
      (path_lt va) hleaf
    rw [hnone, hleaf]
    show decode (T'.word leaf (ptx va)) = none
    rw [(hgrows.made leaf hin hnot).2.2 hlvl]
    rfl

end Tables

namespace Vm

variable {vm vm' : Vm} {n root pp : Nat} {T T' : Tables} {va va' : Word} {perm : BitVec 32}

theorem binding_eq (hs : vm.Shows n T.toPt) (hlinked : T.Linked n root (path va))
    (hleaf : ∀ leaf, T.descend root (path va) = some leaf → leaf < n ∧
      (T.word leaf (ptx va) = 0 ∨ ∃ c, c < n ∧ MapsPage (T.word leaf (ptx va)) c)) :
    vm.binding (pageKva root) va = .ok (T.entry root va) := by
  have hwalk := hs.pgdirWalkThrough hlinked
  unfold Vm.binding Tables.entry
  cases hdescend : T.descend root (path va) with
  | none =>
      rw [hdescend] at hwalk
      simp only [pageLookup, hwalk, Option.map_none, ok_bind]
      rfl
  | some leaf =>
      rw [hdescend] at hwalk
      obtain ⟨hin, hentry⟩ := hleaf leaf hdescend
      have hload := hs.load hin (ptx_lt va)
      obtain hzero | ⟨c, hc, hmaps⟩ := hentry
      · rw [hzero] at hload
        simp only [pageLookup, hwalk, Option.map_some, ok_bind, hload, Option.bind_some, Tables.decode,
          hzero]
        rfl
      · have hbound := lt_of_lt_of_le hc hs.bound
        have hpage : pgnum (ptePhy (T.word leaf (ptx va))) = c := by
          rw [hmaps.ptePhy_eq hbound, pgnum_page2pa hbound]
        have hlookup : vm.pageLookup (pageKva root) va = .ok (some (c, slotAddr leaf (ptx va))) := by
          refine pageLookup_eq_some.mpr ⟨hwalk, _, hload, hmaps.ne_zero, ?_, hpage.symm⟩
          rw [hpage, hs.npages]
          exact hc
        simp only [hlookup, ok_bind, hload, Option.bind_some, Tables.decode, if_neg hmaps.ne_zero, hpage]
        rfl

theorem Shows.onFreeList {pt : Pt} (hs : vm.Shows n pt) {p : Nat} :
    vm.OnFreeList p ↔ p ∈ pt.free := by
  constructor
  · rintro ⟨l, hchain, hp⟩
    rwa [hchain.unique hs.list] at hp
  · exact fun hp => ⟨pt.free, hs.list, hp⟩

namespace IsPageTable

section

variable (h : vm.IsPageTable n root T)
include h

theorem sound (va : Word) : T.Sound n root (path va) :=
  h.forest.sound h.forest.kern.1 h.forest.kern.2 (by rw [h.self]; nofun)

theorem leaf {leaf : Nat} (hleaf : T.descend root (path va) = some leaf) :
    T.Leaf (fun _ _ => false) leaf (ptx va) := by
  have hlen : T.lvl root + (path va).length = 3 := by
    rw [h.forest.kern.2]
    rfl
  obtain ⟨hown, hlvl⟩ := Tables.lvl_descend h.forest h.self (path va) root h.forest.kern.1 hlen
    (Tables.path_lt va) hleaf
  exact ⟨by rw [hown]; nofun, hlvl, ptx_lt va, rfl⟩

theorem binding (va : Word) : vm.binding (pageKva root) va = .ok (T.entry root va) := by
  refine binding_eq h.shows (h.sound va).linked fun leaf hleaf => ?_
  have hslot := h.leaf hleaf
  obtain ⟨r, hr⟩ := Option.ne_none_iff_exists'.mp hslot.own
  exact ⟨(h.forest.table leaf r hr).1, h.forest.leaf leaf r (ptx va) hr hslot.lvl hslot.index rfl⟩

theorem binding_setWord {leaf : Nat} {w : Word}
    (hleaf : T.descend root (path va) = some leaf) (hs : vm'.Shows n T'.toPt)
    (hword : T'.word = (T.setWord leaf (ptx va) w).word) (hw : w = 0 ∨ ∃ c, c < n ∧ MapsPage w c)
    (va' : Word) : vm'.binding (pageKva root) va' =
      .ok (if vpn va' = vpn va then Tables.decode w else T.entry root va') := by
  have hslot := h.leaf hleaf
  have hdirs : ∀ p j, T.own p = some root → T.lvl p < 3 → T'.word p j = T.word p j := by
    intro p j _ hlvl
    rw [hword, Pt.word_setWord, if_neg]
    rintro ⟨rfl, -⟩
    have hleafLvl := hslot.lvl
    omega
  have hlen : T.lvl root + (path va').length ≤ 3 := by
    rw [h.forest.kern.2]
    exact Nat.le_refl 3
  rw [← Tables.entry_setWord h.forest h.self hleaf hslot.lvl hword]
  refine binding_eq hs (Tables.linked_congr h.forest h.self hdirs (path va') root h.forest.kern.1 hlen
    (Tables.path_lt va')) fun leaf' hleaf' => ?_
  rw [Tables.descend_congr h.forest h.self hdirs (path va') root h.forest.kern.1 hlen
    (Tables.path_lt va')] at hleaf'
  have hslot' := h.leaf hleaf'
  obtain ⟨r, hr⟩ := Option.ne_none_iff_exists'.mp hslot'.own
  refine ⟨(h.forest.table leaf' r hr).1, ?_⟩
  rw [hword, Pt.word_setWord]
  split_ifs
  · exact hw
  · exact h.forest.leaf leaf' r (ptx va') hr hslot'.lvl hslot'.index rfl

theorem self_ne (va : Word) : T.self ≠ some (pd0x va) := by
  rw [h.self]
  nofun

theorem extended (va : Word) : Tables.Extended n root (fun _ _ => false) T root root (path va) := by
  have hext := Tables.extended h.forest h.forest.kern.1 h.forest.kern.2 (h.self_ne va)
  rwa [show T.root root root (pd0x va) = root from ite_self root] at hext

theorem extend (va : Word) (hs : vm'.Shows n (T.extend root (path va)).2.toPt) :
    vm'.IsPageTable n root (T.extend root (path va)).2 := by
  have hext := h.extended va
  refine ⟨hs, hext.forest, hext.grows.self.trans h.self, fun p r hp => ?_⟩
  by_cases hold : p ∉ T.free ∨ p ∈ (T.extend root (path va)).2.free
  · exact h.own p r ((hext.grows.old p hold).1.symm.trans hp)
  · obtain ⟨hin, hnot⟩ := not_or.mp hold
    have hnew := (hext.grows.made p (not_not.mp hin) hnot).1
    exact Option.some.inj (hp.symm.trans hnew)

end

end IsPageTable

end Vm

namespace Tables

variable {n kd : Nat} {fixed : Nat → Nat → Bool} {T : Tables} {p i c pp q : Nat} {w : Word}

theorem word_insert (h : Forest n kd fixed T) (hslot : T.Leaf fixed p i) :
    (T.insert p i pp w).word = (T.setWord p i w).word := by
  funext q j
  unfold insert
  split_ifs with hzero hsame
  · rfl
  · rfl
  · refine (Pt.word_setWord p i w q j).trans ?_
    rw [Pt.word_setWord]
    split_ifs with hentry
    · rfl
    · exact (h.word_unmap hslot q j).trans (if_neg hentry)

theorem ref_insert_zero (hword : T.word p i = 0) :
    (T.insert p i pp w).ref = update T.ref pp (T.ref pp + 1) := by
  rw [insert, if_pos hword]
  rfl

theorem ref_insert_same (hword : T.word p i ≠ 0) (htarget : Pt.target (T.word p i) = some pp) :
    (T.insert p i pp w).ref = T.ref := by
  rw [insert, if_neg hword, if_pos htarget]
  rfl

theorem ref_insert_other (hword : T.word p i ≠ 0) (htarget : Pt.target (T.word p i) = some c)
    (hne : c ≠ pp) : (T.insert p i pp w).ref =
      update (update T.ref c (T.ref c - 1)) pp (T.ref pp + 1) := by
  have hunmap : T.unmap p i = { T with toPt := (T.decref c).setWord p i 0 } := by
    simp only [unmap, htarget]
  have hrefs : (T.unmap p i).ref = update T.ref c (T.ref c - 1) := by
    rw [hunmap]
    exact Pt.ref_decref T.toPt c
  rw [insert, if_neg hword, htarget, if_neg fun heq => hne (Option.some.inj heq)]
  show update (T.unmap p i).ref pp ((T.unmap p i).ref pp + 1) = _
  rw [hrefs, update_of_ne (Ne.symm hne)]

theorem mem_free_insert_other (hword : T.word p i ≠ 0) (htarget : Pt.target (T.word p i) = some c)
    (hne : c ≠ pp) (hfree : c ∉ T.free) : c ∈ (T.insert p i pp w).free ↔ T.ref c - 1 = 0 := by
  have hunmap : T.unmap p i = { T with toPt := (T.decref c).setWord p i 0 } := by
    simp only [unmap, htarget]
  rw [insert, if_neg hword, htarget, if_neg fun heq => hne (Option.some.inj heq)]
  show c ∈ (T.unmap p i).free ↔ _
  rw [hunmap]
  exact Pt.mem_free_decref.trans ⟨fun hin => (hin.resolve_left hfree).2, fun hlast => .inr ⟨rfl, hlast⟩⟩

end Tables

namespace Vm.IsPageTable

variable {vm vm' : Vm} {n root pp : Nat} {T T' : Tables} {va va' : Word} {perm : BitVec 32}

theorem decode_newEntry (hpp : pp < 2 ^ 19) (hperm : perm.toNat < 2 ^ 10) :
    Tables.decode (newEntry pp perm) = some (pp, perm.setWidth 64 ||| pteV) := by
  have hmaps : MapsPage (newEntry pp perm) pp := newEntry_maps hperm
  have hflags : (perm.setWidth 64 ||| pteV).toNat < 2 ^ 10 := by
    rw [BitVec.toNat_or, BitVec.toNat_setWidth]
    refine Nat.or_lt_two_pow ?_ (by decide)
    omega
  have hmask : newEntry pp perm &&& insertMask = perm.setWidth 64 ||| pteV := by
    rw [newEntry, signExtend_of_lt hperm, BitVec.or_assoc, BitVec.and_comm,
      BitVec.and_or_distrib_left, BitVec.and_comm, pteEntry_and_insertMask hpp, BitVec.and_comm,
      and_insertMask_of_lt hflags]
    exact BitVec.zero_or
  rw [Tables.decode, if_neg hmaps.ne_zero, hmaps.ptePhy_eq hpp, pgnum_page2pa hpp, hmask]

theorem target_of_decode {w flags : Word} {c : Nat} (hdecode : Tables.decode w = some (c, flags)) :
    w ≠ 0 ∧ Pt.target w = some c := by
  unfold Tables.decode at hdecode
  split_ifs at hdecode with hzero
  refine ⟨hzero, ?_⟩
  rw [Pt.target, if_neg hzero, (Prod.mk.inj (Option.some.inj hdecode)).1]

theorem word_cases (h : vm.IsPageTable n root T) {leaf i : Nat}
    (hslot : T.Leaf (fun _ _ => false) leaf i) : T.word leaf i = 0 ∨
      ∃ c, T.word leaf i ≠ 0 ∧ Pt.target (T.word leaf i) = some c ∧
        Tables.decode (T.word leaf i) = some (c, T.word leaf i &&& insertMask) := by
  obtain hzero | ⟨c, hc, hmaps, -⟩ := h.forest.leaf_cases hslot
  · exact .inl hzero
  · have hbound := lt_of_lt_of_le hc h.forest.bound
    refine .inr ⟨c, hmaps.ne_zero, hmaps.target_eq hbound, ?_⟩
    rw [Tables.decode, if_neg hmaps.ne_zero, hmaps.ptePhy_eq hbound, pgnum_page2pa hbound]

theorem of_binding (h : vm.IsPageTable n root T) {c : Nat} {flags : Word}
    (hbinding : vm.binding (pageKva root) va = .ok (some (c, flags))) :
    ¬ vm.OnFreeList c ∧ (vm.pages c).ppRef ≠ 0 := by
  rw [h.binding, Except.ok.injEq, Tables.entry] at hbinding
  obtain ⟨leaf, hleaf, hdecode⟩ := Option.bind_eq_some_iff.mp hbinding
  obtain ⟨hword, htarget⟩ := target_of_decode hdecode
  obtain hzero | ⟨c', hc', hmaps, -, href, hfree⟩ := h.forest.leaf_cases (h.leaf hleaf)
  · exact absurd hzero hword
  · rw [hmaps.target_eq (lt_of_lt_of_le hc' h.forest.bound), Option.some.injEq] at htarget
    subst htarget
    rw [h.shows.onFreeList, h.shows.ref]
    exact ⟨hfree, href⟩

theorem inserted (h : vm.IsPageTable n root T) (hpp : pp < n) (hfree : ¬ vm.OnFreeList pp)
    (href : (vm.pages pp).ppRef.toNat < 65535) (hperm : perm.toNat < 2 ^ 10) {leaf : Nat}
    (hfound : (T.extend root (path va)).1 = some leaf) :
    ∃ vm', vm.pageInsert (pageKva root) (some pp) va perm = .ok (0, vm') ∧
      vm.Inserted vm' (pageKva root) va pp perm := by
  have hext := h.extended va
  have hpage : pp ∉ T.free := fun hin => hfree (h.shows.onFreeList.mpr hin)
  obtain ⟨mid, -, hmid⟩ := h.shows.walk h.forest h.forest.kern.1 h.forest.kern.2 (h.self_ne va)
  have h₁ := h.extend va hmid
  obtain ⟨vm', hrun, hs⟩ := h.shows.pageInsert_found h.forest h.forest.kern.1 h.forest.kern.2
    (h.self_ne va) hfound rfl hpp hpage perm
  have hleaf := (hext.found leaf hfound).2.2
  have hslot := h₁.leaf hleaf
  have hbefore : vm.binding (pageKva root) va =
      .ok (Tables.decode ((T.extend root (path va)).2.word leaf (ptx va))) := by
    rw [h.binding, ← hext.grows.entry h.forest h₁.forest h.self, Tables.entry, hleaf]
    rfl
  have hafter := h₁.binding_setWord hleaf hs (Tables.word_insert h₁.forest hslot)
    (.inr ⟨pp, hpp, newEntry_maps hperm⟩)
  have hrefs : ∀ q, ¬ vm.OnFreeList q →
      (T.extend root (path va)).2.ref q = (vm.pages q).ppRef := by
    intro q hq
    rw [h.shows.ref]
    exact (hext.grows.old q (.inl fun hin => hq (h.shows.onFreeList.mpr hin))).2.2
  refine ⟨vm', hrun, ?_, ?_, ?_, ?_, ?_, ?_⟩
  · intro va' hsame
    rw [hafter va', if_pos hsame, decode_newEntry (lt_of_lt_of_le hpp h.forest.bound) hperm]
  · intro va' hother
    rw [hafter va', if_neg hother, hext.grows.entry h.forest h₁.forest h.self, h.binding]
  · intro flags hflags
    rw [hbefore, Except.ok.injEq] at hflags
    obtain ⟨hword, htarget⟩ := target_of_decode hflags
    rw [hs.ref, Tables.ref_insert_same hword htarget, hrefs pp hfree]
  · intro hnew
    have hmax : (T.extend root (path va)).2.ref pp ≠ 65535 := by
      rw [hrefs pp hfree]
      exact fun heq => absurd (congrArg BitVec.toNat heq) (Nat.ne_of_lt href)
    rw [hs.ref, ← hrefs pp hfree, ← toNat_add_one hmax]
    obtain hzero | ⟨c, hword, htarget, hdecode⟩ := h₁.word_cases hslot
    · rw [Tables.ref_insert_zero hzero, update_self]
    · have hne : c ≠ pp := by
        rintro rfl
        exact hnew _ (hbefore.trans (congrArg Except.ok hdecode))
      rw [Tables.ref_insert_other hword htarget hne, update_self]
  · intro c flags hne hflags
    obtain ⟨hcfree, hpos⟩ := h.of_binding hflags
    have hcfree₁ : c ∉ (T.extend root (path va)).2.free := fun hin =>
      hcfree (h.shows.onFreeList.mpr (hext.grows.free.subset hin))
    rw [hbefore, Except.ok.injEq] at hflags
    obtain ⟨hword, htarget⟩ := target_of_decode hflags
    have hlater : (vm'.pages c).ppRef = (vm.pages c).ppRef - 1 := by
      rw [hs.ref, Tables.ref_insert_other hword htarget (Ne.symm hne).symm, update_of_ne hne,
        update_self, hrefs c hcfree]
    have hnat : (vm.pages c).ppRef.toNat ≠ 0 := fun hzero => hpos (BitVec.eq_of_toNat_eq hzero)
    refine ⟨?_, ?_⟩
    · rw [hlater, toNat_sub_one hpos]
      omega
    · rw [hs.onFreeList, Tables.mem_free_insert_other hword htarget hne hcfree₁, hlater,
        hrefs c hcfree]
  · intro q hq hqfree hflags
    rw [hs.ref, ← hrefs q hqfree]
    obtain hzero | ⟨c, hword, htarget, hdecode⟩ := h₁.word_cases hslot
    · rw [Tables.ref_insert_zero hzero, update_of_ne hq]
    · by_cases hsame : c = pp
      · rw [Tables.ref_insert_same hword (hsame ▸ htarget)]
      · have hqc : q ≠ c := by
          rintro rfl
          exact hflags _ (hbefore.trans (congrArg Except.ok hdecode))
        rw [Tables.ref_insert_other hword htarget hsame, update_of_ne hq,
          update_of_ne hqc]

/-! ### Directories built from a zeroed page -/

theorem of_zeroed {pt : Pt} (hs : vm.Shows n pt) (hroot : root < n) (hnot : root ∉ pt.free)
    (hfree : ∀ p ∈ pt.free, pt.ref p = 0) (hzero : ∀ i < 512, pt.word root i = 0) :
    vm.IsPageTable n root
      ⟨pt, fun p => if p = root then some root else none, fun _ => 0, none,
        fun p => (pt.ref p).toNat⟩ := by
  refine ⟨hs, Forest.of_zeroed hs hroot hnot hfree hzero none, rfl, fun p r hp => ?_⟩
  by_cases hpr : p = root
  · exact (Option.some.inj ((if_pos hpr).symm.trans hp)).symm
  · cases (if_neg hpr).symm.trans hp

/-- A directory in which each page is a table once is a finite map from pages of addresses to pages of
memory: `page_insert` binds one address, or changes nothing when it runs out of memory, and
`page_remove` removes one binding. -/
theorem finite_map (h : vm.IsPageTable n root T) (hpp : pp < n) (hfree : ¬ vm.OnFreeList pp)
    (href : (vm.pages pp).ppRef.toNat < 65535) (hperm : perm.toNat < 2 ^ 10) (va : Word) :
    ((∃ vm', vm.pageInsert (pageKva root) (some pp) va perm = .ok (0, vm') ∧
        vm.Inserted vm' (pageKva root) va pp perm) ∨
      ∃ vm', vm.pageInsert (pageKva root) (some pp) va perm = .ok (-eNoMem, vm') ∧
        (∀ va', vm'.binding (pageKva root) va' = vm.binding (pageKva root) va') ∧
        ∀ q, ¬ vm.OnFreeList q → (vm'.pages q).ppRef = (vm.pages q).ppRef) ∧
    ∃ vm', vm.pageRemove (pageKva root) va = .ok vm' ∧
      (∀ va', vpn va' = vpn va → vm'.binding (pageKva root) va' = .ok none) ∧
      ∀ va', vpn va' ≠ vpn va → vm'.binding (pageKva root) va' = vm.binding (pageKva root) va' := by
  refine ⟨?_, ?_⟩
  · cases hfound : (T.extend root (path va)).1 with
    | some leaf => exact .inl (h.inserted hpp hfree href hperm hfound)
    | none =>
        obtain ⟨vm', hrun, hs⟩ := h.shows.pageInsert_full h.forest h.forest.kern.1 h.forest.kern.2
          (h.self_ne va) hfound (some pp) perm
        have hgrows := (h.extended va).grows
        have h' := h.extend va hs
        refine .inr ⟨vm', hrun, fun va' => ?_, fun q hq => ?_⟩
        · rw [h'.binding, h.binding, hgrows.entry h.forest h'.forest h.self]
        · rw [hs.ref, h.shows.ref]
          exact (hgrows.old q (.inl fun hin => hq (h.shows.onFreeList.mpr hin))).2.2
  · obtain ⟨vm', hrun, hs⟩ := h.shows.pageRemove h.forest (h.sound va) fun leaf hleaf => h.leaf hleaf
    refine ⟨vm', hrun, ?_⟩
    unfold Tables.remove at hs
    cases hleaf : T.descend root (path va) with
    | none =>
        rw [hleaf] at hs
        have h' : vm'.IsPageTable n root T := ⟨hs, h.forest, h.self, h.own⟩
        refine ⟨fun va' hsame => ?_, fun va' _ => ?_⟩
        · rw [h'.binding, Tables.entry, (vpn_eq_iff.mp hsame).1, hleaf]
          rfl
        · rw [h'.binding, h.binding]
    | some leaf =>
        rw [hleaf] at hs
        have hword : (T.unmap leaf (ptx va)).word = (T.setWord leaf (ptx va) 0).word := by
          funext q j
          exact h.forest.word_unmap (h.leaf hleaf) q j
        have hafter := h.binding_setWord hleaf hs hword (.inl rfl)
        refine ⟨fun va' hsame => ?_, fun va' hother => ?_⟩
        · rw [hafter va', if_pos hsame]
          rfl
        · rw [hafter va', if_neg hother, h.binding]

end Vm.IsPageTable

def Vm.blank : Vm where
  npages := 8
  mem _ := some 0
  pages p :=
    { ppLink := if 2 ≤ p ∧ p < 7 then some (p + 1) else none, ppRef := if p = 0 then 1 else 0 }
  pageFreeList := some 2

theorem Vm.blank_shows : Vm.blank.Shows 8
    ⟨fun _ _ => 0, fun p => if p = 0 then 1 else 0, [2, 3, 4, 5, 6, 7]⟩ where
  npages := rfl
  bound := by decide
  word _ _ _ _ := rfl
  ref _ := rfl
  list := ⟨rfl, rfl, rfl, rfl, rfl, rfl, rfl⟩
  nodup := by decide
  free := by decide
  unlinked p hp := by
    refine if_neg fun hin => hp ?_
    simp only [List.mem_cons, List.not_mem_nil, or_false]
    omega

namespace Vm.IsPageTable

theorem finite_map_blank :
    (∃ vm', Vm.blank.pageInsert (pageKva 0) (some 1) 0x1000 7 = .ok (0, vm') ∧
      Vm.blank.Inserted vm' (pageKva 0) 0x1000 1 7) ∧
    (∃ vm', Vm.blank.pageRemove (pageKva 0) 0x1000 = .ok vm' ∧
      ∀ va', vpn va' = vpn 0x1000 → vm'.binding (pageKva 0) va' = .ok none) := by
  have htree := of_zeroed Vm.blank_shows (show 0 < 8 by decide) (by decide) (by decide) fun _ _ => rfl
  have hfree : ¬ Vm.blank.OnFreeList 1 := by
    rw [Vm.blank_shows.onFreeList]
    decide
  obtain ⟨hinsert, vm', hremove, hgone, -⟩ := finite_map htree (show 1 < 8 by decide) hfree
    (by decide) (show (7 : BitVec 32).toNat < 2 ^ 10 by decide) 0x1000
  refine ⟨hinsert.resolve_right ?_, vm', hremove, hgone⟩
  rintro ⟨vm₁, hrun, -⟩
  have hok : (Vm.blank.pageInsert (pageKva 0) (some 1) 0x1000 7).toOption.map Prod.fst = some 0 := by
    decide +kernel
  rw [hrun] at hok
  cases hok

end Vm.IsPageTable

end ZynexOS
