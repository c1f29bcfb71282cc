import ZynexOS.Kern.Proof.TreeGrow
import ZynexOS.Kern.Proof.Entries

/-! # Mapping and unmapping pages -/

namespace ZynexOS

open Library Function

namespace Tables

variable {n kd : Nat} {fixed : Nat → Nat → Bool} {T : Tables} {p i c pp : Nat} {w : Word}

theorem unmap_of_zero (hword : T.word p i = 0) : T.unmap p i = T := by
  simp [unmap, hword, Pt.target]

theorem unmap_of_maps (hc : c < 2 ^ 19) (hmaps : MapsPage (T.word p i) c) :
    T.unmap p i = { T with toPt := (T.decref c).setWord p i 0 } := by
  simp only [unmap, hmaps.target_eq hc]

@[simp] theorem own_unmap (T : Tables) (p i : Nat) : (T.unmap p i).own = T.own := by
  unfold unmap
  split <;> rfl

@[simp] theorem lvl_unmap (T : Tables) (p i : Nat) : (T.unmap p i).lvl = T.lvl := by
  unfold unmap
  split <;> rfl

@[simp] theorem self_unmap (T : Tables) (p i : Nat) : (T.unmap p i).self = T.self := by
  unfold unmap
  split <;> rfl

@[simp] theorem other_unmap (T : Tables) (p i : Nat) : (T.unmap p i).other = T.other := by
  unfold unmap
  split <;> rfl

@[simp] theorem own_insert (T : Tables) (p i pp : Nat) (w : Word) :
    (T.insert p i pp w).own = T.own := by
  unfold insert
  split_ifs <;> simp [enter]

@[simp] theorem lvl_insert (T : Tables) (p i pp : Nat) (w : Word) :
    (T.insert p i pp w).lvl = T.lvl := by
  unfold insert
  split_ifs <;> simp [enter]

@[simp] theorem self_insert (T : Tables) (p i pp : Nat) (w : Word) :
    (T.insert p i pp w).self = T.self := by
  unfold insert
  split_ifs <;> simp [enter]

@[simp] theorem other_insert (T : Tables) (p i pp : Nat) (w : Word) :
    (T.insert p i pp w).other = T.other := by
  unfold insert
  split_ifs <;> simp [enter]

@[simp] theorem own_remove (T : Tables) (d : Nat) (va : Word) : (T.remove d va).own = T.own := by
  unfold remove
  split <;> simp

@[simp] theorem lvl_remove (T : Tables) (d : Nat) (va : Word) : (T.remove d va).lvl = T.lvl := by
  unfold remove
  split <;> simp

@[simp] theorem self_remove (T : Tables) (d : Nat) (va : Word) : (T.remove d va).self = T.self := by
  unfold remove
  split <;> simp

@[simp] theorem other_remove (T : Tables) (d : Nat) (va : Word) : (T.remove d va).other = T.other := by
  unfold remove
  split <;> simp

theorem notMem_free_insert (hpp : pp ∉ T.free) : pp ∉ (T.insert p i pp w).free := by
  unfold insert
  split_ifs with hzero hsame
  · exact hpp
  · exact hpp
  · show pp ∉ (T.unmap p i).free
    unfold unmap
    cases htarget : Pt.target (T.word p i) with
    | none => exact hpp
    | some c =>
        rw [htarget, Option.some.injEq] at hsame
        show pp ∉ (T.decref c).free
        rw [Pt.mem_free_decref, not_or]
        exact ⟨hpp, fun heq => hsame heq.1.symm⟩

end Tables

namespace Forest

variable {n kd : Nat} {fixed : Nat → Nat → Bool} {T : Tables} {p i c pp : Nat} {w : Word}

section

variable (h : Forest n kd fixed T)
include h

theorem leaf_cases (hslot : T.Leaf fixed p i) :
    T.word p i = 0 ∨ ∃ c, c < n ∧ MapsPage (T.word p i) c ∧ 0 < T.refs n fixed c ∧ T.ref c ≠ 0 ∧
      c ∉ T.free := by
  obtain ⟨r, hr⟩ := Option.ne_none_iff_exists'.mp hslot.own
  obtain hzero | ⟨c, hc, hmaps⟩ := h.leaf p r i hr hslot.lvl hslot.index hslot.counted
  · exact .inl hzero
  · have hpos := h.refs_pos hr hslot.lvl hslot.index hslot.counted hmaps hc
    have href : T.ref c ≠ 0 := by
      intro hzero
      have hnone := (h.refs_eq_zero hc hzero).1
      omega
    exact .inr ⟨c, hc, hmaps, hpos, href, fun hin => href (h.free c hin).2⟩

theorem own_of_last (hc : c < n) (hpos : 0 < T.refs n fixed c)
    (hroot : c = kd → T.other kd ≠ 0) (hlast : T.ref c - 1 = 0) : T.own c = none := by
  by_contra htable
  have hrefs := h.refs c hc
  have hsmall : (T.ref c).toNat ≤ 1 := by
    have hone : T.ref c = 1 := by
      have hadd := congrArg (· + 1) hlast
      simpa using hadd
    rw [hone]
    decide
  have hheld : 0 < T.held kd c := by
    unfold Tables.held
    by_cases hkd : c = kd
    · have hother := hroot hkd
      rw [hkd]
      omega
    · rw [if_pos ⟨htable, hkd⟩]
      omega
  omega

theorem unmap (hslot : T.Leaf fixed p i)
    (hroot : Pt.target (T.word p i) = some kd → T.other kd ≠ 0) :
    Forest n kd fixed (T.unmap p i) := by
  obtain ⟨r, hr⟩ := Option.ne_none_iff_exists'.mp hslot.own
  obtain hzero | ⟨c, hc, hmaps, hpos, href, hfree⟩ := h.leaf_cases hslot
  · rw [Tables.unmap_of_zero hzero]
    exact h
  have hbound := lt_of_lt_of_le hc h.bound
  have htarget := hmaps.target_eq hbound
  have hrefs : ((T.decref c).setWord p i 0).ref = update T.ref c (T.ref c - 1) :=
    Pt.ref_decref T.toPt c
  rw [Tables.unmap_of_maps hbound hmaps]
  refine h.setLeaf hr hslot.lvl hslot.index hslot.counted (w := 0) ?_ (.inl rfl) ?_
    (Pt.nodup_decref h.nodup hfree) ?_
  · funext q j
    rw [Pt.word_setWord, Pt.word_setWord, Pt.word_decref]
  · intro q hq
    rw [htarget, show Pt.target 0 = none from rfl, hrefs]
    by_cases hqc : q = c
    · subst hqc
      have hnat : (T.ref q).toNat ≠ 0 := fun hzero => href (BitVec.eq_of_toNat_eq hzero)
      rw [update_self, toNat_sub_one href, if_pos rfl, if_neg nofun]
      omega
    · rw [update_of_ne hqc, if_neg fun heq => hqc (Option.some.inj heq).symm, if_neg nofun]
  · intro q hq
    rw [hrefs]
    obtain hq | ⟨rfl, hlast⟩ := Pt.mem_free_decref.mp hq
    · have hqc : q ≠ c := fun heq => hfree (heq ▸ hq)
      rw [update_of_ne hqc]
      exact ⟨(h.free q hq).1, h.own_free hq, (h.free q hq).2⟩
    · rw [update_self]
      have hroot' : q = kd → T.other kd ≠ 0 := fun heq => hroot (by rw [htarget, heq])
      exact ⟨hc, h.own_of_last hc hpos hroot' hlast, hlast⟩

theorem word_unmap (hslot : T.Leaf fixed p i) (q j : Nat) :
    (T.unmap p i).word q j = if q = p ∧ j = i then 0 else T.word q j := by
  obtain hzero | ⟨c, hc, hmaps, -⟩ := h.leaf_cases hslot
  · rw [Tables.unmap_of_zero hzero]
    split_ifs with hsame
    · rw [hsame.1, hsame.2, hzero]
    · rfl
  · rw [Tables.unmap_of_maps (lt_of_lt_of_le hc h.bound) hmaps, Pt.word_setWord, Pt.word_decref]

theorem enter (hslot : T.Leaf fixed p i) (hword : T.word p i = 0)
    (hpp : pp < n) (hfree : pp ∉ T.free) (hmax : T.ref pp ≠ 65535) (hw : MapsPage w pp) :
    Forest n kd fixed (T.enter p i pp w) := by
  obtain ⟨r, hr⟩ := Option.ne_none_iff_exists'.mp hslot.own
  have hbound := lt_of_lt_of_le hpp h.bound
  have hself : (T.enter p i pp w).ref pp = T.ref pp + 1 := update_self ..
  have href : ∀ q, q ≠ pp → (T.enter p i pp w).ref q = T.ref q := fun q hq =>
    update_of_ne hq ..
  refine h.setLeaf hr hslot.lvl hslot.index hslot.counted (w := w) rfl
    (.inr ⟨pp, hpp, hw⟩) ?_ h.nodup ?_
  · intro q hq
    rw [hword, hw.target_eq hbound, show Pt.target 0 = none from rfl, if_neg nofun]
    by_cases hqpp : q = pp
    · subst hqpp
      rw [if_pos rfl, ← toNat_add_one hmax]
      exact congrArg BitVec.toNat hself
    · rw [if_neg fun heq => hqpp (Option.some.inj heq).symm]
      exact congrArg BitVec.toNat (href q hqpp)
  · intro q hq
    refine ⟨(h.free q hq).1, h.own_free hq, ?_⟩
    exact (href q fun heq => hfree (heq ▸ hq)).trans (h.free q hq).2

theorem rewrite (hslot : T.Leaf fixed p i) (hpp : pp < n)
    (hold : MapsPage (T.word p i) pp) (hw : MapsPage w pp) :
    Forest n kd fixed { T with toPt := T.setWord p i w } := by
  obtain ⟨r, hr⟩ := Option.ne_none_iff_exists'.mp hslot.own
  have hbound := lt_of_lt_of_le hpp h.bound
  refine h.setLeaf hr hslot.lvl hslot.index hslot.counted (w := w) rfl
    (.inr ⟨pp, hpp, hw⟩) ?_ h.nodup ?_
  · intro q hq
    rw [hold.target_eq hbound, hw.target_eq hbound]
    rfl
  · intro q hq
    exact ⟨(h.free q hq).1, h.own_free hq, (h.free q hq).2⟩

theorem insert (hslot : T.Leaf fixed p i) (hpp : pp < n)
    (hfree : pp ∉ T.free) (hmax : T.ref pp ≠ 65535) (hw : MapsPage w pp)
    (hroot : Pt.target (T.word p i) = some kd → T.other kd ≠ 0) :
    Forest n kd fixed (T.insert p i pp w) := by
  obtain hzero | ⟨c, hc, hmaps, -⟩ := h.leaf_cases hslot
  · rw [Tables.insert, if_pos hzero]
    exact h.enter hslot hzero hpp hfree hmax hw
  · have hbound := lt_of_lt_of_le hc h.bound
    rw [Tables.insert, if_neg hmaps.ne_zero, hmaps.target_eq hbound]
    by_cases hsame : c = pp
    · subst hsame
      rw [if_pos rfl]
      exact h.rewrite hslot hpp hmaps hw
    · have hunmap := Tables.unmap_of_maps hbound hmaps
      have hlater : pp ∉ (T.unmap p i).free := by
        rw [hunmap]
        exact fun hin => (Pt.mem_free_decref.mp hin).elim hfree fun heq => hsame heq.1.symm
      have href : (T.unmap p i).ref pp = T.ref pp := by
        rw [hunmap]
        exact (congrFun (Pt.ref_decref T.toPt c) pp).trans (update_of_ne (Ne.symm hsame) ..)
      rw [if_neg fun heq => hsame (Option.some.inj heq)]
      refine (h.unmap hslot hroot).enter ?_ ?_ hpp hlater (href ▸ hmax) hw
      · rw [hunmap]
        exact ⟨hslot.own, hslot.lvl, hslot.index, hslot.counted⟩
      · rw [hunmap]
        exact if_pos ⟨rfl, rfl⟩

theorem descend_leaf {d leaf : Nat} {va : Word} (hown : T.own d = some d)
    (hlvl : T.lvl d = 0) (hva : T.self ≠ some (pd0x va)) (hleaf : T.descend d (path va) = some leaf) :
    T.own leaf = some (T.root kd d (pd0x va)) ∧ T.lvl leaf = 3 := by
  have hext := Tables.extended h hown hlvl hva
  have hsame : ((T.extend d (path va)).1, (T.extend d (path va)).2.toPt) = (some leaf, T.toPt) := by
    rw [Tables.toPt_extend, Pt.extend_of_descend h.bound (h.sound hown hlvl hva) hleaf]
  obtain ⟨hfirst, hsecond⟩ := Prod.ext_iff.mp hsame
  obtain ⟨hleafOwn, hleafLvl, -⟩ := hext.found leaf hfirst
  have hfree : (T.extend d (path va)).2.free = T.free := congrArg Pt.free hsecond
  have hold : leaf ∉ T.free ∨ leaf ∈ (T.extend d (path va)).2.free := by
    rw [hfree]
    exact (em _).symm
  obtain ⟨hown', hlvl', -⟩ := hext.grows.old leaf hold
  exact ⟨hown'.symm.trans hleafOwn, hlvl'.symm.trans hleafLvl⟩

theorem remove {d : Nat} {va : Word}
    (hslot : ∀ leaf, T.descend d (path va) = some leaf → T.Leaf fixed leaf (ptx va))
    (hroot : ∀ leaf, T.descend d (path va) = some leaf →
      Pt.target (T.word leaf (ptx va)) = some kd → T.other kd ≠ 0) :
    Forest n kd fixed (T.remove d va) := by
  unfold Tables.remove
  cases hleaf : T.descend d (path va) with
  | none => exact h
  | some leaf => exact h.unmap (hslot leaf hleaf) (hroot leaf hleaf)

end

end Forest

theorem MapsPage.and_not_insertMask {w : Word} {c : Nat} (hmaps : MapsPage w c) (hc : c < 2 ^ 19) :
    w &&& ~~~Vm.insertMask = pteEntry (page2pa c) := by
  obtain ⟨flags, rfl, hflags, -⟩ := hmaps
  rw [BitVec.and_comm, BitVec.and_or_distrib_left, BitVec.and_comm _ (pteEntry _),
    and_not_eq_self (pteEntry_and_insertMask hc), BitVec.and_comm,
    and_not_eq_zero_iff.mpr (and_insertMask_of_lt hflags), BitVec.or_zero]

theorem pteEntry_page2pa_inj {c c' : Nat} (hc : c < 2 ^ 19) (hc' : c' < 2 ^ 19)
    (heq : pteEntry (page2pa c) = pteEntry (page2pa c')) : c = c' := by
  have hnat := congrArg BitVec.toNat heq
  rw [pteEntry_page2pa_toNat hc, pteEntry_page2pa_toNat hc'] at hnat
  omega

theorem newEntry_maps {pp : Nat} {perm : BitVec 32} (hperm : perm.toNat < 2 ^ 10) :
    MapsPage (Vm.newEntry pp perm) pp := by
  refine ⟨perm.setWidth 64 ||| pteV, ?_, ?_, ?_⟩
  · rw [Vm.newEntry, signExtend_of_lt hperm, BitVec.or_assoc]
  · rw [BitVec.toNat_or, BitVec.toNat_setWidth]
    refine Nat.or_lt_two_pow ?_ (by decide)
    omega
  · rw [BitVec.and_or_distrib_right, BitVec.and_self]
    intro hzero
    exact absurd (BitVec.or_eq_zero_iff.mp hzero).2 (by decide)

namespace Vm.Shows

variable {vm : Vm} {n kd : Nat} {fixed : Nat → Nat → Bool} {T : Tables} {d leaf i pp : Nat}
  {va : Word}

section

variable (hs : vm.Shows n T.toPt) (h : Forest n kd fixed T)
include hs h

theorem load_leaf (hslot : T.Leaf fixed leaf i) :
    vm.load (slotAddr leaf i) = .ok (T.word leaf i) := by
  obtain ⟨r, hr⟩ := Option.ne_none_iff_exists'.mp hslot.own
  exact hs.load (h.table leaf r hr).1 hslot.index

theorem pageRemove_leaf (hsound : T.Sound n d (path va)) (hleaf : T.descend d (path va) = some leaf)
    (hslot : T.Leaf fixed leaf (ptx va)) :
    ∃ vm', vm.pageRemove (pageKva d) va = .ok vm' ∧ vm'.Shows n (T.unmap leaf (ptx va)).toPt := by
  have hwalk := hs.pgdirWalkThrough hsound.linked
  rw [hleaf] at hwalk
  have hload := hs.load_leaf h hslot
  obtain hzero | ⟨c, hc, hmaps, -, href, hfree⟩ := h.leaf_cases hslot
  · rw [Tables.unmap_of_zero hzero]
    refine ⟨vm, ?_, hs⟩
    rw [hzero] at hload
    simp only [Vm.pageRemove, pageLookup, hwalk, Option.map_some, ok_bind, hload, if_pos]
    rfl
  · have hbound := lt_of_lt_of_le hc h.bound
    have hlookup : vm.pageLookup (pageKva d) va = .ok (some (c, slotAddr leaf (ptx va))) := by
      refine pageLookup_eq_some.mpr ⟨hwalk, _, hload, hmaps.ne_zero, ?_, ?_⟩
      · rw [hmaps.ptePhy_eq hbound, pgnum_page2pa hbound, hs.npages]
        exact hc
      · rw [hmaps.ptePhy_eq hbound, pgnum_page2pa hbound]
    rw [Tables.unmap_of_maps hbound hmaps]
    obtain ⟨mid, hdecref, hmid⟩ := hs.pageDecref hc hfree
    obtain ⟨r, hr⟩ := Option.ne_none_iff_exists'.mp hslot.own
    obtain ⟨vm', hstore, hshows⟩ := hmid.store (h.table leaf r hr).1 hslot.index 0
    refine ⟨vm', ?_, hshows⟩
    simp only [Vm.pageRemove, hlookup, ok_bind]
    rw [if_neg (by rw [hs.ref]; exact href), hdecref, ok_bind, hstore]

theorem pageRemove (hsound : T.Sound n d (path va))
    (hslot : ∀ leaf, T.descend d (path va) = some leaf → T.Leaf fixed leaf (ptx va)) :
    ∃ vm', vm.pageRemove (pageKva d) va = .ok vm' ∧ vm'.Shows n (T.remove d va).toPt := by
  unfold Tables.remove
  cases hleaf : T.descend d (path va) with
  | none =>
      have hwalk := hs.pgdirWalkThrough hsound.linked
      rw [hleaf] at hwalk
      refine ⟨vm, ?_, hs⟩
      simp only [Vm.pageRemove, pageLookup, hwalk, Option.map_none, ok_bind]
      rfl
  | some leaf => exact hs.pageRemove_leaf h hsound hleaf (hslot leaf hleaf)

theorem writeEntry (hsound : T.Sound n d (path va)) (hleaf : T.descend d (path va) = some leaf)
    (hslot : T.Leaf fixed leaf (ptx va)) (hpp : pp < n) (perm : BitVec 32) :
    ∃ vm', vm.writeEntry (pageKva d) va (slotAddr leaf (ptx va)) pp perm = .ok vm' ∧
      vm'.Shows n (T.insert leaf (ptx va) pp (newEntry pp perm)).toPt := by
  obtain ⟨r, hr⟩ := Option.ne_none_iff_exists'.mp hslot.own
  have hin := (h.table leaf r hr).1
  have hload := hs.load_leaf h hslot
  rw [Vm.writeEntry, hload, ok_bind]
  obtain hzero | ⟨c, hc, hmaps, -⟩ := h.leaf_cases hslot
  · rw [if_pos hzero, Tables.insert, if_pos hzero]
    exact (hs.incRef pp).store hin hslot.index (newEntry pp perm)
  · have hbound := lt_of_lt_of_le hc h.bound
    have hbound' := lt_of_lt_of_le hpp h.bound
    rw [if_neg hmaps.ne_zero, Tables.insert, if_neg hmaps.ne_zero, hmaps.and_not_insertMask hbound,
      hmaps.target_eq hbound]
    by_cases hsame : c = pp
    · rw [if_neg (by rw [hsame, ne_eq, not_not]), if_pos (by rw [hsame])]
      exact hs.store hin hslot.index (newEntry pp perm)
    · have hother : pteEntry (page2pa c) ≠ pteEntry (page2pa pp) := fun heq =>
        hsame (pteEntry_page2pa_inj hbound hbound' heq)
      rw [if_pos hother, if_neg fun heq => hsame (Option.some.inj heq)]
      obtain ⟨mid, hremove, hmid⟩ := hs.pageRemove_leaf h hsound hleaf hslot
      rw [hremove, ok_bind]
      exact (hmid.incRef pp).store hin hslot.index (newEntry pp perm)

end

theorem takeHead {pt : Pt} (hs : vm.Shows n pt) (hpp : pp ∉ pt.free) : vm.takeHead pp = vm := by
  refine if_neg fun hhead => hpp ?_
  have hlist := hs.list
  rw [hhead] at hlist
  obtain ⟨rest, hrest, -⟩ := hlist.exists_cons
  rw [hrest]
  exact List.mem_cons_self

section

variable (hs : vm.Shows n T.toPt) (h : Forest n kd fixed T) (hown : T.own d = some d)
  (hlvl : T.lvl d = 0) (hva : T.self ≠ some (pd0x va))
include hs h hown hlvl hva

theorem walk : ∃ vm', vm.pgdirWalk (pageKva d) va true =
        .ok ((T.extend d (path va)).1.map fun leaf => slotAddr leaf (ptx va), vm') ∧
      vm'.Shows n (T.extend d (path va)).2.toPt := by
  have hwalk := hs.pgdirWalk (h.sound hown hlvl hva)
  rw [← Tables.toPt_extend] at hwalk
  exact hwalk

theorem pageInsert_full (hfull : (T.extend d (path va)).1 = none)
    (pp : Option Nat) (perm : BitVec 32) :
    ∃ vm', vm.pageInsert (pageKva d) pp va perm = .ok (-eNoMem, vm') ∧
      vm'.Shows n (T.extend d (path va)).2.toPt := by
  obtain ⟨vm', hwalk, hshows⟩ := hs.walk h hown hlvl hva
  rw [hfull] at hwalk
  refine ⟨vm', ?_, hshows⟩
  simp only [Vm.pageInsert, hwalk, Option.map_none, ok_bind]
  rfl

theorem pageInsert_found (hfound : (T.extend d (path va)).1 = some leaf)
    (hfixed : fixed leaf (ptx va) = false) (hpp : pp < n) (hfree : pp ∉ T.free) (perm : BitVec 32) :
    ∃ vm', vm.pageInsert (pageKva d) (some pp) va perm = .ok (0, vm') ∧
      vm'.Shows n ((T.extend d (path va)).2.insert leaf (ptx va) pp (newEntry pp perm)).toPt := by
  have hext := Tables.extended h hown hlvl hva
  obtain ⟨hown', hlvl'⟩ := hext.root h hown
  obtain ⟨hleafOwn, hleafLvl, hdescend⟩ := hext.found leaf hfound
  have hslot : (T.extend d (path va)).2.Leaf fixed leaf (ptx va) :=
    ⟨by rw [hleafOwn]; nofun, hleafLvl, ptx_lt va, hfixed⟩
  obtain ⟨mid, hwalk, hmid⟩ := hs.walk h hown hlvl hva
  rw [hfound] at hwalk
  obtain ⟨vm', hwrite, hshows⟩ := hmid.writeEntry hext.forest
    (hext.forest.sound hown' (hlvl'.trans hlvl) (hext.grows.self.symm ▸ hva)) hdescend hslot hpp perm
  have hkept : pp ∉ ((T.extend d (path va)).2.insert leaf (ptx va) pp (newEntry pp perm)).free :=
    Tables.notMem_free_insert fun hin => hfree (hext.grows.free.subset hin)
  refine ⟨vm', ?_, hshows⟩
  simp only [Vm.pageInsert, hwalk, Option.map_some, ok_bind, hwrite, hshows.takeHead hkept]
  rfl

end

end Vm.Shows

end ZynexOS
