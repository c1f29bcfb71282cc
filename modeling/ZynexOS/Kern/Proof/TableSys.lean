import ZynexOS.Kern.TableSys
import ZynexOS.Kern.Proof.PageTableMap
import ZynexOS.Kern.Proof.TreeSetup

/-!
# Every directory is a tree

Each call refines an operation on the forest, and the record of the owners is the use of the pages.
-/

namespace ZynexOS

open Library Function

/-! ### The free list -/

namespace Forest

variable {n kd : Nat} {fixed : Nat → Nat → Bool} {T T' : Tables} {p i c pp : Nat} {w : Word}

theorem pop (h : Forest n kd fixed T) {rest : List Nat} {pt : Pt} (hfree : T.free = c :: rest)
    (hword : ∀ q j, q ≠ c → pt.word q j = T.word q j) (href : pt.ref = T.ref) (hlist : pt.free = rest) :
    Forest n kd fixed { T with toPt := pt } := by
  have hmem : c ∈ T.free := by simp [hfree]
  have hold : ∀ q r, T.own q = some r → q ≠ c := by
    rintro q r hq rfl
    rw [h.own_free hmem] at hq
    cases hq
  have hnodup : (c :: rest).Nodup := hfree ▸ h.nodup
  refine h.reword (fun q r j hq _ => hword q j (hold q r hq)) ?_ ?_ ?_ ?_
  · intro q r j hq hlvl hj hfix
    rw [hword q j (hold q r hq)]
    exact h.leaf q r j hq hlvl hj hfix
  · intro q hq
    rw [href, h.refs q hq]
    refine congrArg (· + T.held kd q) (count_congr fun slot _ => ?_)
    by_cases hown : T.own slot.1 = none
    · simp [Tables.mapsTo, hown]
    · obtain ⟨r, hr⟩ := Option.ne_none_iff_exists'.mp hown
      simp only [Tables.mapsTo, hword slot.1 slot.2 (hold slot.1 r hr)]
  · rw [hlist]
    exact (List.nodup_cons.mp hnodup).2
  · intro q hq
    rw [hlist] at hq
    have hin : q ∈ T.free := by simp [hfree, hq]
    rw [href]
    exact ⟨(h.free q hin).1, h.own_free hin, (h.free q hin).2⟩

theorem push (h : Forest n kd fixed T) (hidle : T.Idle n p) :
    Forest n kd fixed { T with toPt := T.push p } := by
  refine h.reword (fun _ _ _ _ _ => rfl) h.leaf h.refs ?_ ?_
  · exact List.nodup_cons.mpr ⟨hidle.free, h.nodup⟩
  · intro q hq
    obtain rfl | hq := List.mem_cons.mp hq
    · exact ⟨hidle.bound, hidle.own, hidle.ref⟩
    · exact ⟨(h.free q hq).1, h.own_free hq, (h.free q hq).2⟩

end Forest

/-! ### Idle pages -/

namespace Tables.Idle

variable {n kd d m r : Nat} {fixed : Nat → Nat → Bool} {T T' : Tables} {p q i pp : Nat} {w : Word}

theorem grows (hidle : T.Idle n q) (hgrows : T.Grows T' r) : T'.Idle n q := by
  obtain ⟨hown, -, href⟩ := hgrows.old q (.inl hidle.free)
  exact ⟨hidle.bound, fun hin => hidle.free (hgrows.free.subset hin), hown.trans hidle.own,
    href.trans hidle.ref⟩

theorem pruned (hidle : T.Idle n q) (hpruned : T.Pruned T' d m) : T'.Idle n q := by
  have hless := hpruned.ref q
  rw [hidle.ref] at hless
  refine ⟨hidle.bound, fun hin => ?_, hpruned.own_none hidle.own,
    BitVec.eq_of_toNat_eq (Nat.le_zero.mp hless)⟩
  exact (hpruned.free q hin).elim hidle.free fun hne => hne hidle.ref

theorem unmap (hidle : T.Idle n q) (h : Forest n kd fixed T) (hslot : T.Leaf fixed p i) :
    (T.unmap p i).Idle n q := by
  obtain ⟨r, hr⟩ := Option.ne_none_iff_exists'.mp hslot.own
  exact hidle.pruned (unmap_pruned h hslot hr)

theorem enter (hidle : T.Idle n q) (hq : q ≠ pp) : (T.enter p i pp w).Idle n q :=
  ⟨hidle.bound, hidle.free, hidle.own, (update_of_ne hq ..).trans hidle.ref⟩

theorem insert (hidle : T.Idle n q) (h : Forest n kd fixed T) (hslot : T.Leaf fixed p i)
    (hq : q ≠ pp) : (T.insert p i pp w).Idle n q := by
  unfold Tables.insert
  split_ifs
  · exact hidle.enter hq
  · exact ⟨hidle.bound, hidle.free, hidle.own, hidle.ref⟩
  · exact (hidle.unmap h hslot).enter hq

end Tables.Idle

/-! ### Tables referred to once -/

def Tables.Once (T : Tables) (kd : Nat) : Prop :=
  ∀ p r, T.own p = some r → T.ref p = if p = kd then 0 else 1

namespace Tables.Once

variable {n kd d m r : Nat} {fixed : Nat → Nat → Bool} {T T' : Tables} {p q i pp c : Nat} {w : Word}

theorem grows (honce : T.Once kd) (h : Forest n kd fixed T) (hgrows : T.Grows T' r) : T'.Once kd := by
  intro p r' hp
  by_cases hold : p ∉ T.free ∨ p ∈ T'.free
  · obtain ⟨hown, -, href⟩ := hgrows.old p hold
    rw [href]
    exact honce p r' (hown.symm.trans hp)
  · obtain ⟨hin, hnot⟩ := not_or.mp hold
    have hkd : p ≠ kd := by
      rintro rfl
      exact hin (h.table p p h.kern.1).2.1
    rw [if_neg hkd]
    exact (hgrows.made p (not_not.mp hin) hnot).2.1

theorem pruned (honce : T.Once kd) (h' : Forest n kd fixed T') (hpruned : T.Pruned T' d m) :
    T'.Once kd := by
  intro p r hp
  have hown := hpruned.own_of_ne_none (p := p) (by rw [hp]; nofun)
  have hbefore := honce p r (hown.symm.trans hp)
  have hless := hpruned.ref p
  rw [hbefore] at hless
  have hrefs := h'.refs p (h'.table p r hp).1
  apply BitVec.eq_of_toNat_eq
  by_cases hkd : p = kd
  · rw [if_pos hkd] at hless ⊢
    exact Nat.le_zero.mp hless
  · rw [if_neg hkd] at hless ⊢
    have hheld : T'.held kd p = 1 + T'.other p := by
      rw [Tables.held, if_pos ⟨by rw [hp]; nofun, hkd⟩]
    have hone : (1 : BitVec 16).toNat = 1 := rfl
    omega

section

variable (honce : T.Once kd) (h : Forest n kd fixed T)
include honce h

theorem refs (hc : T.own c = some r) : T.refs n fixed c = 0 := by
  have hrefs := h.refs c (h.table c r hc).1
  rw [honce c r hc] at hrefs
  by_cases hkd : c = kd
  · rw [if_pos hkd] at hrefs
    exact (Nat.add_eq_zero_iff.mp hrefs.symm).1
  · rw [if_neg hkd, Tables.held, if_pos ⟨by simp [hc], hkd⟩] at hrefs
    have hone : (1 : BitVec 16).toNat = 1 := rfl
    omega

theorem rooted : T.Rooted n kd fixed := fun _ =>
  honce.refs h h.kern.1

theorem own_target (hslot : T.Leaf fixed p i)
    (hc : Pt.target (T.word p i) = some c) : T.own c = none := by
  obtain hzero | ⟨c', hc', hmaps, hpos, -⟩ := h.leaf_cases hslot
  · rw [hzero] at hc
    cases hc
  · rw [hmaps.target_eq (lt_of_lt_of_le hc' h.bound), Option.some.injEq] at hc
    subst hc
    by_contra htable
    obtain ⟨r, hr⟩ := Option.ne_none_iff_exists'.mp htable
    have hnone := honce.refs h hr
    omega

theorem insert (hslot : T.Leaf fixed p i) (hpp : T.own pp = none) :
    (T.insert p i pp w).Once kd := by
  intro q r hq
  rw [Tables.own_insert] at hq
  have hne : q ≠ pp := by
    rintro rfl
    rw [hpp] at hq
    cases hq
  have hsame : (T.unmap p i).ref q = T.ref q := by
    unfold Tables.unmap
    cases htarget : Pt.target (T.word p i) with
    | none => rfl
    | some c =>
        have hcq : q ≠ c := by
          rintro rfl
          rw [honce.own_target h hslot htarget] at hq
          cases hq
        exact (congrFun (Pt.ref_decref T.toPt c) q).trans (update_of_ne hcq ..)
  rw [← honce q r hq]
  unfold Tables.insert
  split_ifs
  · exact update_of_ne hne ..
  · rfl
  · exact (update_of_ne hne ..).trans hsame

end

end Tables.Once

/-! ### What a call leaves alone -/

namespace Tables

variable {n kd d m r r' : Nat} {fixed : Nat → Nat → Bool} {T T' T'' : Tables} {p i pp q : Nat} {w : Word}

/-- The tables of the directory `r` stay its tables, with their entries at the slots that are not shared. -/
def Spares (T T' : Tables) (r : Nat) : Prop :=
  ∀ p, T.own p = some r → T'.own p = some r ∧ T'.lvl p = T.lvl p ∧
    ∀ j < 512, (T.lvl p = 0 → j ∉ Kern.setupSlots) → T'.word p j = T.word p j

def Lost (T : Tables) (p : Nat) : Prop := T.ref p = 0 ∧ p ∉ T.free

theorem Spares.trans (h : T.Spares T' r) (h' : T'.Spares T'' r) : T.Spares T'' r := by
  intro p hp
  obtain ⟨hown, hlvl, hword⟩ := h p hp
  obtain ⟨hown', hlvl', hword'⟩ := h' p hown
  refine ⟨hown', hlvl'.trans hlvl, fun j hj hslot => ?_⟩
  rw [hword' j hj (hlvl ▸ hslot), hword j hj hslot]

theorem root_cases (T : Tables) (kd d i : Nat) : T.root kd d i = kd ∨ T.root kd d i = d := by
  unfold root
  split_ifs
  · exact .inl rfl
  · exact .inr rfl

theorem Grows.spares (hgrows : T.Grows T' r') (h : Forest n kd fixed T) (h' : Forest n kd fixed T')
    (hr : r ≠ r') (hkd : r ≠ kd) : T.Spares T' r := by
  intro p hp
  have hfree := (h.table p r hp).2.1
  have hfree' : p ∉ T'.free := fun hin => hfree (hgrows.free.subset hin)
  obtain ⟨hown, hlvl, -⟩ := hgrows.old p (.inl hfree)
  refine ⟨hown.trans hp, hlvl, fun j hj hslot => ?_⟩
  by_cases hzero : T.word p j = 0
  · by_cases hleaf : T.lvl p = 3
    · exact hgrows.leaf p j hfree (.inr hleaf)
    have hbound := (h.table p r hp).2.2.1
    have hdir : T'.Dir p j := by
      refine ⟨by omega, hj, fun ⟨htop, hself⟩ => ?_⟩
      -- the self map is not empty
      rw [hlvl] at htop
      obtain rfl := (h.table p r hp).2.2.2 htop
      rw [h.selfMap p j hp htop hkd (hgrows.self ▸ hself)] at hzero
      exact or_pteV_and_pteV_ne _ (by rw [hzero]; rfl)
    obtain hempty | ⟨c, hin, hnot, hlink⟩ := hgrows.fresh p j hfree' (.inr hzero)
    · rw [hempty, hzero]
    · obtain ⟨-, hc | ⟨htop, hshared, -⟩⟩ :=
        h'.of_link (hown.trans hp) hdir (h.free c hin).1 hlink
      · exact absurd (Option.some.inj (hc.symm.trans (hgrows.made c hin hnot).1)) hr
      · exact absurd hshared (hslot (hlvl ▸ htop))
  · exact hgrows.word p j hfree hzero

theorem Grows.lost (hgrows : T.Grows T' r) (hlost : T'.Lost p) : T.Lost p := by
  have hfree : p ∉ T.free := by
    intro hin
    have hone := (hgrows.made p hin hlost.2).2.1
    rw [hlost.1] at hone
    exact absurd hone (by decide)
  exact ⟨(hgrows.old p (.inl hfree)).2.2 ▸ hlost.1, hfree⟩

theorem Pruned.spares (hpruned : T.Pruned T' d m) (hr : r ≠ d) : T.Spares T' r := by
  intro p hp
  have hother : T.own p ≠ some d := by
    rw [hp]
    exact fun heq => hr (Option.some.inj heq)
  have hown := ((hpruned.own p).resolve_right fun hgone => hother hgone.1).trans hp
  refine ⟨hown, congrFun hpruned.lvl p, fun j _ _ => ?_⟩
  exact (hpruned.word p j (by simp [hown])).resolve_right fun hgone => hother hgone.1

theorem Pruned.lost (hpruned : T.Pruned T' d m) (hlost : T'.Lost p) : T.Lost p := by
  have hkept := mt (fun hp => hpruned.returned p hp hlost.1) hlost.2
  rw [not_or, not_not] at hkept
  exact ⟨hkept.2, hkept.1⟩

theorem insert_spares (h : Forest n kd fixed T) (hslot : T.Leaf fixed p i) (hown : T.own p = some r')
    (hr : r ≠ r') : T.Spares (T.insert p i pp w) r := by
  intro q hq
  refine ⟨by rw [own_insert, hq], by rw [lvl_insert], fun j _ _ => ?_⟩
  rw [word_insert h hslot, Pt.word_setWord, if_neg]
  rintro ⟨rfl, -⟩
  exact hr (Option.some.inj (hq.symm.trans hown))

theorem enter_lost (hmax : T.ref pp ≠ 65535) (hlost : (T.enter p i pp w).Lost q) :
    q ≠ pp ∧ T.Lost q := by
  have hne : q ≠ pp := by
    rintro rfl
    have hone : update T.ref q (T.ref q + 1) q = 0 := hlost.1
    rw [update_self] at hone
    have hnat := congrArg BitVec.toNat hone
    rw [toNat_add_one hmax] at hnat
    exact Nat.succ_ne_zero _ hnat
  exact ⟨hne, (update_of_ne hne ..).symm.trans hlost.1, hlost.2⟩

theorem insert_lost (h : Forest n kd fixed T) (hslot : T.Leaf fixed p i) (hmax : T.ref pp ≠ 65535)
    (hlost : (T.insert p i pp w).Lost q) : q ≠ pp ∧ T.Lost q := by
  unfold insert at hlost
  split_ifs at hlost with hzero hsame
  · exact enter_lost hmax hlost
  · refine ⟨?_, hlost⟩
    rintro rfl
    obtain hempty | ⟨c, hc, hmaps, -, href, -⟩ := h.leaf_cases hslot
    · exact hzero hempty
    · rw [hmaps.target_eq (lt_of_lt_of_le hc h.bound), Option.some.injEq] at hsame
      exact href (hsame ▸ hlost.1)
  · obtain ⟨r, hr⟩ := Option.ne_none_iff_exists'.mp hslot.own
    have hpruned := unmap_pruned h hslot hr
    have hmax' : (T.unmap p i).ref pp ≠ 65535 := by
      intro hfull
      have hless := hpruned.ref pp
      rw [hfull] at hless
      have hlt := (T.ref pp).isLt
      exact hmax (BitVec.eq_of_toNat_eq (Nat.le_antisymm (Nat.le_of_lt_succ hlt) hless))
    obtain ⟨hne, hlost⟩ := enter_lost hmax' hlost
    exact ⟨hne, hpruned.lost hlost⟩

end Tables

/-! ### The invariant -/

namespace TableSys

variable {s s' : TableSys} {n kd : Nat} {T T' : Tables}

def fixedSlot (s : TableSys) (p i : Nat) : Bool := s.fixed (slotAddr p i)

structure Inv (s : TableSys) (n kd : Nat) (T : Tables) : Prop where
  shows : s.kern.vm.Shows n T.toPt
  forest : Forest n kd s.fixedSlot T
  kern : s.kern.kernPgdir = pageKva kd
  own : T.own = s.owner
  self : T.self = some (pd0x uvpt)
  once : T.Once kd
  dirs : ∀ e, s.Live e → ∃ d, s.pgdir e = pageKva d ∧ T.own d = some d ∧ T.lvl d = 0 ∧ d ≠ kd
  apart : ∀ e e', s.Live e → s.Live e' → s.pgdir e = s.pgdir e' → e = e'
  held : ∀ p ∈ s.held, T.Idle n p
  nodup : s.held.Nodup

/-- What a call does to the directories it is not for, and to the pages that nobody uses. -/
structure Evolves (s s' : TableSys) (kd : Nat) (T T' : Tables) (event : TableEvent) : Prop where
  spares : ∀ r, r ≠ kd → (∀ e, event.env = some e → s.pgdir e ≠ pageKva r) → T.Spares T' r
  lost : ∀ p, T'.Lost p → p ∉ s'.held → T.Lost p ∧ p ∉ s.held

theorem Evolves.refl {event : TableEvent} (hheld : s.held = s'.held) : s.Evolves s' kd T T event :=
  ⟨fun _ _ _ _ hp => ⟨hp, rfl, fun _ _ _ => rfl⟩, fun _ hlost hp => ⟨hlost, hheld ▸ hp⟩⟩

theorem dirPage_pageKva {d : Nat} (hd : d < 2 ^ 19) : dirPage (pageKva d) = d := by
  rw [dirPage, pageKva, BitVec.add_sub_cancel, pgnum_page2pa hd]

namespace Inv

variable {va : Word} {vm : Vm}

section

variable (h : s.Inv n kd T)
include h

theorem bound_dir {d : Nat} (hown : T.own d = some d) : d < 2 ^ 19 :=
  lt_of_lt_of_le (h.forest.table d d hown).1 h.forest.bound

theorem self_ne (hva : pd0x va ≠ pd0x uvpt) : T.self ≠ some (pd0x va) := by
  rw [h.self]
  exact fun heq => hva (Option.some.inj heq).symm

theorem setVm {owner : Nat → Option Nat} {held : List Nat}
    (hshows : vm.Shows n T'.toPt) (hforest : Forest n kd s.fixedSlot T') (hown : T'.own = owner)
    (hself : T'.self = T.self) (honce : T'.Once kd)
    (hdirs : ∀ d, T.own d = some d → T.lvl d = 0 → T'.own d = some d ∧ T'.lvl d = 0)
    (hheld : ∀ p ∈ held, T'.Idle n p) (hnodup : held.Nodup) :
    Inv { s.setVm vm with owner := owner, held := held } n kd T' where
  shows := hshows
  forest := hforest
  kern := h.kern
  own := hown
  self := hself.trans h.self
  once := honce
  dirs e he := by
    obtain ⟨d, hd, hdown, hdlvl, hne⟩ := h.dirs e he
    exact ⟨d, hd, (hdirs d hdown hdlvl).1, (hdirs d hdown hdlvl).2, hne⟩
  apart := h.apart
  held := hheld
  nodup := hnodup

theorem grows_dirs {r : Nat} (hgrows : T.Grows T' r) :
    ∀ d, T.own d = some d → T.lvl d = 0 → T'.own d = some d ∧ T'.lvl d = 0 := by
  intro d hown hlvl
  obtain ⟨hown', hlvl', -⟩ := hgrows.old d (.inl (h.forest.table d d hown).2.1)
  exact ⟨hown'.trans hown, hlvl'.trans hlvl⟩

theorem made_eq {r : Nat} (hgrows : T.Grows T' r)
    (hshows : vm.Shows n T'.toPt) : T'.own = made s.kern.vm vm r s.owner := by
  funext p
  rw [made, hshows.ref, h.shows.ref, ← h.own]
  by_cases hold : p ∉ T.free ∨ p ∈ T'.free
  · obtain ⟨hown, -, href⟩ := hgrows.old p hold
    rw [if_pos href, hown]
  · obtain ⟨hin, hnot⟩ := not_or.mp hold
    obtain ⟨hown, href, -⟩ := hgrows.made p (not_not.mp hin) hnot
    have hzero := (h.forest.free p (not_not.mp hin)).2
    rw [hown, if_neg]
    rw [href, hzero]
    decide

theorem walkOwner_eq {e d : Nat} (hd : s.pgdir e = pageKva d)
    (hown : T.own d = some d) : s.walkOwner e va = T.root kd d (pd0x va) := by
  have hdn := (h.forest.table d d hown).1
  have hkn := (h.forest.table kd kd h.forest.kern.1).1
  have hentry := h.shows.word d hdn (pd0x va) (pd0x_lt va)
  have hkern := h.shows.word kd hkn (pd0x va) (pd0x_lt va)
  simp only [walkOwner, Tables.root, hd, h.kern, entryAddr_pageKva, hentry, hkern, ne_eq,
    Option.some.injEq, dirPage_pageKva (h.bound_dir hown), dirPage_pageKva (h.bound_dir h.forest.kern.1)]

theorem freed_eq {owner : Nat → Option Nat} (hshows : vm.Shows n T'.toPt) (honce : T'.Once kd)
    (hsame : ∀ p, T'.own p = owner p ∨ T'.own p = none ∧ T'.ref p = 0 ∧ T.ref p ≠ 0) :
    T'.own = freed s.kern.vm vm owner := by
  funext p
  rw [freed, hshows.ref, h.shows.ref]
  obtain hown | ⟨hnone, hzero, hne⟩ := hsame p
  · rw [← hown]
    split_ifs with hgone
    · cases hp : T'.own p with
      | none => rfl
      | some r =>
          have href := honce p r hp
          rw [hgone.1] at href
          by_cases hpk : p = kd
          · have hbefore := h.once kd kd h.forest.kern.1
            rw [if_pos rfl] at hbefore
            exact absurd (hpk ▸ hbefore) hgone.2
          · rw [if_neg hpk] at href
            exact absurd href (by decide)
    · rfl
  · rw [hnone, if_pos ⟨hzero, hne⟩]

omit h in
theorem root_ne {e d r i : Nat} (hd : s.pgdir e = pageKva d) (hkd : r ≠ kd)
    (hbusy : s.pgdir e ≠ pageKva r) : r ≠ T.root kd d i := by
  obtain hroot | hroot := T.root_cases kd d i
  · rwa [hroot]
  · rw [hroot]
    rintro rfl
    exact hbusy hd

theorem walk {e : Nat} (he : s.Live e) (hva : pd0x va ≠ pd0x uvpt)
    (hexec : s.exec (.walk e va) = some s') :
    ∃ T', s'.Inv n kd T' ∧ s.Evolves s' kd T T' (.walk e va) := by
  obtain ⟨d, hd, hown, hlvl, -⟩ := h.dirs e he
  have hext := Tables.extended h.forest hown hlvl (h.self_ne hva)
  obtain ⟨vm, hrun, hshows⟩ := h.shows.walk h.forest hown hlvl (h.self_ne hva)
  simp only [exec, if_pos he, hd, hrun, Option.some.injEq] at hexec
  subst hexec
  refine ⟨_, h.setVm hshows hext.forest ?_ hext.grows.self (h.once.grows h.forest hext.grows)
    (h.grows_dirs hext.grows) (fun p hp => (h.held p hp).grows hext.grows) h.nodup,
    fun r hkd hbusy => hext.grows.spares h.forest hext.forest (root_ne hd hkd (hbusy e rfl)) hkd,
    fun p hlost hp => ⟨hext.grows.lost hlost, hp⟩⟩
  rw [h.walkOwner_eq hd hown]
  exact h.made_eq hext.grows hshows

theorem pageAlloc {zero : Bool} (hexec : s.exec (.pageAlloc zero) = some s') :
    ∃ T', s'.Inv n kd T' ∧ s.Evolves s' kd T T' (.pageAlloc zero) := by
  cases hfree : T.free with
  | nil =>
      simp only [exec, h.shows.pageAlloc_none hfree zero, Option.some.injEq] at hexec
      exact ⟨T, hexec ▸ h, .refl (congrArg TableSys.held hexec)⟩
  | cons c rest =>
      obtain ⟨pt, vm, halloc, hshows, hword, href, hlist⟩ : ∃ pt vm,
          s.kern.vm.pageAlloc zero = .ok (some c, vm) ∧ vm.Shows n pt ∧
            (∀ q j, q ≠ c → pt.word q j = T.word q j) ∧ pt.ref = T.ref ∧ pt.free = rest := by
        have htail : T.free.tail = rest := by rw [hfree, List.tail_cons]
        cases zero with
        | false =>
            obtain ⟨vm, halloc, hshows⟩ := h.shows.pageAlloc_dirty hfree
            exact ⟨_, vm, halloc, hshows, fun _ _ _ => rfl, rfl, htail⟩
        | true =>
            obtain ⟨vm, halloc, hshows⟩ := h.shows.pageAlloc_zero hfree
            exact ⟨_, vm, halloc, hshows, fun _ _ hq => if_neg hq, rfl, htail⟩
      have hmem : c ∈ T.free := by simp [hfree]
      have hnodup : (c :: rest).Nodup := hfree ▸ h.forest.nodup
      have hkept : ∀ q, T.Idle n q → Tables.Idle { T with toPt := pt } n q := fun q hq =>
        ⟨hq.bound, fun hin => hq.free (by rw [hfree]; exact List.mem_cons_of_mem c (hlist ▸ hin)),
          hq.own, (congrFun href q).trans hq.ref⟩
      simp only [exec, halloc, Option.some.injEq] at hexec
      subst hexec
      refine ⟨{ T with toPt := pt }, h.setVm hshows (h.forest.pop hfree hword href hlist) h.own rfl ?_
        (fun _ hown hlvl => ⟨hown, hlvl⟩) ?_ ?_, fun r _ _ q hq => ⟨hq, rfl, fun j _ _ => ?_⟩, ?_⟩
      · intro q r hq
        exact (congrFun href q).trans (h.once q r hq)
      · intro q hq
        obtain rfl | hq := List.mem_cons.mp hq
        · exact ⟨(h.forest.free q hmem).1, fun hin => (List.nodup_cons.mp hnodup).1 (hlist ▸ hin),
            h.forest.own_free hmem, (congrFun href q).trans (h.forest.free q hmem).2⟩
        · exact hkept q (h.held q hq)
      · exact List.nodup_cons.mpr ⟨fun hin => (h.held c hin).free hmem, h.nodup⟩
      · refine hword q j fun heq => ?_
        rw [heq, h.forest.own_free hmem] at hq
        cases hq
      · rintro q ⟨hzero, hq⟩ hnot
        obtain ⟨hqc, hnot⟩ := not_or.mp (mt List.mem_cons.mpr hnot)
        refine ⟨⟨href ▸ hzero, ?_⟩, hnot⟩
        rw [hfree]
        exact List.not_mem_cons_of_ne_of_not_mem hqc (hlist ▸ hq)

theorem pageFree {pp : Nat} (hheld : pp ∈ s.held) (hexec : s.exec (.pageFree pp) = some s') :
    ∃ T', s'.Inv n kd T' ∧ s.Evolves s' kd T T' (.pageFree pp) := by
  have hidle := h.held pp hheld
  obtain ⟨vm, hrun, hshows⟩ := h.shows.pageFree hidle.bound hidle.free hidle.ref
  simp only [exec, hrun, Option.some.injEq] at hexec
  subst hexec
  refine ⟨{ T with toPt := T.push pp }, h.setVm hshows (h.forest.push hidle) h.own rfl h.once
    (fun _ hown hlvl => ⟨hown, hlvl⟩) ?_ (h.nodup.erase pp),
    fun _ _ _ _ hq => ⟨hq, rfl, fun _ _ _ => rfl⟩, ?_⟩
  · intro q hq
    obtain ⟨hne, hin⟩ := h.nodup.mem_erase_iff.mp hq
    have hq := h.held q hin
    exact ⟨hq.bound, fun hmem => (List.mem_cons.mp hmem).elim hne hq.free, hq.own, hq.ref⟩
  · rintro q ⟨hzero, hq⟩ hnot
    obtain ⟨hne, hq⟩ := not_or.mp (mt List.mem_cons.mpr hq)
    exact ⟨⟨hzero, hq⟩, fun hin => hnot (h.nodup.mem_erase_iff.mpr ⟨hne, hin⟩)⟩

theorem slotFree_leaf {e d leaf : Nat} (hd : s.pgdir e = pageKva d)
    (hown : T.own d = some d) (hlvl : T.lvl d = 0) (hva : pd0x va ≠ pd0x uvpt)
    (hfree : s.slotFree e va = true) (hleaf : T.descend d (path va) = some leaf) :
    T.Leaf s.fixedSlot leaf (ptx va) := by
  obtain ⟨hleafOwn, hleafLvl⟩ := h.forest.descend_leaf hown hlvl (h.self_ne hva) hleaf
  refine ⟨by rw [hleafOwn]; nofun, hleafLvl, ptx_lt va, ?_⟩
  have hwalk := h.shows.pgdirWalkThrough (h.forest.sound hown hlvl (h.self_ne hva)).linked
  rw [hleaf] at hwalk
  simpa [slotFree, hd, hwalk, fixedSlot] using hfree

theorem remove {e : Nat} (he : s.Live e) (hva : pd0x va ≠ pd0x uvpt)
    (hslot : s.slotFree e va = true) (hexec : s.exec (.remove e va) = some s') :
    ∃ T', s'.Inv n kd T' ∧ s.Evolves s' kd T T' (.remove e va) := by
  obtain ⟨d, hd, hown, hlvl, -⟩ := h.dirs e he
  have hleaf : ∀ leaf, T.descend d (path va) = some leaf → T.Leaf s.fixedSlot leaf (ptx va) :=
    fun _ => h.slotFree_leaf hd hown hlvl hva hslot
  obtain ⟨vm, hrun, hshows⟩ := h.shows.pageRemove h.forest (h.forest.sound hown hlvl (h.self_ne hva))
    hleaf
  simp only [exec, if_pos he, hd, hrun, Option.some.injEq] at hexec
  subst hexec
  have hforest := h.forest.remove hleaf fun leaf hfound htarget => by
    have hnone := h.once.own_target h.forest (hleaf leaf hfound) htarget
    rw [h.forest.kern.1] at hnone
    cases hnone
  have hpruned : T.Pruned (T.remove d va) (T.root kd d (pd0x va)) 3 := by
    unfold Tables.remove
    split
    · exact .refl T _ 3
    · next leaf hfound =>
      have hr := (h.forest.descend_leaf hown hlvl (h.self_ne hva) hfound).1
      exact Tables.unmap_pruned h.forest (hleaf leaf hfound) hr
  have honce := h.once.pruned hforest hpruned
  refine ⟨_, h.setVm hshows hforest ?_ (Tables.self_remove ..) honce ?_
    (fun p hp => (h.held p hp).pruned hpruned) h.nodup,
    fun r hkd hbusy => hpruned.spares (root_ne hd hkd (hbusy e rfl)),
    fun p hlost hp => ⟨hpruned.lost hlost, hp⟩⟩
  · refine h.freed_eq hshows honce fun p => .inl ?_
    rw [Tables.own_remove, h.own]
  · intro d' hown' hlvl'
    rw [Tables.own_remove, Tables.lvl_remove]
    exact ⟨hown', hlvl'⟩

theorem extend_leaf {e d leaf : Nat} (hd : s.pgdir e = pageKva d)
    (hown : T.own d = some d) (hlvl : T.lvl d = 0) (hva : pd0x va ≠ pd0x uvpt)
    (hfree : s.slotFree e va = true) (hfound : (T.extend d (path va)).1 = some leaf) :
    (T.extend d (path va)).2.Leaf s.fixedSlot leaf (ptx va) := by
  have hext := Tables.extended h.forest hown hlvl (h.self_ne hva)
  obtain ⟨hleafOwn, hleafLvl, hdescend⟩ := hext.found leaf hfound
  refine ⟨by rw [hleafOwn]; nofun, hleafLvl, ptx_lt va, ?_⟩
  obtain hsame | ⟨-, leaf', hin, -, hleaf'⟩ :=
    hext.grows.descend h.forest (h.forest.sound hown hlvl (h.self_ne hva))
  · exact (h.slotFree_leaf hd hown hlvl hva hfree (hsame.symm.trans hdescend)).counted
  · -- a table that the walk has made is in no entry of `mem_init`
    obtain rfl : leaf = leaf' := Option.some.inj (hdescend.symm.trans hleaf')
    by_contra hfixed
    have hkern := h.forest.fixed leaf (ptx va) (Bool.not_eq_false _ ▸ hfixed)
    rw [h.forest.own_free hin] at hkern
    cases hkern

theorem insert {e pp : Nat} {perm : BitVec 32} (he : s.Live e)
    (hva : pd0x va ≠ pd0x uvpt) (hslot : s.slotFree e va = true) (hpp : s.dataPage pp = true)
    (hmax : (s.kern.vm.pages pp).ppRef ≠ 65535) (hperm : perm.toNat < 2 ^ 10)
    (hexec : s.exec (.insert e pp va perm) = some s') :
    ∃ T', s'.Inv n kd T' ∧ s.Evolves s' kd T T' (.insert e pp va perm) := by
  obtain ⟨d, hd, hown, hlvl, -⟩ := h.dirs e he
  have hext := Tables.extended h.forest hown hlvl (h.self_ne hva)
  have honce := h.once.grows h.forest hext.grows
  obtain ⟨mid, hwalk, hmid⟩ := h.shows.walk h.forest hown hlvl (h.self_ne hva)
  have hmade := h.made_eq hext.grows hmid
  rw [← h.walkOwner_eq hd hown] at hmade
  have hspares : ∀ r, r ≠ kd → s.pgdir e ≠ pageKva r → T.Spares (T.extend d (path va)).2 r :=
    fun r hkd hbusy => hext.grows.spares h.forest hext.forest (root_ne hd hkd hbusy) hkd
  cases hfound : (T.extend d (path va)).1 with
  | none =>
      obtain ⟨vm, hrun, hshows⟩ := h.shows.pageInsert_full h.forest hown hlvl (h.self_ne hva) hfound
        (some pp) perm
      simp only [exec, if_pos he, hd, hwalk, hrun, Option.some.injEq] at hexec
      subst hexec
      exact ⟨_, h.setVm hshows hext.forest
        (h.freed_eq hshows honce fun p => .inl (congrFun hmade p)) hext.grows.self honce
        (h.grows_dirs hext.grows) (fun p hp => (h.held p hp).grows hext.grows) h.nodup,
        fun r hkd hbusy => hspares r hkd (hbusy e rfl), fun p hlost hp => ⟨hext.grows.lost hlost, hp⟩⟩
  | some leaf =>
      simp only [dataPage, Bool.and_eq_true, decide_eq_true_eq, beq_iff_eq, Bool.or_eq_true,
        List.contains_iff_mem, bne_iff_ne] at hpp
      obtain ⟨⟨hppn, hppOwn⟩, hused⟩ := hpp
      rw [h.shows.npages] at hppn
      rw [← h.own] at hppOwn
      have hppFree : pp ∉ T.free := by
        intro hin
        refine hused.elim (fun hheld => (h.held pp hheld).free hin) fun hne => hne ?_
        rw [h.shows.ref]
        exact (h.forest.free pp hin).2
      obtain ⟨hown', -, href'⟩ := hext.grows.old pp (.inl hppFree)
      have hslot' := h.extend_leaf hd hown hlvl hva hslot hfound
      have hfree' : pp ∉ (T.extend d (path va)).2.free := fun hin =>
        hppFree (hext.grows.free.subset hin)
      have hmax' : (T.extend d (path va)).2.ref pp ≠ 65535 := by
        rw [href', ← h.shows.ref]
        exact hmax
      obtain ⟨vm, hrun, hshows⟩ := h.shows.pageInsert_found h.forest hown hlvl (h.self_ne hva) hfound
        hslot'.counted hppn hppFree perm
      simp only [exec, if_pos he, hd, hwalk, hrun, Option.some.injEq] at hexec
      subst hexec
      have hforest := hext.forest.insert hslot' hppn hfree' hmax' (newEntry_maps hperm)
        fun htarget => by
          have hnone := honce.own_target hext.forest hslot' htarget
          rw [hext.forest.kern.1] at hnone
          cases hnone
      have honce' := honce.insert hext.forest hslot' (w := Vm.newEntry pp perm) (hown'.trans hppOwn)
      refine ⟨_, h.setVm hshows hforest (h.freed_eq hshows honce' fun p => .inl ?_) ?_ honce' ?_ ?_
        (h.nodup.erase pp), fun r hkd hbusy => (hspares r hkd (hbusy e rfl)).trans ?_, ?_⟩
      · rw [Tables.own_insert]
        exact congrFun hmade p
      · rw [Tables.self_insert, hext.grows.self]
      · intro d' hdown hdlvl
        rw [Tables.own_insert, Tables.lvl_insert]
        exact h.grows_dirs hext.grows d' hdown hdlvl
      · intro q hq
        obtain ⟨hne, hin⟩ := h.nodup.mem_erase_iff.mp hq
        exact ((h.held q hin).grows hext.grows).insert hext.forest hslot' hne
      · exact Tables.insert_spares hext.forest hslot' (hext.found leaf hfound).1
          (root_ne hd hkd (hbusy e rfl))
      · intro q hlost hq
        obtain ⟨hne, hlost⟩ := Tables.insert_lost hext.forest hslot' hmax' hlost
        exact ⟨hext.grows.lost hlost, fun hin => hq (h.nodup.mem_erase_iff.mpr ⟨hne, hin⟩)⟩

theorem pgdir_ne {e c d : Nat} (hc : c < n) (hd : s.pgdir e = pageKva d)
    (hown : T.own d = some d) (hne : c ≠ d) : pageKva c ≠ s.pgdir e := by
  intro heq
  have hpage := congrArg dirPage (heq.trans hd)
  rw [dirPage_pageKva (lt_of_lt_of_le hc h.forest.bound), dirPage_pageKva (h.bound_dir hown)] at hpage
  exact hne hpage

theorem addEnv {k : Kern} {e c : Nat} {rest : List Nat} (hfree : T.free = c :: rest)
    (hshows : k.vm.Shows n (T.addDir kd c).toPt) (hkern : k.kernPgdir = s.kern.kernPgdir)
    (hpgdir : (k.envs e).envPgdir = pageKva c) (hothers : ∀ e', e' ≠ e → k.envs e' = s.kern.envs e') :
    Inv { s with kern := k, owner := update s.owner c (some c) } n kd (T.addDir kd c) := by
  have hmem : c ∈ T.free := by simp [hfree]
  have hc := (h.forest.free c hmem).1
  have hold : ∀ q r, T.own q = some r → q ≠ c := by
    rintro q r hq rfl
    rw [h.forest.own_free hmem] at hq
    cases hq
  have hkd := hold kd kd h.forest.kern.1
  have hown : ∀ q, q ≠ c → (T.addDir kd c).own q = T.own q := fun q hq => update_of_ne hq ..
  have hlvl : ∀ q, q ≠ c → (T.addDir kd c).lvl q = T.lvl q := fun q hq => update_of_ne hq ..
  have href : ∀ q, q ≠ c → (T.addDir kd c).ref q = T.ref q := fun q hq => update_of_ne hq ..
  -- the directories of the other environments are not new
  have hother : ∀ e', e' ≠ e → (k.envs e').envStatus ≠ .free →
      s.Live e' ∧ (k.envs e').envPgdir = s.pgdir e' ∧ pageKva c ≠ s.pgdir e' := by
    intro e' hne hlive
    rw [hothers e' hne] at hlive ⊢
    obtain ⟨d, hd, hdown, -, -⟩ := h.dirs e' hlive
    exact ⟨hlive, rfl, h.pgdir_ne hc hd hdown (hold d d hdown).symm⟩
  refine ⟨hshows, h.forest.addDir h.self hfree, hkern.trans h.kern, ?_, h.self, ?_, ?_, ?_, ?_, h.nodup⟩
  · exact congrArg (update · c (some c)) h.own
  · intro q r hq
    by_cases hqc : q = c
    · subst hqc
      rw [if_neg hkd.symm]
      refine (update_self ..).trans ?_
      rw [(h.forest.free q hmem).2]
      rfl
    · rw [href q hqc]
      exact h.once q r ((hown q hqc).symm.trans hq)
  · intro e' he'
    by_cases hsame : e' = e
    · subst hsame
      exact ⟨c, hpgdir, update_self .., update_self .., hkd.symm⟩
    · obtain ⟨hlive, hpg, -⟩ := hother e' hsame he'
      obtain ⟨d, hd, hdown, hdlvl, hne⟩ := h.dirs e' hlive
      have hdc := hold d d hdown
      exact ⟨d, hpg.trans hd, (hown d hdc).trans hdown, (hlvl d hdc).trans hdlvl, hne⟩
  · intro e₁ e₂ he₁ he₂ heq
    change (k.envs e₁).envPgdir = (k.envs e₂).envPgdir at heq
    by_cases h₁ : e₁ = e <;> by_cases h₂ : e₂ = e
    · rw [h₁, h₂]
    · obtain ⟨-, hpg, hne⟩ := hother e₂ h₂ he₂
      rw [h₁, hpgdir, hpg] at heq
      exact absurd heq hne
    · obtain ⟨-, hpg, hne⟩ := hother e₁ h₁ he₁
      rw [h₂, hpgdir, hpg] at heq
      exact absurd heq.symm hne
    · obtain ⟨hlive₁, hpg₁, -⟩ := hother e₁ h₁ he₁
      obtain ⟨hlive₂, hpg₂, -⟩ := hother e₂ h₂ he₂
      exact h.apart e₁ e₂ hlive₁ hlive₂ (hpg₁.symm.trans (heq.trans hpg₂))
  · intro q hq
    have hidle := h.held q hq
    have hqc : q ≠ c := fun heq => hidle.free (heq ▸ hmem)
    exact ⟨hidle.bound, fun hin => hidle.free (List.mem_of_mem_tail hin), (hown q hqc).trans hidle.own,
      (href q hqc).trans hidle.ref⟩

theorem addDir_evolves {c : Nat} {rest : List Nat} {parentId : BitVec 32} (hfree : T.free = c :: rest)
    (hheld : s'.held = s.held) : s.Evolves s' kd T (T.addDir kd c) (.envAlloc parentId) := by
  have hmem : c ∈ T.free := by simp [hfree]
  refine ⟨fun r _ _ p hp => ?_, fun p hlost hp => ⟨?_, hheld ▸ hp⟩⟩
  · have hne : p ≠ c := by
      rintro rfl
      rw [h.forest.own_free hmem] at hp
      cases hp
    exact ⟨(update_of_ne hne ..).trans hp, update_of_ne hne .., fun j _ _ => if_neg hne⟩
  · have hne : p ≠ c := by
      rintro rfl
      have hone : update T.ref p (T.ref p + 1) p = 0 := hlost.1
      rw [update_self, (h.forest.free p hmem).2] at hone
      exact absurd hone (by decide)
    refine ⟨(update_of_ne hne ..).symm.trans hlost.1, ?_⟩
    have hrest : p ∉ T.free.tail := hlost.2
    rw [hfree] at hrest ⊢
    exact List.not_mem_cons_of_ne_of_not_mem hne hrest

theorem envAlloc {parentId : BitVec 32} (hexec : s.exec (.envAlloc parentId) = some s') :
    ∃ T', s'.Inv n kd T' ∧ s.Evolves s' kd T T' (.envAlloc parentId) := by
  cases hlist : s.kern.envFreeList with
  | none =>
      have hrun : s.kern.envAlloc parentId = .ok (.inr (-eNoFreeEnv), s.kern) := by
        rw [Kern.envAlloc, hlist]
      simp only [exec, hrun, Option.some.injEq] at hexec
      exact ⟨T, hexec ▸ h, .refl (congrArg TableSys.held hexec)⟩
  | some e =>
      cases hfree : T.free with
      | nil =>
          have hrun : s.kern.envAlloc parentId = .ok (.inr (-eNoMem), s.kern) := by
            unfold Kern.envAlloc
            split
            · next hnone => cases hlist.symm.trans hnone
            · rw [h.shows.envSetupVm_full hfree]
              rfl
          simp only [exec, hrun, Option.some.injEq] at hexec
          exact ⟨T, hexec ▸ h, .refl (congrArg TableSys.held hexec)⟩
      | cons c rest =>
          have hc := lt_of_lt_of_le (h.forest.free c (by simp [hfree])).1 h.forest.bound
          obtain ⟨vm, hsetup, hshows⟩ := h.shows.envSetupVm h.forest h.kern hfree
          obtain ⟨k, hrun, hvm, hkern, hpgdir, hothers⟩ : ∃ k,
              s.kern.envAlloc parentId = .ok (.inl e, k) ∧ k.vm = vm ∧
                k.kernPgdir = s.kern.kernPgdir ∧ (k.envs e).envPgdir = pageKva c ∧
                ∀ e', e' ≠ e → k.envs e' = s.kern.envs e' := by
            unfold Kern.envAlloc
            split
            · next hnone => cases hlist.symm.trans hnone
            · next e' hsome =>
              obtain rfl : e = e' := Option.some.inj (hlist.symm.trans hsome)
              rw [hsetup, ok_bind]
              exact ⟨_, rfl, rfl, rfl, by simp only [Kern.setEnv, update_self],
                fun e' hne => update_of_ne hne ..⟩
          simp only [exec, hrun, hpgdir, dirPage_pageKva hc, Option.some.injEq] at hexec
          exact ⟨_, hexec ▸ h.addEnv hfree (hvm ▸ hshows) hkern hpgdir hothers,
            h.addDir_evolves hfree (congrArg TableSys.held hexec).symm⟩

theorem envFree {e : Nat} (he : s.Live e) (hexec : s.exec (.envFree e) = some s') :
    ∃ T', s'.Inv n kd T' ∧ s.Evolves s' kd T T' (.envFree e) := by
  obtain ⟨d, hd, hdown, hdlvl, hdkd⟩ := h.dirs e he
  obtain ⟨vm, T₁, hrun, hshows, h₁, h₂, hpruned, hown₁, -, -⟩ :=
    envFree_shows hdkd h.shows h.forest (h.once.rooted h.forest) h.self hd hdown hdlvl
  simp only [exec, if_pos he, hrun, Option.some.injEq] at hexec
  have honce₁ := h.once.pruned h₁ hpruned
  have href : (T₁.retire d).ref = update T₁.ref d (T₁.ref d - 1) := Pt.ref_decref T₁.toPt d
  have hown : ∀ p, p ≠ d → (T₁.retire d).own p = T₁.own p := fun p hp => update_of_ne hp ..
  have hone : T₁.ref d = 1 := (honce₁ d d hown₁).trans (if_neg hdkd)
  have hroots : ∀ d', T.own d' = some d' → d' ≠ d → (T₁.retire d).own d' = some d' := by
    intro d' hd' hne
    rw [hown d' hne]
    obtain hsame | ⟨hmine, -⟩ := hpruned.own d'
    · exact hsame.trans hd'
    · exact absurd (Option.some.inj (hd'.symm.trans hmine)) hne
  have honce₂ : (T₁.retire d).Once kd := by
    intro p r hp
    have hpd : p ≠ d := by
      rintro rfl
      rw [show (T₁.retire p).own p = none from update_self ..] at hp
      cases hp
    rw [href, update_of_ne hpd]
    exact honce₁ p r ((hown p hpd).symm.trans hp)
  have hothers : ∀ e', e' ≠ e → s'.kern.envs e' = s.kern.envs e' := by
    intro e' hne
    rw [← hexec]
    exact update_of_ne hne ..
  have hlive : ∀ e', s'.Live e' → e' ≠ e := by
    rintro e' he' rfl
    refine he' ?_
    rw [← hexec]
    simp only [Kern.setEnv, update_self]
  have hback : ∀ e', s'.Live e' → s.Live e' ∧ s'.pgdir e' = s.pgdir e' := by
    intro e' he'
    have hsame := hothers e' (hlive e' he')
    exact ⟨by rw [Live, ← hsame]; exact he', congrArg Env.envPgdir hsame⟩
  have hfreed : (T₁.retire d).own = freed s.kern.vm vm s.owner := by
    refine h.freed_eq hshows honce₂ fun p => ?_
    rw [← h.own]
    by_cases hpd : p = d
    · subst hpd
      refine .inr ⟨update_self .., ?_, ?_⟩
      · rw [href, update_self, hone]
        rfl
      · rw [h.once p p hdown, if_neg hdkd]
        decide
    · rw [hown p hpd, href, update_of_ne hpd]
      refine (hpruned.own p).imp id fun ⟨hmine, hnone, hless⟩ => ?_
      have hpkd : p ≠ kd := by
        rintro rfl
        exact hdkd (Option.some.inj (hmine.symm.trans h.forest.kern.1))
      have hbefore : T.ref p = 1 := (h.once p d hmine).trans (if_neg hpkd)
      rw [hbefore] at hless ⊢
      exact ⟨hnone, BitVec.eq_of_toNat_eq (Nat.lt_one_iff.mp hless), by decide⟩
  have hheld : ∀ p ∈ s.held, (T₁.retire d).Idle n p := by
    intro p hp
    have hidle := (h.held p hp).pruned hpruned
    have hpd : p ≠ d := by
      rintro rfl
      rw [hidle.own] at hown₁
      cases hown₁
    refine ⟨hidle.bound, fun hin => ?_, (hown p hpd).trans hidle.own, ?_⟩
    · exact (Pt.mem_free_decref.mp hin).elim hidle.free fun hsame => hpd hsame.1
    · rw [href, update_of_ne hpd]
      exact hidle.ref
  subst hexec
  refine ⟨T₁.retire d, ⟨hshows, h₂, h.kern, hfreed, hpruned.self.trans h.self, honce₂, ?_, ?_, hheld,
    h.nodup⟩, ?_, ?_⟩
  · intro e' he'
    obtain ⟨hlive', hpg⟩ := hback e' he'
    obtain ⟨d', hd', hdown', hdlvl', hne⟩ := h.dirs e' hlive'
    have hdd : d' ≠ d := by
      rintro rfl
      exact hlive e' he' (h.apart e' e hlive' he (hd'.trans hd.symm))
    exact ⟨d', hpg.trans hd', hroots d' hdown' hdd, (congrFun hpruned.lvl d').trans hdlvl', hne⟩
  · intro e₁ e₂ he₁ he₂ heq
    obtain ⟨hlive₁, hpg₁⟩ := hback e₁ he₁
    obtain ⟨hlive₂, hpg₂⟩ := hback e₂ he₂
    exact h.apart e₁ e₂ hlive₁ hlive₂ (hpg₁.symm.trans (heq.trans hpg₂))
  · intro r _ hbusy
    have hr : r ≠ d := by
      rintro rfl
      exact hbusy e rfl hd
    refine (hpruned.spares hr).trans fun p hp => ?_
    have hpd : p ≠ d := by
      rintro rfl
      exact hr (Option.some.inj (hp.symm.trans hown₁))
    exact ⟨(hown p hpd).trans hp, rfl, fun j _ _ => congrFun (congrFun (Tables.word_retire T₁ d) p) j⟩
  · rintro p ⟨hzero, hnot⟩ hp
    have hkept := mt (fun hp => Pt.returned_decref T₁.toPt d p hp hzero) hnot
    rw [not_or, not_not] at hkept
    exact ⟨hpruned.lost ⟨hkept.2, hkept.1⟩, hp⟩

end

theorem of_starts (h : s.Starts) : ∃ n kd T, s.Inv n kd T := by
  obtain ⟨⟨n, kd, T, hshows, hforest, hkern, hown, hself, -, href⟩, henvs, hheld⟩ := h
  refine ⟨n, kd, T, hshows, hforest, hkern, hown, hself, ?_, fun e he => absurd he (henvs e),
    fun e _ he => absurd he (henvs e), ?_, ?_⟩
  · intro p r hp
    rw [href p, ← hown, hp]
    by_cases hkd : p = kd <;> simp [hkd]
  · rw [hheld]
    nofun
  · rw [hheld]
    exact List.nodup_nil

theorem live_of_exec {e : Nat} {r : Option TableSys} (hexec : (if s.Live e then r else none) = some s') :
    s.Live e := by
  by_contra hfree
  rw [if_neg hfree] at hexec
  cases hexec

theorem step (h : s.Inv n kd T) {event : TableEvent} (hsane : s.sane event = true)
    (hexec : s.exec event = some s') : ∃ T', s'.Inv n kd T' ∧ s.Evolves s' kd T T' event := by
  cases event with
  | envAlloc parentId => exact h.envAlloc hexec
  | pageAlloc zero => exact h.pageAlloc hexec
  | pageFree pp => exact h.pageFree (List.contains_iff_mem.mp hsane) hexec
  | walk e va => exact h.walk (live_of_exec hexec) (bne_iff_ne.mp hsane) hexec
  | insert e pp va perm =>
      simp only [sane, Bool.and_eq_true, bne_iff_ne, decide_eq_true_eq] at hsane
      obtain ⟨⟨⟨⟨hva, hslot⟩, hpp⟩, hmax⟩, hperm⟩ := hsane
      exact h.insert (live_of_exec hexec) hva hslot hpp hmax hperm hexec
  | remove e va =>
      simp only [sane, Bool.and_eq_true, bne_iff_ne] at hsane
      exact h.remove (live_of_exec hexec) hsane.1 hsane.2 hexec
  | envFree e => exact h.envFree (live_of_exec hexec) hexec

theorem of_reached (hreach : s.Reached) : ∃ n kd T, s.Inv n kd T := by
  refine hreach.invariant (fun s hs => of_starts hs) ?_
  rintro s event s' ⟨n, kd, T, h⟩ hsane hexec
  obtain ⟨T', h', -⟩ := h.step hsane hexec
  exact ⟨n, kd, T', h'⟩

/-! ### Walks -/

theorem decodes (h : s.Inv n kd T) {d c r : Nat} {self : Bool} (hc : T.own c = some r)
    (hr : r = d ∨ r = kd) : s.Decodes d self (link c) := by
  have hcn := (h.forest.table c r hc).1
  refine ⟨c, by rw [h.shows.npages]; exact hcn, pdePhy_link (lt_of_lt_of_le hcn h.forest.bound), ?_⟩
  rw [h.kern, dirPage_pageKva (h.bound_dir h.forest.kern.1), ← h.own, hc]
  obtain rfl | rfl := hr
  · exact .inl rfl
  · exact .inr (.inl rfl)

theorem meets_below (h : s.Inv n kd T) {d r : Nat} (hr : r = d ∨ r = kd) {path : List Nat} {t : Nat}
    (hown : T.own t = some r) (hlvl : 0 < T.lvl t) (hlen : T.lvl t + path.length ≤ 3)
    (hpath : ∀ i ∈ path, i < 512) : s.Meets d false path (pageKva t) := by
  induction path generalizing t with
  | nil => trivial
  | cons i path ih =>
      rw [List.length_cons] at hlen
      have ht := (h.forest.table t r hown).1
      have hi := hpath i List.mem_cons_self
      refine ⟨T.word t i, h.shows.word t ht i hi, fun hvalid => ?_⟩
      obtain hzero | ⟨c, hlink, hnext, hc⟩ :=
        h.forest.link_below hown hlvl ⟨by omega, hi, fun hself => by omega⟩
      · rw [hzero] at hvalid
        exact absurd rfl hvalid
      · have hcn := lt_of_lt_of_le (h.forest.table c r hc).1 h.forest.bound
        rw [hlink, pdePhy_link hcn]
        exact ⟨h.decodes hc hr, ih hc (by omega) (by omega) fun j hj =>
          hpath j (List.mem_cons_of_mem i hj)⟩

theorem walksTables (h : s.Inv n kd T) {e : Nat} (he : s.Live e)
    (hva : pd0x va ≠ pd0x uvpt) : s.WalksTables e va := by
  obtain ⟨d, hd, hown, hlvl, -⟩ := h.dirs e he
  have hdn := (h.forest.table d d hown).1
  have hpath : ∀ i ∈ [pd1x va, pd2x va], i < 512 := by
    simp [pd1x_lt, pd2x_lt]
  rw [WalksTables, hd, dirPage_pageKva (h.bound_dir hown)]
  refine ⟨T.word d (pd0x va), h.shows.word d hdn _ (pd0x_lt va), fun hvalid => ?_⟩
  obtain hzero | ⟨c, hlink, hnext, howner⟩ := h.forest.links d d (pd0x va) hown
    ⟨by omega, pd0x_lt va, fun hself => h.self_ne hva hself.2⟩
  · rw [hzero] at hvalid
    exact absurd rfl hvalid
  · obtain ⟨r, hc, hr⟩ : ∃ r, T.own c = some r ∧ (r = d ∨ r = kd) :=
      howner.elim (fun hc => ⟨d, hc, .inl rfl⟩) fun hc => ⟨kd, hc.2.2.1, .inr rfl⟩
    have hcn := lt_of_lt_of_le (h.forest.table c r hc).1 h.forest.bound
    rw [hlink, pdePhy_link hcn]
    exact ⟨h.decodes hc hr, h.meets_below hr hc (by omega) (by rw [hnext, hlvl]; rfl) hpath⟩

/-- The entry at UVPT holds the address of the directory itself and not its shifted page number, so that
`PDE_PHY` makes an address outside of memory of it. -/
theorem not_walksTables (h : s.Inv n kd T) {e : Nat} (he : s.Live e)
    (hva : pd0x va = pd0x uvpt) : ¬ s.WalksTables e va := by
  obtain ⟨d, hd, hown, hlvl, hne⟩ := h.dirs e he
  have hdn := (h.forest.table d d hown).1
  have hbound := h.bound_dir hown
  rintro ⟨pde, hpde, hmeets⟩
  rw [hd, entryAddr_pageKva, h.shows.word d hdn _ (pd0x_lt va), hva, Option.some.injEq,
    h.forest.selfMap d _ hown hlvl hne h.self] at hpde
  subst hpde
  obtain ⟨⟨c, hc, hphy, -⟩, -⟩ := hmeets (or_pteV_and_pteV_ne _)
  rw [h.shows.npages] at hc
  have hflag : pdePhy (page2pa d ||| pteV) = (page2pa d >>> 10) <<< 12 :=
    ptePhy_or_flags (page2pa d) (by decide)
  rw [hflag] at hphy
  have hnat := congrArg BitVec.toNat hphy
  rw [page2pa_toNat (lt_of_lt_of_le hc h.forest.bound), toNat_shiftLeft, toNat_shiftRight,
    page2pa_toNat hbound] at hnat
  have hc' := lt_of_lt_of_le hc h.forest.bound
  omega

end Inv

variable {e : Nat}

/-- After calls that are all sane, the walk of an address dereferences page tables only, unless it goes
through the self map at UVPT. -/
theorem walksTables_iff (hreach : s.Reached) (he : s.Live e) (va : Word) :
    s.WalksTables e va ↔ pd0x va ≠ pd0x uvpt := by
  obtain ⟨n, kd, T, h⟩ := Inv.of_reached hreach
  exact ⟨fun hwalks hva => h.not_walksTables he hva hwalks, h.walksTables he⟩

def boot : TableSys where
  kern :=
    { vm :=
        { npages := 8
          mem _ := some 0
          pages p := { ppLink := if 1 ≤ p ∧ p < 7 then some (p + 1) else none, ppRef := 0 }
          pageFreeList := some 1 }
      kernPgdir := pageKva 0
      envsAddr := kernbase
      envs := fun _ => default
      envFreeList := some 0
      curenv := none
      sstatus := 0 }
  owner p := if p = 0 then some 0 else none
  held := []
  fixed _ := false

theorem boot_shows : boot.kern.vm.Shows 8 ⟨fun _ _ => 0, fun _ => 0, [1, 2, 3, 4, 5, 6, 7]⟩ where
  npages := rfl
  bound := by decide
  word _ _ _ _ := rfl
  ref _ := rfl
  list := ⟨rfl, rfl, rfl, rfl, rfl, rfl, rfl, rfl⟩
  nodup := by decide
  free := by decide
  unlinked p hp := by
    refine if_neg fun hin => hp ?_
    simp only [List.mem_cons, List.not_mem_nil, or_false]
    omega

theorem starts_boot : boot.Starts where
  tables := by
    refine ⟨8, 0, _, boot_shows, Forest.of_zeroed boot_shows (by decide) (by decide)
      (fun _ _ => rfl) (fun _ _ => rfl) (some (pd0x uvpt)), rfl, rfl, rfl, fun _ => rfl, fun p => ?_⟩
    by_cases hp : p = 0 <;> simp [boot, hp]
  envs _ he := he rfl
  held := rfl

def saneExec (s : TableSys) (event : TableEvent) : Option TableSys :=
  if s.sane event then s.exec event else none

theorem reached_of_run {events : List TableEvent} (hrun : events.foldlM saneExec boot = some s) :
    s.Reached := by
  refine (Reachable.start starts_boot).events (fun s event s' hstep => ?_) hrun
  unfold saneExec at hstep
  split_ifs at hstep with hsane
  exact ⟨hsane, hstep⟩

/-- The first environment is created; UVPT itself is an address below UTOP. -/
theorem self_map_no_table : ∃ s : TableSys, s.Reached ∧ s.Live 0 ∧ uvpt < utop ∧
    ¬ s.WalksTables 0 uvpt := by
  have hlive : ([.envAlloc 0].foldlM saneExec boot).map (fun s => decide (s.Live 0)) = some true := by
    decide +kernel
  obtain ⟨s, hrun, hs⟩ := Option.map_eq_some_iff.mp hlive
  obtain ⟨n, kd, T, h⟩ := Inv.of_reached (reached_of_run hrun)
  exact ⟨s, reached_of_run hrun, of_decide_eq_true hs, by decide,
    h.not_walksTables (of_decide_eq_true hs) rfl⟩

/-- The first environment maps a page at 4096. -/
theorem walksTables_mapped : ∃ s : TableSys, s.Reached ∧ s.Live 0 ∧
    (∃ slot, s.kern.vm.pgdirWalkThrough (s.pgdir 0) 0x1000 = .ok (some slot)) ∧
    s.WalksTables 0 0x1000 := by
  have hlive : ([.envAlloc 0, .pageAlloc true, .insert 0 2 0x1000 7].foldlM saneExec boot).map
      (fun s => (decide (s.Live 0),
        (s.kern.vm.pgdirWalkThrough (s.pgdir 0) 0x1000).toOption.map Option.isSome)) =
      some (true, some true) := by
    decide +kernel
  obtain ⟨s, hrun, hs⟩ := Option.map_eq_some_iff.mp hlive
  obtain ⟨hlive, hslot⟩ := Prod.ext_iff.mp hs
  have hreach := reached_of_run hrun
  obtain ⟨slot, hwalk, hsome⟩ := exists_of_toOption_map hslot
  obtain ⟨slot', hslot'⟩ := Option.isSome_iff_exists.mp hsome
  exact ⟨s, hreach, of_decide_eq_true hlive, ⟨slot', hslot' ▸ hwalk⟩,
    (walksTables_iff hreach (of_decide_eq_true hlive) 0x1000).mpr (by decide)⟩

end TableSys

end ZynexOS
