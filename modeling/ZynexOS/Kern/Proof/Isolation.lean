import ZynexOS.Kern.Proof.TableSys

/-!
# Address spaces are apart

What the invariant of the page tables says about the pages that environments map, and about the calls
that are made for other environments.
-/

namespace ZynexOS

open Library

namespace Forest

variable {n kd d r : Nat} {fixed : Nat → Nat → Bool} {T T' : Tables} {va : Word}

theorem root_eq (h : Forest n kd fixed T) (hown : T.own d = some d) (hlvl : T.lvl d = 0) (hd : d ≠ kd)
    (hva : T.self ≠ some (pd0x va)) (huser : pd0x va ∉ Kern.setupSlots) :
    T.root kd d (pd0x va) = d := by
  have hdir : ∀ p, T.lvl p = 0 → T.Dir p (pd0x va) := fun p hp =>
    ⟨by omega, pd0x_lt va, fun hself => hva hself.2⟩
  refine if_neg fun ⟨hne, hsame⟩ => hd ?_
  obtain hzero | ⟨c, hlink, -, hc | ⟨-, hshared, -⟩⟩ := h.links d d _ hown (hdir d hlvl)
  · exact absurd hzero hne
  · obtain ⟨-, hc' | ⟨-, hshared, -⟩⟩ := h.of_link h.kern.1 (hdir kd h.kern.2) (h.table c d hc).1
      (hsame.symm.trans hlink)
    · exact Option.some.inj (hc.symm.trans hc')
    · exact absurd hshared huser
  · exact absurd hshared huser

theorem own_leaf {leaf : Nat} (h : Forest n kd fixed T) (hown : T.own d = some d) (hlvl : T.lvl d = 0)
    (hd : d ≠ kd) (hva : T.self ≠ some (pd0x va)) (huser : pd0x va ∉ Kern.setupSlots)
    (hleaf : T.descend d (path va) = some leaf) :
    T.own leaf = some d ∧ T.Leaf fixed leaf (ptx va) := by
  obtain ⟨hleafOwn, hleafLvl⟩ := h.descend_leaf hown hlvl hva hleaf
  rw [h.root_eq hown hlvl hd hva huser] at hleafOwn
  refine ⟨hleafOwn, by simp [hleafOwn], hleafLvl, ptx_lt va, Bool.eq_false_iff.mpr fun hfixed => hd ?_⟩
  exact Option.some.inj (hleafOwn.symm.trans (h.fixed leaf _ hfixed))

theorem binding_eq {vm : Vm} (h : Forest n kd fixed T) (hshows : vm.Shows n T.toPt)
    (hown : T.own d = some d) (hlvl : T.lvl d = 0) (hva : T.self ≠ some (pd0x va))
    (hleaf : ∀ leaf, T.descend d (path va) = some leaf → T.Leaf fixed leaf (ptx va)) :
    vm.binding (pageKva d) va = .ok (T.entry d va) := by
  refine Vm.binding_eq hshows (h.sound hown hlvl hva).linked fun leaf hfound => ?_
  obtain ⟨r, hr⟩ := Option.ne_none_iff_exists'.mp (hleaf leaf hfound).own
  refine ⟨(h.table leaf r hr).1, (h.leaf_cases (hleaf leaf hfound)).imp id ?_⟩
  exact fun ⟨c, hc, hmaps, _⟩ => ⟨c, hc, hmaps⟩

theorem descend_spared (h : Forest n kd fixed T) (hspares : T.Spares T' r) {path : List Nat} {t : Nat}
    (hown : T.own t = some r) (hlvl : 0 < T.lvl t) (hlen : T.lvl t + path.length ≤ 3)
    (hpath : ∀ i ∈ path, i < 512) : T'.descend t path = T.descend t path := by
  induction path generalizing t with
  | nil => rfl
  | cons i path ih =>
      rw [List.length_cons] at hlen
      have hi := hpath i List.mem_cons_self
      have hsame := (hspares t hown).2.2 i hi fun htop => absurd htop (Nat.ne_of_gt hlvl)
      obtain hzero | ⟨c, hlink, hnext, hc⟩ :=
        h.link_below hown hlvl ⟨by omega, hi, fun hself => by omega⟩
      · rw [Pt.descend_zero hzero, Pt.descend_zero (hsame.trans hzero)]
      · have hbound := lt_of_lt_of_le (h.table c r hc).1 h.bound
        rw [Pt.descend_link hbound hlink, Pt.descend_link hbound (hsame.trans hlink)]
        exact ih hc (by omega) (by omega) fun j hj => hpath j (List.mem_cons_of_mem i hj)

theorem entry_spared (h : Forest n kd fixed T) (hspares : T.Spares T' d) (hown : T.own d = some d)
    (hlvl : T.lvl d = 0) (hd : d ≠ kd) (hva : T.self ≠ some (pd0x va))
    (huser : pd0x va ∉ Kern.setupSlots) : T'.entry d va = T.entry d va := by
  have hdescend : T'.descend d (path va) = T.descend d (path va) := by
    have hsame := (hspares d hown).2.2 _ (pd0x_lt va) fun _ => huser
    obtain hzero | ⟨c, hlink, hnext, hc | ⟨-, hshared, -⟩⟩ := h.links d d (pd0x va) hown
      ⟨by omega, pd0x_lt va, fun hself => hva hself.2⟩
    · rw [path, Pt.descend_zero hzero, Pt.descend_zero (hsame.trans hzero)]
    · have hbound := lt_of_lt_of_le (h.table c d hc).1 h.bound
      rw [path, Pt.descend_link hbound hlink, Pt.descend_link hbound (hsame.trans hlink)]
      exact h.descend_spared hspares hc (by omega) (by simp [hnext, hlvl]) (by simp [pd1x_lt, pd2x_lt])
    · exact absurd hshared huser
  unfold Tables.entry
  rw [hdescend]
  cases hleaf : T.descend d (path va) with
  | none => rfl
  | some leaf =>
      obtain ⟨hleafOwn, hslot⟩ := h.own_leaf hown hlvl hd hva huser hleaf
      have hword := (hspares leaf hleafOwn).2.2 _ (ptx_lt va) fun htop => by
        rw [hslot.lvl] at htop
        cases htop
      exact congrArg Tables.decode hword

end Forest

namespace TableSys

variable {s s' : TableSys} {e : Nat} {va : Word}

theorem live_of_env {event : TableEvent} (hexec : s.exec event = some s') (henv : event.env = some e) :
    s.Live e := by
  cases event <;> cases henv <;> exact Inv.live_of_exec hexec

theorem mapped_page_in_use (hreach : s.Reached) (he : s.Live e) (hva : pd0x va ≠ pd0x uvpt)
    (hslot : s.slotFree e va = true) : ∃ found, s.kern.vm.binding (s.pgdir e) va = .ok found ∧
      ∀ pp flags, found = some (pp, flags) → pp < s.kern.vm.npages ∧ ¬ s.kern.vm.OnFreeList pp ∧
        (s.kern.vm.pages pp).ppRef ≠ 0 ∧ pp ∉ s.held ∧ s.owner pp = none := by
  obtain ⟨n, kd, T, h⟩ := Inv.of_reached hreach
  obtain ⟨d, hd, hown, hlvl, -⟩ := h.dirs e he
  have hleaf : ∀ leaf, T.descend d (path va) = some leaf → T.Leaf s.fixedSlot leaf (ptx va) :=
    fun leaf => h.slotFree_leaf hd hown hlvl hva hslot
  rw [hd]
  refine ⟨_, h.forest.binding_eq h.shows hown hlvl (h.self_ne hva) hleaf, fun pp flags hfound => ?_⟩
  obtain ⟨leaf, hdescend, hdecode⟩ := Option.bind_eq_some_iff.mp hfound
  obtain ⟨hne, htarget⟩ := Vm.IsPageTable.target_of_decode hdecode
  have htable := h.once.own_target h.forest (hleaf leaf hdescend) htarget
  obtain hzero | ⟨c, hc, hmaps, -, href, hfree⟩ := h.forest.leaf_cases (hleaf leaf hdescend)
  · exact absurd hzero hne
  · rw [hmaps.target_eq (lt_of_lt_of_le hc h.forest.bound), Option.some.injEq] at htarget
    subst htarget
    refine ⟨h.shows.npages ▸ hc, fun hin => hfree (h.shows.onFreeList.mp hin), ?_, ?_, h.own ▸ htable⟩
    · rw [h.shows.ref]
      exact href
    · exact fun hin => href (h.held c hin).ref

theorem mapped_page_first : ∃ s : TableSys, s.Reached ∧ s.Live 0 ∧
    s.kern.vm.binding (s.pgdir 0) 0x1000 = .ok (some (2, 7)) ∧ ¬ s.kern.vm.OnFreeList 2 ∧
    s.owner 2 = none := by
  have hrun : ([.envAlloc 0, .pageAlloc true, .insert 0 2 0x1000 7].foldlM saneExec boot).map
      (fun s => (decide (s.Live 0), s.slotFree 0 0x1000,
        (s.kern.vm.binding (s.pgdir 0) 0x1000).toOption)) = some (true, true, some (some (2, 7))) := by
    decide +kernel
  obtain ⟨s, hrun, hs⟩ := Option.map_eq_some_iff.mp hrun
  simp only [Prod.mk.injEq, decide_eq_true_eq] at hs
  obtain ⟨hlive, hslot, hbinding⟩ := hs
  have hreach := reached_of_run hrun
  obtain ⟨found, hfound, huse⟩ := mapped_page_in_use hreach hlive (by decide) hslot
  rw [hfound, Except.toOption, Option.some.injEq] at hbinding
  obtain ⟨-, hfree, -, -, htable⟩ := huse 2 7 hbinding
  exact ⟨s, hreach, hlive, hbinding ▸ hfound, hfree, htable⟩

/-- A call that is not for `e` leaves everything mapped that `e` maps in its own part of the address
space. -/
theorem other_spaces_kept {event : TableEvent} (hreach : s.Reached) (hsane : s.sane event = true)
    (hexec : s.exec event = some s') (he : s.Live e) (hother : event.env ≠ some e)
    (hva : pd0x va ≠ pd0x uvpt)
    (huser : pd0x va ∉ Kern.setupSlots) : ∃ found, s.kern.vm.binding (s.pgdir e) va = .ok found ∧
      s'.kern.vm.binding (s.pgdir e) va = .ok found := by
  obtain ⟨n, kd, T, h⟩ := Inv.of_reached hreach
  obtain ⟨T', h', hevolves⟩ := h.step hsane hexec
  obtain ⟨d, hd, hown, hlvl, hdkd⟩ := h.dirs e he
  have hspares := hevolves.spares d hdkd fun e' he' heq => hother (he'.trans (congrArg some
    (h.apart e' e (live_of_env hexec he') he (heq.trans hd.symm))))
  obtain ⟨hown', hlvl', -⟩ := hspares d hown
  rw [hlvl] at hlvl'
  have hbefore := h.forest.binding_eq h.shows hown hlvl (h.self_ne hva) fun leaf hleaf =>
    (h.forest.own_leaf hown hlvl hdkd (h.self_ne hva) huser hleaf).2
  have hafter := h'.forest.binding_eq h'.shows hown' hlvl' (h'.self_ne hva) fun leaf hleaf =>
    (h'.forest.own_leaf hown' hlvl' hdkd (h'.self_ne hva) huser hleaf).2
  rw [h.forest.entry_spared hspares hown hlvl hdkd (h.self_ne hva) huser] at hafter
  exact ⟨_, hd ▸ hbefore, hd ▸ hafter⟩

def bootTwo : TableSys :=
  { boot with kern := { boot.kern with
      envs := fun e => { (default : Env) with envLink := if e = 0 then some 1 else none } } }

theorem starts_bootTwo : bootTwo.Starts := ⟨starts_boot.tables, fun _ he => he rfl, rfl⟩

theorem other_spaces_two : ∃ s s' : TableSys, s.Reached ∧ s.Live 0 ∧ s.Live 1 ∧
    s.exec (.envFree 1) = some s' ∧
    s'.kern.vm.binding (s.pgdir 0) 0x1000 = .ok (some (2, 7)) := by
  have hrun : ([.envAlloc 0, .pageAlloc true, .insert 0 2 0x1000 7, .envAlloc 0].foldlM
      (guarded (fun s event => s.sane event = true) exec) bootTwo).map (fun s =>
        (decide (s.Live 0 ∧ s.Live 1), (s.exec (.envFree 1)).isSome,
          (s.kern.vm.binding (s.pgdir 0) 0x1000).toOption)) =
        some (true, true, some (some (2, 7))) := by
    decide +kernel
  obtain ⟨s, hreach, hs⟩ := (Reachable.start starts_bootTwo).observed guarded_eq_some hrun
  simp only [Prod.mk.injEq, decide_eq_true_eq] at hs
  obtain ⟨⟨hfirst, hsecond⟩, hexec, hbinding⟩ := hs
  obtain ⟨s', hexec⟩ := Option.isSome_iff_exists.mp hexec
  obtain ⟨found, hbefore, hafter⟩ := other_spaces_kept hreach rfl hexec hfirst (by decide)
    (show pd0x 0x1000 ≠ pd0x uvpt by decide) (by decide)
  rw [hbefore, Except.toOption, Option.some.injEq] at hbinding
  exact ⟨s, s', hreach, hfirst, hsecond, hexec, hbinding ▸ hafter⟩

end TableSys

end ZynexOS
