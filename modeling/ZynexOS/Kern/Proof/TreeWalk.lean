import ZynexOS.Kern.Proof.PageWords

/-! # Walking sound tables -/

namespace ZynexOS

open Library

namespace Pt

variable {pt : Pt} {n t i c : Nat} {path : List Nat}

theorem child_zero (hword : pt.word t i = 0) : pt.child t i = none := by
  simp [child, hword]

theorem child_link (hc : c < 2 ^ 19) (hword : pt.word t i = link c) : pt.child t i = some c := by
  rw [child, hword, if_neg link_and_pteV_ne, pdePhy_link hc, pgnum_page2pa hc]

theorem descend_zero (hword : pt.word t i = 0) : pt.descend t (i :: path) = none := by
  rw [descend, child_zero hword]
  rfl

theorem descend_link (hc : c < 2 ^ 19) (hword : pt.word t i = link c) :
    pt.descend t (i :: path) = pt.descend c path := by
  rw [descend, child_link hc hword]
  rfl

theorem extend_link (hc : c < 2 ^ 19) (hword : pt.word t i = link c) :
    pt.extend t (i :: path) = pt.extend c path := by
  rw [extend, child_link hc hword]

theorem extend_full (hword : pt.word t i = 0) (hfree : pt.free = []) :
    pt.extend t (i :: path) = (none, pt) := by
  rw [extend, child_zero hword]
  simp only [hfree]

theorem extend_zero {rest : List Nat} (hword : pt.word t i = 0) (hfree : pt.free = c :: rest) :
    pt.extend t (i :: path) = (pt.addTable t i c).extend c path := by
  rw [extend, child_zero hword]
  simp only [hfree]

theorem Sound.head (h : pt.Sound n t path) : t < n ∧ t ∉ pt.free := by
  cases path with
  | nil => exact h
  | cons i path => exact ⟨h.1, h.2.1⟩

theorem Sound.linked (h : pt.Sound n t path) : pt.Linked n t path := by
  induction path generalizing t with
  | nil => exact h.1
  | cons i path ih =>
      obtain ⟨ht, -, hi, hentry⟩ := h
      exact ⟨ht, hi, hentry.imp id fun ⟨c, hlink, hrest⟩ => ⟨c, hlink, ih hrest⟩⟩

@[simp] theorem word_setWord (t i : Nat) (w : Word) (p j : Nat) :
    (pt.setWord t i w).word p j = if p = t ∧ j = i then w else pt.word p j := rfl

@[simp] theorem word_take (c p j : Nat) :
    (pt.take c).word p j = if p = c then 0 else pt.word p j := rfl

@[simp] theorem word_addTable (t i c p j : Nat) :
    (pt.addTable t i c).word p j =
      if p = t ∧ j = i then link c else if p = c then 0 else pt.word p j := rfl

@[simp] theorem free_setWord (t i : Nat) (w : Word) : (pt.setWord t i w).free = pt.free := rfl

@[simp] theorem free_take (c : Nat) : (pt.take c).free = pt.free.tail := rfl

@[simp] theorem free_addTable (t i c : Nat) : (pt.addTable t i c).free = pt.free.tail := rfl

theorem word_addTable_new (hne : t ≠ c) (j : Nat) : (pt.addTable t i c).word c j = 0 := by
  rw [word_addTable, if_neg fun hsame => hne hsame.1.symm, if_pos rfl]

theorem sound_addTable {rest : List Nat} (hc : c < n) (hnodup : pt.free.Nodup)
    (hfree : pt.free = c :: rest) (hne : t ≠ c) (hpath : ∀ i ∈ path, i < 512) :
    (pt.addTable t i c).Sound n c path := by
  have hnot : c ∉ (pt.addTable t i c).free := by
    rw [hfree] at hnodup
    simpa [hfree] using (List.nodup_cons.mp hnodup).1
  cases path with
  | nil => exact ⟨hc, hnot⟩
  | cons j path => exact ⟨hc, hnot, hpath j List.mem_cons_self, .inl (word_addTable_new hne j)⟩

theorem extend_of_free_nil (hn : n ≤ 2 ^ 19) (h : pt.Sound n t path) (hfree : pt.free = []) :
    pt.extend t path = (pt.descend t path, pt) := by
  induction path generalizing t with
  | nil => rfl
  | cons i path ih =>
      obtain ⟨-, -, -, hzero | ⟨c, hlink, hrest⟩⟩ := h
      · rw [extend_full hzero hfree, descend_zero hzero]
      · have hc := lt_of_lt_of_le hrest.head.1 hn
        rw [extend_link hc hlink, descend_link hc hlink, ih hrest]

theorem extend_of_descend {leaf : Nat} (hn : n ≤ 2 ^ 19) (h : pt.Sound n t path)
    (hleaf : pt.descend t path = some leaf) : pt.extend t path = (some leaf, pt) := by
  induction path generalizing t with
  | nil =>
      rw [descend] at hleaf
      rw [extend, hleaf]
  | cons i path ih =>
      obtain ⟨-, -, -, hzero | ⟨c, hlink, hrest⟩⟩ := h
      · rw [descend_zero hzero] at hleaf
        cases hleaf
      · have hc := lt_of_lt_of_le hrest.head.1 hn
        rw [descend_link hc hlink] at hleaf
        rw [extend_link hc hlink, ih hrest hleaf]

end Pt

namespace Vm.Shows

variable {vm : Vm} {n : Nat} {pt : Pt} {t i c : Nat}

theorem nextTable_zero (h : vm.Shows n pt) (ht : t < n) (hi : i < 512) (hword : pt.word t i = 0) :
    vm.nextTable (pageKva t) i = .ok none := by
  have hload := h.load ht hi
  rw [hword] at hload
  rw [nextTable, entryAddr_pageKva, hload]
  rfl

theorem nextTable_link (h : vm.Shows n pt) (ht : t < n) (hi : i < 512) (hc : c < n)
    (hword : pt.word t i = link c) : vm.nextTable (pageKva t) i = .ok (some (pageKva c)) := by
  have hload := h.load ht hi
  rw [hword] at hload
  rw [nextTable, entryAddr_pageKva, hload, ok_bind,
    if_neg link_and_pteV_ne, pdePhy_link (lt_of_lt_of_le hc h.bound), h.kaddr hc]
  rfl

theorem pgdirWalkThrough (h : vm.Shows n pt) {va : Word} (hlinked : pt.Linked n t (path va)) :
    vm.pgdirWalkThrough (pageKva t) va =
      .ok ((pt.descend t (path va)).map fun leaf => slotAddr leaf (ptx va)) := by
  obtain ⟨ht, hi, hzero | ⟨c₁, hlink, ht₁, hi₁, hrest⟩⟩ := hlinked
  · rw [Vm.pgdirWalkThrough, h.nextTable_zero ht hi hzero, path, Pt.descend_zero hzero]
    rfl
  rw [Vm.pgdirWalkThrough, h.nextTable_link ht hi ht₁ hlink, path,
    Pt.descend_link (lt_of_lt_of_le ht₁ h.bound) hlink]
  obtain hzero | ⟨c₂, hlink, ht₂, hi₂, hrest⟩ := hrest
  · simp only [ok_bind, h.nextTable_zero ht₁ hi₁ hzero, Pt.descend_zero hzero]
    rfl
  rw [Pt.descend_link (lt_of_lt_of_le ht₂ h.bound) hlink]
  simp only [ok_bind, h.nextTable_link ht₁ hi₁ ht₂ hlink]
  obtain hzero | ⟨c₃, hlink, ht₃⟩ := hrest
  · simp only [h.nextTable_zero ht₂ hi₂ hzero, Pt.descend_zero hzero, ok_bind]
    rfl
  · simp only [h.nextTable_link ht₂ hi₂ ht₃ hlink,
      Pt.descend_link (lt_of_lt_of_le ht₃ h.bound) hlink, ok_bind]
    rfl

/-! ### Adding tables

Between two levels the page `pg` that will be the next table has been taken but is not linked. -/

variable {pg : Nat} {rest : List Nat}

section

variable (h : vm.Shows n (pt.take pg)) (ht : t < n) (hne : t ≠ pg)
include h ht hne

theorem linkLevel_link (hi : i < 512) (hc : c < n) (hword : pt.word t i = link c) :
    vm.linkLevel (pageKva t) i pg = .ok (some (pageKva c, pg), vm) := by
  have hload := h.load ht hi
  rw [Pt.word_take, if_neg hne, hword] at hload
  rw [linkLevel, entryAddr_pageKva, hload, ok_bind,
    if_neg link_and_pteV_ne, pdePhy_link (lt_of_lt_of_le hc h.bound), h.kaddr hc]
  rfl

theorem linkLevel_full (hi : i < 512) (hword : pt.word t i = 0) (hfree : pt.free = [pg]) :
    ∃ vm', vm.linkLevel (pageKva t) i pg = .ok (none, vm') ∧ vm'.Shows n (pt.addTable t i pg) := by
  have hload := h.load ht hi
  rw [Pt.word_take, if_neg hne, hword] at hload
  obtain ⟨vm', hstore, hshows⟩ := h.store ht hi (link pg)
  refine ⟨vm', ?_, hshows⟩
  have halloc := hshows.pageAlloc_none (by simp [hfree]) true
  rw [linkLevel, entryAddr_pageKva, hload, ok_bind,
    if_pos zero_and_pteV]
  rw [pdeEntry_or_pteV, hstore, ok_bind, halloc]
  rfl

theorem linkLevel_zero {pg' : Nat}
    (hne' : t ≠ pg') (hi : i < 512) (hpg : pg < n) (hword : pt.word t i = 0)
    (hfree : pt.free = pg :: pg' :: rest) :
    ∃ vm', vm.linkLevel (pageKva t) i pg = .ok (some (pageKva pg, pg'), vm') ∧
      vm'.Shows n ((pt.addTable t i pg).take pg') := by
  have hload := h.load ht hi
  rw [Pt.word_take, if_neg hne, hword] at hload
  obtain ⟨mid, hstore, hmid⟩ := h.store ht hi (link pg)
  obtain ⟨vm', halloc, hshows⟩ := hmid.take (show _ = pg' :: rest by simp [hfree])
  refine ⟨vm'.incRef pg', ?_, hshows⟩
  have hagain := hshows.load ht hi
  rw [Pt.word_take, if_neg hne', Pt.word_setWord, if_pos ⟨rfl, rfl⟩] at hagain
  rw [linkLevel, entryAddr_pageKva, hload, ok_bind,
    if_pos zero_and_pteV]
  rw [pdeEntry_or_pteV, hstore, ok_bind, halloc, ok_bind]
  simp only [hagain, ok_bind, pdePhy_link (lt_of_lt_of_le hpg h.bound), hshows.kaddr hpg]
  rfl

theorem linkLeaf_zero (hi : i < 512) (hpg : pg < n) (hword : pt.word t i = 0) :
    ∃ vm', vm.linkLeaf (pageKva t) i pg = .ok (pageKva pg, vm') ∧
      vm'.Shows n (pt.addTable t i pg) := by
  have hload := h.load ht hi
  rw [Pt.word_take, if_neg hne, hword] at hload
  obtain ⟨vm', hstore, hshows⟩ := h.store ht hi (link pg)
  refine ⟨vm', ?_, hshows⟩
  have hagain := hshows.load ht hi
  rw [Pt.word_setWord, if_pos ⟨rfl, rfl⟩] at hagain
  rw [linkLeaf, fillEntry, entryAddr_pageKva, hload, ok_bind,
    if_pos zero_and_pteV]
  rw [pdeEntry_or_pteV, hstore, ok_bind, hagain, ok_bind,
    pdePhy_link (lt_of_lt_of_le hpg h.bound), hshows.kaddr hpg]
  rfl

end

theorem linkBelow {va : Word} (h : vm.Shows n (pt.take pg)) (hpg : pg < n) (hnodup : pt.free.Nodup)
    (hbound : ∀ p ∈ pt.free, p < n) (hfree : pt.free = pg :: rest)
    (hsound : pt.Sound n t [pd1x va, pd2x va]) (hnone : pt.descend t [pd1x va, pd2x va] = none) :
    ∃ vm', (do
      match ← vm.linkLevel (pageKva t) (pd1x va) pg with
      | (none, vm) => pure (none, vm)
      | (some (table2, pg), vm) =>
          let (table3, vm) ← vm.linkLeaf table2 (pd2x va) pg
          pure (some (entryAddr table3 (ptx va)), vm) : Except Panic (Option Word × Vm)) =
      .ok ((pt.extend t [pd1x va, pd2x va]).1.map fun leaf => slotAddr leaf (ptx va), vm') ∧
      vm'.Shows n (pt.extend t [pd1x va, pd2x va]).2 := by
  obtain ⟨ht, htfree, hi, hzero | ⟨c, hlink, hc, hcfree, hi₂, hbelow⟩⟩ := hsound
  · have hne : t ≠ pg := fun heq => htfree (by simp [hfree, heq])
    have hnew : (pt.addTable t (pd1x va) pg).word pg (pd2x va) = 0 := Pt.word_addTable_new hne _
    rw [Pt.extend_zero hzero hfree]
    cases rest with
    | nil =>
        obtain ⟨vm', hlevel, hshows⟩ := h.linkLevel_full ht hne hi hzero hfree
        rw [hlevel, Pt.extend_full hnew (by simp [hfree])]
        exact ⟨vm', rfl, hshows⟩
    | cons pg' rest =>
        have hne' : t ≠ pg' := fun heq => htfree (by simp [hfree, heq])
        have hpages : pg ≠ pg' := fun heq => by simp [hfree, heq] at hnodup
        have hpg' : pg' < n := hbound pg' (by simp [hfree])
        have hfree' : (pt.addTable t (pd1x va) pg).free = pg' :: rest := by simp [hfree]
        obtain ⟨mid, hlevel, hmid⟩ := h.linkLevel_zero ht hne hne' hi hpg hzero hfree
        obtain ⟨vm', hleaf, hshows⟩ := hmid.linkLeaf_zero hpg hpages (pd2x_lt va) hpg' hnew
        rw [hlevel, ok_bind, Pt.extend_zero hnew hfree']
        simp only [hleaf, ok_bind]
        exact ⟨vm', rfl, hshows⟩
  · have hne : t ≠ pg := fun heq => htfree (by simp [hfree, heq])
    have hne₂ : c ≠ pg := fun heq => hcfree (by simp [hfree, heq])
    have hbound₂ := lt_of_lt_of_le hc h.bound
    rw [Pt.descend_link hbound₂ hlink] at hnone
    -- the page taken is linked at the last level, because the walk has failed there
    have hzero : pt.word c (pd2x va) = 0 := by
      obtain hzero | ⟨leaf, hleaf, hin, -⟩ := hbelow
      · exact hzero
      · rw [Pt.descend_link (lt_of_lt_of_le hin h.bound) hleaf] at hnone
        cases hnone
    obtain ⟨vm', hleaf, hshows⟩ := h.linkLeaf_zero hc hne₂ hi₂ hpg hzero
    rw [h.linkLevel_link ht hne hi hc hlink, ok_bind, Pt.extend_link hbound₂ hlink,
      Pt.extend_zero hzero hfree]
    simp only [hleaf, ok_bind]
    exact ⟨vm', rfl, hshows⟩

theorem pgdirCreatePageLevel {va : Word} (h : vm.Shows n pt) (hsound : pt.Sound n t (path va))
    (hnone : pt.descend t (path va) = none) :
    ∃ vm', vm.pgdirCreatePageLevel (pageKva t) va =
        .ok ((pt.extend t (path va)).1.map fun leaf => slotAddr leaf (ptx va), vm') ∧
      vm'.Shows n (pt.extend t (path va)).2 := by
  cases hfree : pt.free with
  | nil =>
      rw [Pt.extend_of_free_nil h.bound hsound hfree, hnone, Vm.pgdirCreatePageLevel,
        h.pageAlloc_none hfree true]
      exact ⟨vm, rfl, h⟩
  | cons pg rest =>
      have hpg : pg < n := h.free pg (by simp [hfree])
      obtain ⟨mid, halloc, hmid⟩ := h.take hfree
      rw [Vm.pgdirCreatePageLevel, halloc, ok_bind]
      obtain ⟨ht, htfree, hi, hzero | ⟨c, hlink, hbelow⟩⟩ := hsound
      · have hne : t ≠ pg := fun heq => htfree (by simp [hfree, heq])
        have hnew : (pt.addTable t (pd0x va) pg).word pg (pd1x va) = 0 := Pt.word_addTable_new hne _
        rw [path, Pt.extend_zero hzero hfree]
        cases rest with
        | nil =>
            obtain ⟨vm', hlevel, hshows⟩ := hmid.linkLevel_full ht hne hi hzero hfree
            simp only [hlevel, Pt.extend_full hnew (by simp [hfree])]
            exact ⟨vm', rfl, hshows⟩
        | cons pg' rest =>
            have hne' : t ≠ pg' := fun heq => htfree (by simp [hfree, heq])
            have hnodup : (pt.addTable t (pd0x va) pg).free.Nodup := by
              have hall := h.nodup
              rw [hfree] at hall
              simpa [hfree] using (List.nodup_cons.mp hall).2
            have hfree' : (pt.addTable t (pd0x va) pg).free = pg' :: rest := by simp [hfree]
            have hpg' : pg' < n := h.free pg' (by simp [hfree])
            obtain ⟨vm', hlevel, hshows⟩ := hmid.linkLevel_zero ht hne hne' hi hpg hzero hfree
            have hpath : ∀ i ∈ [pd1x va, pd2x va], i < 512 := by
              simp [pd1x_lt, pd2x_lt]
            simp only [hlevel, ok_bind]
            exact hshows.linkBelow hpg' hnodup (fun p hp => h.free p (List.mem_of_mem_tail hp)) hfree'
              (Pt.sound_addTable hpg h.nodup hfree hne hpath) (Pt.descend_zero hnew)
      · have hne : t ≠ pg := fun heq => htfree (by simp [hfree, heq])
        have hc := hbelow.head.1
        have hbound := lt_of_lt_of_le hc h.bound
        rw [path, Pt.descend_link hbound hlink] at hnone
        rw [path, Pt.extend_link hbound hlink]
        simp only [hmid.linkLevel_link ht hne hi hc hlink, ok_bind]
        exact hmid.linkBelow hpg h.nodup h.free hfree hbelow hnone

theorem pgdirWalk {va : Word} (h : vm.Shows n pt) (hsound : pt.Sound n t (path va)) :
    ∃ vm', vm.pgdirWalk (pageKva t) va true =
        .ok ((pt.extend t (path va)).1.map fun leaf => slotAddr leaf (ptx va), vm') ∧
      vm'.Shows n (pt.extend t (path va)).2 := by
  rw [Vm.pgdirWalk, h.pgdirWalkThrough hsound.linked, ok_bind]
  cases hdescend : pt.descend t (path va) with
  | none => exact h.pgdirCreatePageLevel hsound hdescend
  | some leaf =>
      rw [Pt.extend_of_descend h.bound hsound hdescend]
      exact ⟨vm, rfl, h⟩

end Vm.Shows

end ZynexOS
