import ZynexOS.Lib.Fork

/-! # The address spaces after `fork` and `spawn` -/

namespace ZynexOS

open Function

namespace Family

variable {s s' : Family} {pn : Nat}

@[simp] theorem space_set_self (side : Side) (m : Option Mapping) :
    (s.set side pn m).space side = update (s.space side) pn m :=
  update_self ..

theorem space_set_of_ne {side side' : Side} (hne : side' ≠ side) (m : Option Mapping) :
    (s.set side pn m).space side' = s.space side' := update_of_ne hne ..

theorem space_pageAlloc (s : Family) (side : Side) (pn : Nat) (perm : Perm) :
    (s.pageAlloc side pn perm).space = (s.set side pn (some ⟨s.next, perm⟩)).space := rfl

theorem pageMap_of_some {src dst : Side} {srcPn dstPn : Nat} {perm : Perm} {m : Mapping}
    (hm : s.space src srcPn = some m) (hperm : perm.write = true → m.perm.write = true) :
    s.pageMap src srcPn dst dstPn perm = some (s.set dst dstPn (some ⟨m.frame, perm⟩)) := by
  unfold pageMap
  rw [hm]
  exact if_neg fun hrefused => hrefused.2 (hperm hrefused.1)

def asCow (m : Mapping) : Mapping := ⟨m.frame, .cow⟩

def dupped (s : Family) (dup : List Nat) : Family :=
  { s with
    space := fun side pn =>
      if pn ∈ dup then (s.space .parent pn).map asCow else s.space side pn }

theorem duppage_eq_none (hnone : s.space .parent pn = none) : s.duppage pn = none := by
  simp [duppage, pageMap, hnone]

theorem duppage_of_some {m : Mapping} (hm : s.space .parent pn = some m) :
    s.duppage pn = some (s.dupped [pn]) := by
  have hchild : (s.set .child pn (some ⟨m.frame, .cow⟩)).space .parent pn = some m := by
    rw [space_set_of_ne (by decide), hm]
  have hcow : Perm.cow.write = true → m.perm.write = true := fun h => absurd h Bool.false_ne_true
  rw [duppage, pageMap_of_some hm hcow]
  refine (pageMap_of_some hchild hcow).trans (congrArg some ?_)
  simp only [dupped, set]
  congr 1
  funext side q
  cases side with
  | parent =>
      rw [update_self]
      by_cases hq : q = pn
      · subst hq
        simp [hm, asCow]
      · simp [hq]
  | child =>
      rw [update_of_ne (by decide), update_self]
      by_cases hq : q = pn
      · subst hq
        simp [hm, asCow]
      · simp [hq]

theorem dupped_nil (s : Family) : s.dupped [] = s := by simp [dupped]

theorem dupped_cons (s : Family) (dup : List Nat) (hsome : (s.space .parent pn).isSome = true) :
    (s.dupped [pn]).dupped dup = s.dupped (pn :: dup) := by
  simp only [dupped]
  congr 1
  funext side q
  by_cases hq : q = pn
  · subst hq
    obtain ⟨m, hm⟩ := Option.isSome_iff_exists.mp hsome
    simp [hm, asCow]
  · simp [hq]

theorem isSome_dupped (s : Family) (dup : List Nat) (q : Nat) :
    ((s.dupped dup).space .parent q).isSome = (s.space .parent q).isSome := by
  simp only [dupped]
  split <;> simp

theorem foldlM_duppage (dup : List Nat) :
    dup.foldlM duppage s =
      if ∀ q ∈ dup, (s.space .parent q).isSome = true then some (s.dupped dup) else none := by
  induction dup generalizing s with
  | nil => simp [dupped_nil]
  | cons pn dup ih =>
      rw [List.foldlM_cons]
      cases hm : s.space .parent pn with
      | none =>
          rw [duppage_eq_none hm]
          simp [hm]
      | some m =>
          have hsome : (s.space .parent pn).isSome = true := by rw [hm]; rfl
          rw [duppage_of_some hm]
          show dup.foldlM duppage (s.dupped [pn]) = _
          rw [ih, dupped_cons s dup hsome]
          simp only [isSome_dupped, List.forall_mem_cons, hsome, true_and]

def sharedCopy (m : Mapping) : Option Mapping :=
  if m.perm.bit9 then some ⟨m.frame, { m.perm with bit9 := true, user := true }⟩ else none

theorem copySharedPage_space (s : Family) (pn : Nat) :
    (s.copySharedPage pn).space .parent = s.space .parent ∧
      (s.copySharedPage pn).space .child = update (s.space .child) pn
        (((s.space .parent pn).bind sharedCopy).or (s.space .child pn)) := by
  unfold copySharedPage
  split
  · rename_i hm
    simp [hm]
  · rename_i m hm
    by_cases hbit : m.perm.bit9 = true
    · rw [if_pos hbit, space_set_of_ne (by decide), space_set_self]
      simp [hm, sharedCopy, hbit]
    · simp [hm, sharedCopy, hbit]

theorem foldl_copySharedPage (pages : List Nat) :
    (pages.foldl copySharedPage s).space .parent = s.space .parent ∧
      ∀ q, (pages.foldl copySharedPage s).space .child q =
        if q ∈ pages then ((s.space .parent q).bind sharedCopy).or (s.space .child q)
        else s.space .child q := by
  induction pages generalizing s with
  | nil => simp
  | cons pn pages ih =>
      obtain ⟨hparent, hchild⟩ := copySharedPage_space s pn
      obtain ⟨ihparent, ihchild⟩ := ih (s := s.copySharedPage pn)
      rw [List.foldl_cons]
      refine ⟨ihparent.trans hparent, fun q => ?_⟩
      rw [ihchild, hparent, hchild]
      by_cases hq : q = pn
      · subst hq
        cases hshare : (s.space .parent q).bind sharedCopy <;> simp
      · simp [hq]

theorem copySharedPages_data (s : Family) :
    s.copySharedPages.data = s.data ∧ s.copySharedPages.next = s.next := by
  unfold copySharedPages
  generalize List.range' pnWindow 64 = pages
  induction pages generalizing s with
  | nil => exact ⟨rfl, rfl⟩
  | cons pn pages ih =>
      have hstep : (s.copySharedPage pn).data = s.data ∧ (s.copySharedPage pn).next = s.next := by
        unfold copySharedPage
        split
        · exact ⟨rfl, rfl⟩
        · split <;> exact ⟨rfl, rfl⟩
      rw [List.foldl_cons]
      exact ⟨(ih _).1.trans hstep.1, (ih _).2.trans hstep.2⟩

theorem mem_window : pn ∈ List.range' pnWindow 64 ↔ InWindow pn := by
  rw [List.mem_range'_1]
  rfl

theorem copySharedPages_parent (s : Family) :
    s.copySharedPages.space .parent = s.space .parent := (foldl_copySharedPage _).1

theorem copySharedPages_child (s : Family) (q : Nat) :
    s.copySharedPages.space .child q =
      if InWindow q then ((s.space .parent q).bind sharedCopy).or (s.space .child q)
      else s.space .child q := by
  rw [copySharedPages, (foldl_copySharedPage _).2]
  simp only [mem_window]

theorem exofork_parent (s : Family) : s.exofork.space .parent = s.space .parent := by
  simp [exofork]

theorem exofork_child (s : Family) : s.exofork.space .child = fun _ => none := by
  simp [exofork]

def forked (s : Family) (endVa : Nat) : Family :=
  ((s.exofork.dupped (dupPages endVa)).copySharedPages).pageAlloc .child pnXstack .readWrite

theorem fork_of_forkable {endVa : Nat} (h : s.Forkable endVa) :
    s.fork endVa = some (s.forked endVa) := by
  have hall : ∀ q ∈ dupPages endVa, (s.exofork.space .parent q).isSome = true := by
    rw [exofork_parent]
    exact h
  rw [fork, foldlM_duppage, if_pos hall]
  rfl

theorem forkable_of_fork {endVa : Nat} (h : s.fork endVa = some s') : s.Forkable endVa := by
  by_contra hnot
  have hall : ¬∀ q ∈ dupPages endVa, (s.exofork.space .parent q).isSome = true := by
    rw [exofork_parent]
    exact hnot
  rw [fork, foldlM_duppage, if_neg hall] at h
  cases h

theorem forked_parent (s : Family) (endVa q : Nat) : (s.forked endVa).space .parent q =
    if q ∈ dupPages endVa then (s.space .parent q).map asCow else s.space .parent q := by
  rw [forked, space_pageAlloc, space_set_of_ne (by decide), copySharedPages_parent]
  simp only [dupped, exofork_parent]

theorem forked_child (s : Family) {endVa q : Nat} (hq : q ≠ pnXstack) :
    (s.forked endVa).space .child q =
      if InWindow q then (((s.forked endVa).space .parent q).bind sharedCopy).or
        (if q ∈ dupPages endVa then (s.space .parent q).map asCow else none)
      else if q ∈ dupPages endVa then (s.space .parent q).map asCow else none := by
  have hparent : (s.forked endVa).space .parent q
      = (s.exofork.dupped (dupPages endVa)).space .parent q := by
    rw [forked_parent]
    simp only [dupped, exofork_parent]
  rw [hparent, forked, space_pageAlloc, space_set_self, update_of_ne hq, copySharedPages_child]
  simp only [dupped, exofork_parent, exofork_child]

structure Loaded (s s' : Family) : Prop where
  parent : ∀ q, q ≠ pnTemp → s'.space .parent q = s.space .parent q
  child : ∀ q m, s'.space .child q = some m → s.next ≤ m.frame
  next : s.next ≤ s'.next

theorem loaded_exofork (s : Family) : Loaded s s.exofork where
  parent q _ := by rw [exofork_parent]
  child q m hm := by
    rw [exofork_child] at hm
    cases hm
  next := le_rfl

theorem Loaded.set_parent (h : Loaded s s') (m : Option Mapping) :
    Loaded s (s'.set .parent pnTemp m) where
  parent q hq := by
    rw [space_set_self, update_of_ne hq]
    exact h.parent q hq
  child q m hm := by
    rw [space_set_of_ne (by decide)] at hm
    exact h.child q m hm
  next := h.next

theorem Loaded.set_child (h : Loaded s s') (pn : Nat) {m : Mapping} (hm : s.next ≤ m.frame) :
    Loaded s (s'.set .child pn (some m)) where
  parent q hq := by
    rw [space_set_of_ne (by decide)]
    exact h.parent q hq
  child q m' hm' := by
    rw [space_set_self] at hm'
    by_cases hq : q = pn
    · rw [hq, update_self] at hm'
      cases hm'
      exact hm
    · rw [update_of_ne hq] at hm'
      exact h.child q m' hm'
  next := h.next

theorem Loaded.grow (h : Loaded s s') (data : Nat → Nat → BitVec 8) :
    Loaded s { s' with data := data, next := s'.next + 1 } :=
  ⟨h.parent, h.child, Nat.le_succ_of_le h.next⟩

theorem Loaded.viaTemp (h : Loaded s s') (pn : Nat) (perm : Perm) : Loaded s (s'.viaTemp pn perm) :=
  (((h.set_parent _).grow _).set_child pn h.next).set_parent none

theorem Loaded.loadPage (h : Loaded s s') (load : Load) : Loaded s (s'.loadPage load) := by
  unfold Family.loadPage
  split
  · exact h.viaTemp ..
  · exact (h.set_child load.pn h.next).grow _

theorem Loaded.loads (h : Loaded s s') (loads : List Load) :
    Loaded s (loads.foldl Family.loadPage s') := by
  induction loads generalizing s' with
  | nil => exact h
  | cons load loads ih => exact ih (h.loadPage load)

theorem spawn_spec (s : Family) (loads : List Load) : ∃ s', Loaded s s' ∧
    (s.spawn loads).space .parent = s'.space .parent ∧
    ∀ q, (s.spawn loads).space .child q =
      if InWindow q then ((s'.space .parent q).bind sharedCopy).or (s'.space .child q)
      else s'.space .child q :=
  ⟨_, ((loaded_exofork s).viaTemp pnStack .readWrite).loads loads, copySharedPages_parent _,
    copySharedPages_child _⟩

end Family

end ZynexOS
