import ZynexOS.Lib.Proof.ForkSpaces

/-!
# Which pages `fork` and `spawn` share

The test for `PTE_SHARE` is also passed by `PTE_COW`.
-/

namespace ZynexOS

theorem InWindow.ne_pnTemp {pn : Nat} (h : InWindow pn) : pn ≠ pnTemp := by
  rintro rfl
  revert h
  decide

theorem InWindow.ne_pnXstack {pn : Nat} (h : InWindow pn) : pn ≠ pnXstack := by
  rintro rfl
  revert h
  decide

namespace Family

variable {s s' : Family} {pn endVa : Nat} {loads : List Load} {m m' : Mapping}

theorem sharedCopy_of_share (hshare : m.perm.IsShare) (huser : m.perm.user = true) :
    sharedCopy m = some m := by
  obtain ⟨frame, ⟨read, write, exec, user, bit8, bit9⟩⟩ := m
  obtain ⟨rfl, -⟩ := hshare
  obtain rfl := huser
  rfl

theorem sharedCopy_eq_some : sharedCopy m = some m' ↔
    m.perm.bit9 = true ∧ m' = ⟨m.frame, { m.perm with bit9 := true, user := true }⟩ := by
  unfold sharedCopy
  split
  · rename_i hbit9
    simp [hbit9, eq_comm]
  · rename_i hbit9
    simp [hbit9]

theorem isShare_or_isCow (hbit9 : m.perm.bit9 = true) : m.perm.IsShare ∨ m.perm.IsCow := by
  cases hbit8 : m.perm.bit8 with
  | false => exact .inl ⟨hbit9, hbit8⟩
  | true => exact .inr ⟨hbit9, hbit8⟩

theorem spawn_child_old (hbounded : s.Bounded) (hm : s.space .parent pn = some m)
    (hchild : (s.spawn loads).space .child pn = some m') (hframe : m'.frame = m.frame) :
    InWindow pn ∧ sharedCopy m = some m' := by
  obtain ⟨s₁, hloaded, -, hspawn⟩ := spawn_spec s loads
  have hlt := hbounded .parent pn m hm
  rw [hspawn] at hchild
  split at hchild
  · rename_i hwindow
    refine ⟨hwindow, ?_⟩
    rw [hloaded.parent pn hwindow.ne_pnTemp, hm, Option.bind_some] at hchild
    rcases Option.or_eq_some_iff.mp hchild with hshare | ⟨-, hnew⟩
    · exact hshare
    · have := hloaded.child pn m' hnew
      omega
  · have := hloaded.child pn m' hchild
    omega

theorem spawn_child_window (hm : s.space .parent pn = some m) (hwindow : InWindow pn)
    (hcopy : sharedCopy m = some m') : (s.spawn loads).space .child pn = some m' := by
  obtain ⟨s₁, hloaded, -, hspawn⟩ := spawn_spec s loads
  rw [hspawn, if_pos hwindow, hloaded.parent pn hwindow.ne_pnTemp, hm, Option.bind_some, hcopy]
  rfl

theorem spawn_parent_window (hwindow : InWindow pn) :
    (s.spawn loads).space .parent pn = s.space .parent pn := by
  obtain ⟨s₁, hloaded, hparent, -⟩ := spawn_spec s loads
  rw [hparent]
  exact hloaded.parent pn hwindow.ne_pnTemp

theorem sharesRight_spawn_iff (hbounded : s.Bounded) : s.SharesRight (s.spawn loads) ↔
    (∀ pn m, s.space .parent pn = some m → m.perm.IsShare → InWindow pn ∧ m.perm.user = true) ∧
    ∀ pn m, s.space .parent pn = some m → m.perm.IsCow → InWindow pn → m.perm.write = false := by
  constructor
  · intro h
    refine ⟨fun pn m hm hshare => ?_, fun pn m hm hcow hwindow => ?_⟩
    · obtain ⟨hwindow, hcopy⟩ := spawn_child_old hbounded hm (h.shared pn m hm hshare) rfl
      obtain ⟨-, heq⟩ := sharedCopy_eq_some.mp hcopy
      exact ⟨hwindow, by rw [heq]⟩
    · have hcopy : sharedCopy m = some ⟨m.frame, { m.perm with bit9 := true, user := true }⟩ :=
        sharedCopy_eq_some.mpr ⟨hcow.1, rfl⟩
      have hnot : ¬m.perm.IsShare := fun hshare => Bool.false_ne_true (hshare.2.symm.trans hcow.2)
      exact (h.unshared pn m hm hnot _ (spawn_child_window hm hwindow hcopy) rfl).1
  · rintro ⟨hshares, hcows⟩
    refine ⟨fun pn m hm hshare => ?_, fun pn m hm hnot m' hchild hframe => ?_⟩
    · obtain ⟨hwindow, huser⟩ := hshares pn m hm hshare
      exact spawn_child_window hm hwindow (sharedCopy_of_share hshare huser)
    · obtain ⟨hwindow, hcopy⟩ := spawn_child_old hbounded hm hchild hframe
      obtain ⟨hbit9, rfl⟩ := sharedCopy_eq_some.mp hcopy
      have hwrite := hcows pn m hm ((isShare_or_isCow hbit9).resolve_left hnot) hwindow
      refine ⟨hwrite, fun m'' hm'' _ => ?_⟩
      rw [spawn_parent_window hwindow, hm] at hm''
      cases hm''
      exact hwrite

theorem forked_child_of_not_mem (hm : s.space .parent pn = some m) (hx : pn ≠ pnXstack)
    (hdup : pn ∉ dupPages endVa) : (s.forked endVa).space .child pn =
      if InWindow pn then sharedCopy m else none := by
  rw [forked_child s hx, forked_parent, if_neg hdup, if_neg hdup, hm]
  simp

theorem forked_child_of_mem (hm : s.space .parent pn = some m) (hx : pn ≠ pnXstack)
    (hdup : pn ∈ dupPages endVa) : (s.forked endVa).space .child pn = some (asCow m) := by
  rw [forked_child s hx, forked_parent, if_pos hdup, if_pos hdup, hm]
  have hcopy : sharedCopy (asCow m) = some (asCow m) := rfl
  simp [hcopy]

theorem forked_child_xstack : (s.forked endVa).space .child pnXstack = some ⟨s.next, .readWrite⟩ := by
  rw [forked, space_pageAlloc, space_set_self, Function.update_self, (copySharedPages_data _).2,
    dupped, exofork]

theorem sharesRight_forked (hbounded : s.Bounded) (h : s.Shareable endVa)
    (hfork : s.Forkable endVa) : s.SharesRight (s.forked endVa) where
  shared pn m hm hshare := by
    obtain ⟨hwindow, huser⟩ := h.window pn m hm hshare
    rw [forked_child_of_not_mem hm hwindow.ne_pnXstack (h.notDup hfork pn m hm hshare),
      if_pos hwindow]
    exact sharedCopy_of_share hshare huser
  unshared pn m hm hnot m' hchild hframe := by
    have hx : pn ≠ pnXstack := by
      rintro rfl
      rw [forked_child_xstack] at hchild
      cases hchild
      have := hbounded .parent _ m hm
      simp only at hframe
      omega
    by_cases hdup : pn ∈ dupPages endVa
    · rw [forked_child_of_mem hm hx hdup] at hchild
      cases hchild
      refine ⟨rfl, fun m'' hm'' _ => ?_⟩
      rw [forked_parent, if_pos hdup, hm] at hm''
      cases hm''
      rfl
    · rw [forked_child_of_not_mem hm hx hdup] at hchild
      split at hchild
      · rename_i hwindow
        obtain ⟨hbit9, rfl⟩ := sharedCopy_eq_some.mp hchild
        have hwrite := h.cow pn m hm ((isShare_or_isCow hbit9).resolve_left hnot) hwindow
        refine ⟨hwrite, fun m'' hm'' _ => ?_⟩
        rw [forked_parent, if_neg hdup, hm] at hm''
        cases hm''
        exact hwrite
      · cases hchild

/-- `fork` and `spawn` share exactly the right pages if and only if all pages marked `PTE_SHARE` are
descriptors or their data, and none marked `PTE_COW` among those is writable. -/
theorem sharing_right_iff (s : Family) (endVa : Nat) (loads : List Load) (hbounded : s.Bounded) :
    s.SharingRight endVa loads ↔ s.Shareable endVa := by
  constructor
  · rintro ⟨hforked, hspawn⟩
    obtain ⟨hshares, hcows⟩ := (sharesRight_spawn_iff hbounded).mp hspawn
    refine ⟨hshares, fun hfork pn m hm hshare hdup => ?_, hcows⟩
    -- A shared page among those of `duppage` is copy-on-write in the child.
    have hchild := (hforked _ (fork_of_forkable hfork)).shared pn m hm hshare
    rw [forked_child_of_mem hm (hshares pn m hm hshare).1.ne_pnXstack hdup] at hchild
    obtain ⟨-, hbit8⟩ := hshare
    rw [← Option.some.inj hchild] at hbit8
    cases hbit8
  · intro h
    refine ⟨fun s' hs' => ?_, (sharesRight_spawn_iff hbounded).mpr ⟨h.window, h.cow⟩⟩
    have hfork := forkable_of_fork hs'
    rw [fork_of_forkable hfork] at hs'
    cases hs'
    exact sharesRight_forked hbounded h hfork

def withShared (pn : Nat) : Family where
  space side q :=
    if side = .parent ∧ q = pnStack then some ⟨0, .readWrite⟩
    else if side = .parent ∧ q = pn then some ⟨1, { Perm.readWrite with bit9 := true }⟩
    else none
  data _ _ := 0
  next := 2

theorem eq_of_withShared {side : Side} {q : Nat} (hm : (withShared pn).space side q = some m) :
    m = ⟨0, .readWrite⟩ ∨ q = pn ∧ m = ⟨1, { Perm.readWrite with bit9 := true }⟩ := by
  simp only [withShared] at hm
  split at hm
  · exact .inl (Option.some.inj hm).symm
  · split at hm
    · rename_i hq
      exact .inr ⟨hq.2, (Option.some.inj hm).symm⟩
    · cases hm

theorem bounded_withShared (pn : Nat) : (withShared pn).Bounded := by
  intro side q m hm
  rcases eq_of_withShared hm with rfl | ⟨-, rfl⟩
  · exact Nat.zero_lt_two
  · exact Nat.one_lt_two

theorem forkable_withShared (pn : Nat) : (withShared pn).Forkable 0x800000 := by
  intro q hq
  obtain rfl : q = pnStack := by simpa [dupPages, textPages, pnText] using hq
  rfl

theorem sharing_right_descriptor : (withShared 0xD0000).SharingRight 0x800000 [] := by
  refine (sharing_right_iff _ _ _ (bounded_withShared _)).mpr ⟨?_, ?_, ?_⟩
  · intro q m hm hshare
    rcases eq_of_withShared hm with rfl | ⟨rfl, rfl⟩
    · exact absurd hshare.1 (by decide)
    · exact ⟨by decide, rfl⟩
  · intro _ q m hm hshare hdup
    obtain rfl : q = pnStack := by simpa [dupPages, textPages, pnText] using hdup
    cases hm
    exact absurd hshare.1 (by decide)
  · intro q m hm hcow _
    rcases eq_of_withShared hm with rfl | ⟨rfl, rfl⟩
    · exact absurd hcow.1 (by decide)
    · exact absurd hcow.2 (by decide)

/-- A page that is shared, at the address `0x01000000`, is lost in the child of a `fork`. -/
theorem shared_page_lost : (withShared 0x1000).Bounded ∧ ∃ s',
    (withShared 0x1000).fork 0x800000 = some s' ∧ s'.space .child 0x1000 = none ∧
      ¬(withShared 0x1000).SharesRight s' := by
  have hm : (withShared 0x1000).space .parent 0x1000
      = some ⟨1, { Perm.readWrite with bit9 := true }⟩ := rfl
  have hchild : ((withShared 0x1000).forked 0x800000).space .child 0x1000 = none := by
    rw [forked_child_of_not_mem hm (by decide) (by simp [dupPages, textPages, pnText, pnStack])]
    rfl
  refine ⟨bounded_withShared _, _, fork_of_forkable (forkable_withShared _), hchild, fun h => ?_⟩
  have := h.shared _ _ hm ⟨rfl, rfl⟩
  rw [hchild] at this
  cases this

end Family

end ZynexOS
