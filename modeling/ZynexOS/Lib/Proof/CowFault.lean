import ZynexOS.Lib.CowFault
import ZynexOS.Lib.Proof.CopyOnWrite

/-! # What the page fault handler changes -/

namespace ZynexOS

open Function

namespace Family

variable {s : Family} {side : Side} {pn : Nat} {write : Bool} {m : Mapping}

theorem pageAlloc_temp (s : Family) (side : Side) :
    (s.pageAlloc side pnTemp .all).space side pnTemp = some ⟨s.next, .all⟩ := by
  rw [space_pageAlloc, space_set_self, update_self]

theorem exists_pgfaultEnd (hm : (s.pageAlloc side pnTemp .all).space side pn = some m)
    (hread : m.perm.Readable) :
    ∃ t : Family, s.pgfaultEnd true side pn = (.returned, t.set side pnTemp none) ∧
      s.pgfault side pn = some (t.set side pnTemp none) := by
  unfold pgfaultEnd pgfault pageMap
  rw [if_pos rfl]
  dsimp only
  rw [hm]
  dsimp only
  rw [if_pos hread, pageAlloc_temp]
  exact ⟨_, rfl, rfl⟩

theorem pgfaultEnd_of_readable (hm : s.space side pn = some m) (hlt : m.frame < s.next)
    (hpn : pn ≠ pnTemp) (hread : m.perm.Readable) :
    s.pgfaultEnd true side pn = (.returned, s.privatized side pn m) := by
  have hm' : (s.pageAlloc side pnTemp .all).space side pn = some m := by
    rw [space_pageAlloc, space_set_self, update_of_ne hpn, hm]
  obtain ⟨t, hend, hrun⟩ := exists_pgfaultEnd hm' hread
  rw [hend, Option.some.inj ((pgfault_run hm hlt hpn).symm.trans hrun)]

theorem pgfaultEnd_of_not_readable (hm : s.space side pn = some m) (hpn : pn ≠ pnTemp)
    (hread : ¬m.perm.Readable) : (s.pgfaultEnd true side pn).1 = .faulted := by
  unfold pgfaultEnd
  rw [if_pos rfl]
  dsimp only
  rw [space_pageAlloc, space_set_self, update_of_ne hpn, hm]
  dsimp only
  rw [if_neg hread]

theorem pgfaultEnd_true (s : Family) (side : Side) (pn : Nat) :
    (s.pgfaultEnd true side pn).1 ≠ .panicked ∧
      ((s.pgfaultEnd true side pn).1 = .returned →
        (s.pgfaultEnd true side pn).2.space side pnTemp = none) := by
  cases hm : (s.pageAlloc side pnTemp .all).space side pn with
  | none =>
      unfold pgfaultEnd
      rw [if_pos rfl]
      dsimp only
      rw [hm]
      exact ⟨nofun, nofun⟩
  | some m =>
      by_cases hread : m.perm.Readable
      · obtain ⟨t, hend, -⟩ := exists_pgfaultEnd hm hread
        rw [hend]
        refine ⟨nofun, fun _ => ?_⟩
        dsimp only
        rw [space_set_self, update_self]
      · unfold pgfaultEnd
        rw [if_pos rfl]
        dsimp only
        rw [hm]
        dsimp only
        rw [if_neg hread]
        exact ⟨nofun, nofun⟩

theorem privatizes_privatized (hbounded : s.Bounded) (hm : s.space side pn = some m)
    (hpn : pn ≠ pnTemp) (htemp : s.space side pnTemp = none) :
    Privatizes s side pn m (s.privatized side pn m) := by
  have hspace : (s.privatized side pn m).space side = update (s.space side) pn
      (some ⟨s.next, .all⟩) := by
    show ((s.set side pn _).set side pnTemp none).space side = _
    rw [space_set_self, space_set_self, update_comm hpn, ← htemp, update_eq_self]
  have hother : ∀ side', side' ≠ side → (s.privatized side pn m).space side' = s.space side' := by
    intro side' hne
    show ((s.set side pn _).set side pnTemp none).space side' = _
    rw [space_set_of_ne hne, space_set_of_ne hne]
  have hdata : ∀ frame, frame ≠ s.next → (s.privatized side pn m).data frame = s.data frame :=
    fun frame hne => update_of_ne hne ..
  refine ⟨⟨⟨s.next, .all⟩, ?_, rfl, ?_, ?_⟩, ?_, ?_⟩
  · rw [hspace, update_self]
  · exact update_self ..
  · intro side' pn' m'' hm'' hframe
    by_contra hnot
    have hold : s.space side' pn' = some m'' := by
      by_cases hside : side' = side
      · subst hside
        rw [hspace, update_of_ne fun h => hnot ⟨rfl, h⟩] at hm''
        exact hm''
      · rw [hother side' hside] at hm''
        exact hm''
    have hlt := hbounded side' pn' m'' hold
    rw [hframe] at hlt
    exact lt_irrefl _ hlt
  · intro pn' hne
    rw [hspace, update_of_ne hne]
  · intro pn' m' hne hm'
    exact hdata _ (hbounded side pn' m' hm').ne

theorem handles_iff (hbounded : s.Bounded) (memory : Bool) (side : Side) (pn : Nat) (write : Bool) :
    Handles s side pn write (s.pgfaultEnd memory side pn).1 (s.pgfaultEnd memory side pn).2 ↔
      memory = false ∨ s.CowWrite side pn write := by
  cases memory with
  | false => exact iff_of_true ⟨fun _ _ _ => nofun, fun _ => ⟨rfl, rfl⟩⟩ (.inl rfl)
  | true =>
      obtain ⟨hpanic, hleft⟩ := pgfaultEnd_true s side pn
      constructor
      · intro h
        by_cases hcow : write = true ∧ ∃ m, s.CowAt side pn m
        swap
        · exact absurd (h.refuses hcow).1 hpanic
        obtain ⟨hwrite, m, hm⟩ := hcow
        have hpn : pn ≠ pnTemp := by
          rintro rfl
          -- a page mapped at `UTEMP` is replaced and then unmapped
          have hreturned : (s.pgfaultEnd true side pnTemp).1 = .returned := by
            obtain ⟨t, hend, -⟩ := exists_pgfaultEnd (pageAlloc_temp s side)
              (show Perm.all.Readable by decide)
            rw [hend]
          obtain ⟨m', hm', -⟩ := (h.copies m hm hwrite hreturned).copy
          rw [hleft hreturned] at hm'
          cases hm'
        refine .inr ⟨hwrite, ⟨m, hm, ?_⟩, hpn⟩
        by_cases hread : m.perm.Readable
        · have hreturned := congrArg Prod.fst
            (pgfaultEnd_of_readable hm.1 (hbounded side pn m hm.1) hpn hread)
          left
          rw [← (h.copies m hm hwrite hreturned).space pnTemp hpn.symm]
          exact hleft hreturned
        · exact .inr hread
      · rintro (h | ⟨hwrite, ⟨m, hm, hcase⟩, hpn⟩)
        · cases h
        refine ⟨fun m' hm' _ hreturned => ?_, fun h => absurd ⟨hwrite, m, hm⟩ h⟩
        obtain rfl : m' = m := Option.some.inj (hm'.1.symm.trans hm.1)
        have hread : m'.perm.Readable := by
          by_contra hread
          rw [pgfaultEnd_of_not_readable hm.1 hpn hread] at hreturned
          cases hreturned
        rw [pgfaultEnd_of_readable hm.1 (hbounded side pn m' hm.1) hpn hread]
        exact privatizes_privatized hbounded hm.1 hpn (hcase.resolve_right fun h => h hread)

def inSpawn (temp : Option Mapping) : Family where
  space := fun _ pn => if pn = pnText then some ⟨0, .cow⟩ else if pn = pnTemp then temp else none
  data := fun _ _ => 0
  next := 2

theorem bounded_inSpawn {temp : Option Mapping} (htemp : ∀ m, temp = some m → m.frame < 2) :
    (inSpawn temp).Bounded := by
  intro side pn m hm
  unfold inSpawn at hm ⊢
  dsimp only at hm ⊢
  split_ifs at hm
  · cases hm
    decide
  · exact htemp m hm

theorem handles_inSpawn : (inSpawn none).Bounded ∧
    Handles (inSpawn none) .parent pnText true ((inSpawn none).pgfaultEnd true .parent pnText).1
      ((inSpawn none).pgfaultEnd true .parent pnText).2 := by
  have hbounded : (inSpawn none).Bounded := bounded_inSpawn nofun
  refine ⟨hbounded, (handles_iff hbounded true .parent pnText true).mpr (.inr ⟨rfl, ?_, by decide⟩)⟩
  exact ⟨⟨0, .cow⟩, ⟨rfl, rfl, rfl⟩, .inl rfl⟩

/-- A page that `spawn` has mapped at `UTEMP` is lost, and a fault at a page that is not copy-on-write
is not refused. -/
theorem pgfault_unmaps_temp :
    (inSpawn (some ⟨1, .readWrite⟩)).CowAt .parent pnText ⟨0, .cow⟩ ∧
    (inSpawn (some ⟨1, .readWrite⟩)).space .parent pnTemp = some ⟨1, .readWrite⟩ ∧
    ((inSpawn (some ⟨1, .readWrite⟩)).pgfaultEnd true .parent pnText).1 = .returned ∧
    ((inSpawn (some ⟨1, .readWrite⟩)).pgfaultEnd true .parent pnText).2.space .parent pnTemp = none ∧
    ((inSpawn (some ⟨1, .readWrite⟩)).pgfaultEnd true .parent pnTemp).1 = .returned :=
  ⟨⟨rfl, rfl, rfl⟩, rfl, rfl, rfl, rfl⟩

end Family

end ZynexOS
