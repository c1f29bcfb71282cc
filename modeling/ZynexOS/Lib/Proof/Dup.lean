import ZynexOS.Lib.Dup
import ZynexOS.Lib.Proof.PipeTables

/-!
# When a descriptor is duplicated

`dup(i, j)` closes `j` first, so that it cannot work for `i = j`.
-/

namespace ZynexOS

variable {i j k : Int}

theorem fdPn_ne (hi : FdInRange i) (hj : FdInRange j) (hne : i ≠ j) : fdPn i ≠ fdPn j :=
  (fdPn_inj hi hj).not.mpr hne

theorem fdData_ne (hi : FdInRange i) (hj : FdInRange j) (hne : i ≠ j) : fdData i ≠ fdData j :=
  (dataPn_inj hi hj).not.mpr hne

theorem fdPn_ne_fdData (hi : FdInRange i) (hj : FdInRange j) : fdPn i ≠ fdData j :=
  fdPn_ne_dataPn hi hj

namespace FdSpace

variable {s s' : FdSpace} {pn : Nat}

theorem set_space_self (s : FdSpace) (pn : Nat) (entry : Option Mapping) :
    (s.set pn entry).space pn = entry := by
  unfold set
  exact Function.update_self pn entry s.space

theorem set_space_of_ne {pn' : Nat} (hne : pn' ≠ pn) (entry : Option Mapping) :
    (s.set pn entry).space pn' = s.space pn' := by
  unfold set
  exact Function.update_of_ne hne entry s.space

theorem close_space_of_ne (hfd : pn ≠ fdPn j) (hdata : pn ≠ fdData j) :
    (s.close j).space pn = s.space pn := by
  unfold close devClose pageUnmap
  split_ifs with hj
  · cases s.space (fdPn j) with
    | none => rfl
    | some m =>
        dsimp only
        rw [set_space_of_ne hfd]
        split_ifs
        · rw [set_space_of_ne hdata, set_space_of_ne hfd]
        · rfl
        · rfl
  · rfl

theorem close_fd (hj : FdInRange j) : (s.close j).space (fdPn j) = none := by
  unfold close
  rw [if_pos hj]
  cases hfd : s.space (fdPn j) with
  | none => exact hfd
  | some m => exact set_space_self _ _ _

theorem close_data_of_pipe (hj : FdInRange j) (hpipe : s.PipeAt j) :
    (s.close j).space (fdData j) = none := by
  obtain ⟨m, hm, hpipe⟩ := hpipe
  have hknown : s.devId m.frame ∈ devtab := by
    rw [hpipe]
    decide
  unfold close devClose pageUnmap
  rw [if_pos hj, hm]
  dsimp only
  rw [set_space_of_ne (fdPn_ne_fdData hj hj).symm, if_pos hknown, if_pos hpipe]
  exact set_space_self _ _ _

theorem close_data_of_not_pipe (hj : FdInRange j) (hpipe : ¬s.PipeAt j) :
    (s.close j).space (fdData j) = s.space (fdData j) := by
  unfold close devClose pageUnmap
  rw [if_pos hj]
  cases hm : s.space (fdPn j) with
  | none => rfl
  | some m =>
      have hnot : ¬s.devId m.frame = devPipeId := fun h => hpipe ⟨m, hm, h⟩
      dsimp only
      rw [set_space_of_ne (fdPn_ne_fdData hj hj).symm, if_neg hnot]
      split_ifs <;> rfl

theorem close_closed (hj : FdInRange j) : HasClosed s j (s.close j) := by
  intro m hm hknown
  unfold close
  rw [if_pos hj, hm]
  dsimp only
  rw [if_pos hknown]
  unfold devClose
  dsimp only
  split_ifs <;> rfl

theorem pageMap_some {src dst : Nat} {m : Mapping} (hsrc : s.space src = some m) (memory : Bool) :
    s.pageMap memory src dst m.perm =
      if memory then (0, s.set dst (some m)) else (-eNoMem, s) := by
  unfold pageMap
  rw [hsrc]
  dsimp only
  rw [if_neg fun h => h.2 h.1]

theorem pageMap_none {src dst : Nat} (hsrc : s.space src = none) (memory : Bool) (perm : Perm) :
    s.pageMap memory src dst perm = (-eInval, s) := by
  unfold pageMap
  rw [hsrc]

theorem dupFd_some {m : Mapping} (hfd : s.space (fdPn i) = some m) (memory : Bool) (j : Int) :
    s.dupFd memory i j =
      if memory then (j, s.set (fdPn j) (some m)) else s.dupErr j (-eNoMem) := by
  unfold dupFd
  rw [hfd]
  unfold uvptPerm
  rw [Option.elim_some, pageMap_some hfd]
  cases memory <;> rfl

theorem dupErr_opens (hi : FdInRange i) (hj : FdInRange j) (hne : i ≠ j) (hopen : s.Opens i) (r : Int) :
    (s.dupErr j r).2.Opens i := by
  unfold Opens dupErr pageUnmap
  dsimp only
  rw [set_space_of_ne (fdPn_ne_fdData hi hj), set_space_of_ne (fdPn_ne hi hj hne)]
  exact hopen

theorem dupFd_none (hfd : s.space (fdPn i) = none) (memory : Bool) (j : Int) :
    s.dupFd memory i j = s.dupErr j (-eInval) := by
  unfold dupFd
  rw [pageMap_none hfd]
  rfl

theorem dupErr_closed (hj : FdInRange j) {r : Int} (hr : r < 0) :
    (s.dupErr j r).1 < 0 ∧ ¬(s.dupErr j r).2.Opens j := by
  refine ⟨hr, ?_⟩
  unfold Opens dupErr pageUnmap
  dsimp only
  rw [set_space_of_ne (fdPn_ne_fdData hj hj), set_space_self]
  exact fun h => h rfl

theorem dup_self (hi : FdInRange i) (hopen : s.Opens i) (memory : Bool × Bool) :
    (s.dup memory i i).1 < 0 ∧ ¬(s.dup memory i i).2.Opens i := by
  obtain ⟨m, hm⟩ := Option.ne_none_iff_exists'.mp hopen
  have hclosed : (s.close i).space (fdPn i) = none := close_fd hi
  unfold dup
  rw [if_pos hi, hm]
  dsimp only
  cases hdata : (s.close i).space (fdData i) with
  | none =>
      dsimp only
      rw [dupFd_none hclosed]
      exact dupErr_closed hi (by decide)
  | some d =>
      dsimp only
      rw [pageMap_some hdata]
      cases memory.1 with
      | false => exact dupErr_closed hi (show -eNoMem < 0 by decide)
      | true =>
          have hclosed' : ((s.close i).set (fdData i) (some d)).space (fdPn i) = none := by
            rw [set_space_of_ne (fdPn_ne_fdData hi hi), hclosed]
          rw [if_pos rfl]
          dsimp only
          rw [if_neg (lt_irrefl 0), dupFd_none hclosed']
          exact dupErr_closed hi (by decide)

structure DataMapped (s : FdSpace) (i j : Int) (s' : FdSpace) : Prop where
  fd : s'.space (fdPn i) = s.space (fdPn i)
  data : s'.space (fdData i) = s.space (fdData i)
  other : ∀ pn, pn ≠ fdPn j → pn ≠ fdData j → s'.space pn = s.space pn
  newData : s'.space (fdData j) = s.space (fdData i) ↔ s.NoLeftover i j
  closed : s'.closed = (s.close j).closed

inductive DupOutcome (s : FdSpace) (memory : Bool × Bool) (i j : Int) : Int × FdSpace → Prop where
  | done {m : Mapping} {s₁ : FdSpace} (hm : s.space (fdPn i) = some m) (hmapped : DataMapped s i j s₁) :
      DupOutcome s memory i j (j, s₁.set (fdPn j) (some m))
  | noMem {s₁ : FdSpace} (hmemory : memory ≠ (true, true)) (hopen : s₁.Opens i) :
      DupOutcome s memory i j (s₁.dupErr j (-eNoMem))

theorem DupOutcome.dupFd {s₁ : FdSpace} (hopen : s.Opens i) (hmapped : DataMapped s i j s₁)
    (memory : Bool × Bool) : DupOutcome s memory i j (s₁.dupFd memory.2 i j) := by
  obtain ⟨m, hm⟩ := Option.ne_none_iff_exists'.mp hopen
  have hfd : s₁.space (fdPn i) = some m := hmapped.fd.trans hm
  rw [dupFd_some hfd]
  split_ifs with hmemory
  · exact .done hm hmapped
  · refine .noMem (fun h => hmemory (h ▸ rfl)) ?_
    unfold Opens
    rw [hfd]
    exact Option.some_ne_none m

section Distinct

variable (hi : FdInRange i) (hj : FdInRange j) (hne : i ≠ j)

include hi hj hne

theorem dataMapped_close (hdata : s.space (fdData i) = none) : DataMapped s i j (s.close j) where
  fd := close_space_of_ne (fdPn_ne hi hj hne) (fdPn_ne_fdData hi hj)
  data := close_space_of_ne (fdPn_ne_fdData hj hi).symm (fdData_ne hi hj hne)
  other _ := close_space_of_ne
  newData := by
    rw [hdata]
    by_cases hpipe : s.PipeAt j
    · exact iff_of_true (close_data_of_pipe hj hpipe) (.inr (.inr hpipe))
    · rw [close_data_of_not_pipe hj hpipe]
      constructor
      · exact fun h => .inr (.inl h)
      · rintro (h | h | h)
        · exact absurd hdata h
        · exact h
        · exact absurd h hpipe
  closed := rfl

theorem dataMapped_set {d : Mapping} (hdata : s.space (fdData i) = some d) :
    DataMapped s i j ((s.close j).set (fdData j) (some d)) where
  fd := by
    rw [set_space_of_ne (fdPn_ne_fdData hi hj)]
    exact close_space_of_ne (fdPn_ne hi hj hne) (fdPn_ne_fdData hi hj)
  data := by
    rw [set_space_of_ne (fdData_ne hi hj hne)]
    exact close_space_of_ne (fdPn_ne_fdData hj hi).symm (fdData_ne hi hj hne)
  other pn hfd hpn := by
    rw [set_space_of_ne hpn]
    exact close_space_of_ne hfd hpn
  newData := by
    rw [set_space_self, hdata]
    exact iff_of_true rfl (.inl (by rw [hdata]; exact Option.some_ne_none d))
  closed := rfl

theorem dup_outcome (hopen : s.Opens i) (memory : Bool × Bool) :
    DupOutcome s memory i j (s.dup memory i j) := by
  obtain ⟨m, hm⟩ := Option.ne_none_iff_exists'.mp hopen
  have hdata₁ : (s.close j).space (fdData i) = s.space (fdData i) :=
    close_space_of_ne (fdPn_ne_fdData hj hi).symm (fdData_ne hi hj hne)
  unfold dup
  rw [if_pos hi, hm]
  dsimp only
  cases hdata : s.space (fdData i) with
  | none =>
      rw [hdata₁, hdata]
      exact .dupFd hopen (dataMapped_close hi hj hne hdata) memory
  | some d =>
      rw [hdata₁, hdata]
      dsimp only
      rw [pageMap_some (hdata₁.trans hdata)]
      cases hmemory : memory.1 with
      | true => exact .dupFd hopen (dataMapped_set hi hj hne hdata) memory
      | false =>
          have hopen₁ : (s.close j).Opens i := by
            unfold Opens
            rw [close_space_of_ne (fdPn_ne hi hj hne) (fdPn_ne_fdData hi hj)]
            exact hopen
          refine .noMem (fun h => ?_) hopen₁
          rw [h] at hmemory
          cases hmemory

end Distinct

theorem DataMapped.sameFile_iff {m : Mapping} (hj : FdInRange j)
    (hm : s.space (fdPn i) = some m) (hmapped : DataMapped s i j s') :
    SameFile s i (s'.set (fdPn j) (some m)) j ↔ s.NoLeftover i j := by
  rw [← hmapped.newData]
  have hne := (fdPn_ne_fdData hj hj).symm
  constructor
  · intro h
    rw [← set_space_of_ne hne (some m)]
    exact h.data
  · intro h
    refine ⟨?_, ?_⟩
    · rw [set_space_self, hm]
    · rw [set_space_of_ne hne]
      exact h

/-- When `dup(i, j)` makes `j` a second name for the open file `i`. -/
theorem dup_duplicates_iff (hi : FdInRange i) (hj : FdInRange j) (hopen : s.Opens i)
    (memory : Bool × Bool) :
    Duplicates s memory i j (s.dup memory i j).1 (s.dup memory i j).2 ↔
      i ≠ j ∧ (memory = (true, true) → s.NoLeftover i j) := by
  rcases eq_or_ne i j with rfl | hne
  · obtain ⟨hneg, hnot⟩ := dup_self hi hopen memory
    exact iff_of_false (fun h => hnot (h.fails hneg)) fun h => h.1 rfl
  · generalize hdup : s.dup memory i j = result
    have houtcome := dup_outcome hi hj hne hopen memory
    rw [hdup] at houtcome
    cases houtcome with
    | done hm hmapped =>
        constructor
        · intro h
          exact ⟨hne, fun hmemory => (hmapped.sameFile_iff hj hm).mp (h.succeeds hmemory).2.2.1⟩
        · rintro ⟨-, hleft⟩
          refine ⟨fun hmemory => ⟨rfl, ⟨?_, ?_⟩, (hmapped.sameFile_iff hj hm).mpr (hleft hmemory),
            fun _ m' hm' hknown => ?_, fun k hk hki hkj => ⟨?_, ?_⟩⟩, fun hneg => ?_⟩
          · rw [set_space_of_ne (fdPn_ne hi hj hne), hmapped.fd]
          · rw [set_space_of_ne (fdPn_ne_fdData hj hi).symm, hmapped.data]
          · exact hmapped.closed.trans (close_closed hj m' hm' hknown)
          · rw [set_space_of_ne (fdPn_ne hk hj hkj)]
            exact hmapped.other _ (fdPn_ne hk hj hkj) (fdPn_ne_fdData hk hj)
          · rw [set_space_of_ne (fdPn_ne_fdData hj hk).symm]
            exact hmapped.other _ (fdPn_ne_fdData hj hk).symm (fdData_ne hk hj hkj)
          · exact absurd hj.1 (not_le.mpr hneg)
    | noMem hmemory hopen₁ =>
        refine iff_of_true ⟨fun h => absurd h hmemory, fun _ => ?_⟩ ⟨hne, fun h => absurd h hmemory⟩
        exact dupErr_opens hi hj hne hopen₁ _

def demo : FdSpace where
  space := fun pn =>
    if pn = fdPn 0 then some ⟨1, .readWrite⟩
    else if pn = fdPn 1 then some ⟨2, .readWrite⟩
    else if pn = fdData 1 then some ⟨3, .readWrite⟩
    else none
  devId := fun frame => if frame = 1 then 0x63 else devPipeId
  closed := []

theorem dup_duplicates_demo : demo.Opens 1 ∧
    Duplicates demo (true, true) 1 0 (demo.dup (true, true) 1 0).1 (demo.dup (true, true) 1 0).2 := by
  have hopen : demo.Opens 1 := by
    unfold Opens
    decide
  refine ⟨hopen, (dup_duplicates_iff (by decide) (by decide) hopen (true, true)).mpr
    ⟨by decide, fun _ => .inl ?_⟩⟩
  decide

/-- `dup(0, 0)` closes the console and fails. -/
theorem dup_self_demo : demo.Opens 0 ∧ (demo.dup (true, true) 0 0).1 = -eInval ∧
    ¬(demo.dup (true, true) 0 0).2.Opens 0 := by
  unfold Opens
  decide

end FdSpace

end ZynexOS
