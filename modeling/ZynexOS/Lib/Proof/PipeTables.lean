import ZynexOS.Lib.PipeRefs
import ZynexOS.Library.Counting

/-! # The tables of descriptors -/

namespace ZynexOS

open Library Function

theorem FdInRange.exists_natCast {fd : Int} (hfd : FdInRange fd) : ∃ i : Nat, i < maxFd ∧ fd = i := by
  obtain ⟨hnonneg, hlt⟩ := hfd
  exact ⟨fd.toNat, by omega, by omega⟩

theorem fdInRange_natCast {i : Nat} (hi : i < maxFd) : FdInRange i := ⟨by omega, by omega⟩

theorem fdPn_natCast {i : Nat} (hi : i < maxFd) : fdPn i = pnWindow + i := by
  simp only [fdPn, pnWindow, maxFd] at *
  omega

theorem dataPn_fdPn_natCast {i : Nat} (hi : i < maxFd) :
    dataPn (fdPn i) = pnWindow + maxFd + i := by
  rw [fdPn_natCast hi]
  simp only [dataPn, pnWindow, maxFd] at *
  omega

theorem fdPn_inj {fd fd' : Int} (hfd : FdInRange fd) (hfd' : FdInRange fd') :
    fdPn fd = fdPn fd' ↔ fd = fd' := by
  obtain ⟨i, hi, rfl⟩ := hfd.exists_natCast
  obtain ⟨j, hj, rfl⟩ := hfd'.exists_natCast
  rw [fdPn_natCast hi, fdPn_natCast hj]
  omega

theorem dataPn_inj {fd fd' : Int} (hfd : FdInRange fd) (hfd' : FdInRange fd') :
    dataPn (fdPn fd) = dataPn (fdPn fd') ↔ fd = fd' := by
  obtain ⟨i, hi, rfl⟩ := hfd.exists_natCast
  obtain ⟨j, hj, rfl⟩ := hfd'.exists_natCast
  rw [dataPn_fdPn_natCast hi, dataPn_fdPn_natCast hj]
  omega

theorem fdPn_ne_dataPn {fd fd' : Int} (hfd : FdInRange fd) (hfd' : FdInRange fd') :
    fdPn fd ≠ dataPn (fdPn fd') := by
  obtain ⟨i, hi, rfl⟩ := hfd.exists_natCast
  obtain ⟨j, hj, rfl⟩ := hfd'.exists_natCast
  rw [fdPn_natCast hi, dataPn_fdPn_natCast hj]
  omega

theorem inWindow_fdPn {fd : Int} (hfd : FdInRange fd) : InWindow (fdPn fd) := by
  obtain ⟨i, hi, rfl⟩ := hfd.exists_natCast
  rw [fdPn_natCast hi]
  simp only [InWindow, maxFd] at *
  omega

theorem inWindow_dataPn {fd : Int} (hfd : FdInRange fd) : InWindow (dataPn (fdPn fd)) := by
  obtain ⟨i, hi, rfl⟩ := hfd.exists_natCast
  rw [dataPn_fdPn_natCast hi]
  simp only [InWindow, maxFd] at *
  omega

theorem Page.not_isEnd_data : ¬Page.data.IsEnd := by simp [Page.IsEnd]

def HasEnd (t : Nat → Option Page) (fd : Int) : Prop := ∃ p, t (fdPn fd) = some p ∧ p.IsEnd

/-- Table `t` maps ends of the pipe as descriptors only, each with the data page next to it. The data page
is mapped next to an end only, except for the descriptor `lone`. -/
structure Placed (t : Nat → Option Page) (lone : Option Int) : Prop where
  ends : ∀ pn p, t pn = some p → p.IsEnd → ∃ fd, FdInRange fd ∧ pn = fdPn fd
  datas : ∀ pn, t pn = some .data → ∃ fd, FdInRange fd ∧ pn = dataPn (fdPn fd)
  paired : ∀ fd, FdInRange fd → HasEnd t fd → t (dataPn (fdPn fd)) = some .data
  single : ∀ fd, FdInRange fd → lone ≠ some fd → t (dataPn (fdPn fd)) = some .data → HasEnd t fd

section Tables

variable {t : Nat → Option Page} {lone : Option Int} {fd fd' : Int} {p : Page} {v : Option Page}

theorem not_hasEnd_of_none (hnone : t (fdPn fd) = none) : ¬HasEnd t fd := by
  rintro ⟨p, hp, -⟩
  rw [hnone] at hp
  cases hp

theorem hasEnd_update_data (hfd : FdInRange fd) (hfd' : FdInRange fd') :
    HasEnd (update t (dataPn (fdPn fd)) v) fd' ↔ HasEnd t fd' := by
  rw [HasEnd, HasEnd, update_of_ne (fdPn_ne_dataPn hfd' hfd)]

theorem hasEnd_update_of_ne (hfd : FdInRange fd) (hfd' : FdInRange fd') (hne : fd' ≠ fd) :
    HasEnd (update t (fdPn fd) v) fd' ↔ HasEnd t fd' := by
  rw [HasEnd, HasEnd, update_of_ne (by rwa [Ne, fdPn_inj hfd' hfd])]

theorem not_hasEnd_remove : ¬HasEnd (update t (fdPn fd) none) fd :=
  not_hasEnd_of_none (update_self ..)

theorem hasEnd_of_remove (hfd : FdInRange fd) (hfd' : FdInRange fd')
    (hend : HasEnd (update t (fdPn fd) none) fd') : HasEnd t fd' := by
  rcases eq_or_ne fd' fd with rfl | hne
  · exact absurd hend not_hasEnd_remove
  · exact (hasEnd_update_of_ne hfd hfd' hne).mp hend

namespace Placed

theorem not_isEnd_data (h : Placed t lone) (hfd : FdInRange fd)
    (hp : t (dataPn (fdPn fd)) = some p) : ¬p.IsEnd := by
  intro hend
  obtain ⟨fd', hfd', heq⟩ := h.ends _ p hp hend
  exact fdPn_ne_dataPn hfd' hfd heq.symm

theorem fd_ne_data (h : Placed t lone) (hfd : FdInRange fd) : t (fdPn fd) ≠ some .data := by
  intro hp
  obtain ⟨fd', hfd', heq⟩ := h.datas _ hp
  exact fdPn_ne_dataPn hfd hfd' heq

theorem mono (h : Placed t none) : Placed t lone :=
  ⟨h.ends, h.datas, h.paired, fun fd hfd _ => h.single fd hfd (by simp)⟩

theorem ends_update_none (h : Placed t lone) (pn : Nat) : ∀ pn' p,
    update t pn none pn' = some p → p.IsEnd → ∃ fd, FdInRange fd ∧ pn' = fdPn fd := by
  intro pn' p hp hend
  rcases eq_or_ne pn' pn with rfl | hne
  · simp at hp
  · rw [update_of_ne hne] at hp
    exact h.ends pn' p hp hend

theorem datas_update_none (h : Placed t lone) (pn : Nat) : ∀ pn',
    update t pn none pn' = some .data → ∃ fd, FdInRange fd ∧ pn' = dataPn (fdPn fd) := by
  intro pn' hp
  rcases eq_or_ne pn' pn with rfl | hne
  · simp at hp
  · rw [update_of_ne hne] at hp
    exact h.datas pn' hp

theorem unmapFd {lone' : Option Int} (h : Placed t lone) (hfd : FdInRange fd)
    (hends : ∀ fd', FdInRange fd' → lone' ≠ some fd' → t (dataPn (fdPn fd')) = some .data →
      HasEnd t fd' ∧ fd' ≠ fd) : Placed (update t (fdPn fd) none) lone' where
  ends := h.ends_update_none _
  datas := h.datas_update_none _
  paired := by
    intro fd' hfd' hend
    rw [update_of_ne (fdPn_ne_dataPn hfd hfd').symm]
    exact h.paired fd' hfd' (hasEnd_of_remove hfd hfd' hend)
  single := by
    intro fd' hfd' hlone hdata
    rw [update_of_ne (fdPn_ne_dataPn hfd hfd').symm] at hdata
    obtain ⟨hend, hne⟩ := hends fd' hfd' hlone hdata
    exact (hasEnd_update_of_ne hfd hfd' hne).mpr hend

theorem removeFd (h : Placed t none) (hfd : FdInRange fd) :
    Placed (update t (fdPn fd) none) (some fd) := by
  refine h.unmapFd hfd fun fd' hfd' hlone hdata => ⟨h.single fd' hfd' (by simp) hdata, ?_⟩
  rintro rfl
  exact hlone rfl

theorem removeFd_of_not_hasEnd (h : Placed t lone) (hfd : FdInRange fd) (hnot : ¬HasEnd t fd) :
    Placed (update t (fdPn fd) none) lone := by
  refine h.unmapFd hfd fun fd' hfd' hlone hdata => ⟨h.single fd' hfd' hlone hdata, ?_⟩
  rintro rfl
  exact hnot (h.single _ hfd' hlone hdata)

theorem removeData (h : Placed t (some fd)) (hfd : FdInRange fd) (hnot : ¬HasEnd t fd) :
    Placed (update t (dataPn (fdPn fd)) none) none where
  ends := h.ends_update_none _
  datas := h.datas_update_none _
  paired := by
    intro fd' hfd' hend
    rw [hasEnd_update_data hfd hfd'] at hend
    have hne : fd' ≠ fd := by
      rintro rfl
      exact hnot hend
    rw [update_of_ne (by rwa [Ne, dataPn_inj hfd' hfd])]
    exact h.paired fd' hfd' hend
  single := by
    rintro fd' hfd' - hdata
    rw [hasEnd_update_data hfd hfd']
    rcases eq_or_ne fd' fd with rfl | hne
    · simp at hdata
    · rw [update_of_ne (by rwa [Ne, dataPn_inj hfd' hfd])] at hdata
      exact h.single fd' hfd' (by simpa using hne.symm) hdata

theorem insertData (h : Placed t none) (hfd : FdInRange fd) (hnot : ¬HasEnd t fd) (hend : ¬p.IsEnd) :
    Placed (update t (dataPn (fdPn fd)) (some p)) (some fd) where
  ends := by
    intro pn q hq hqend
    rcases eq_or_ne pn (dataPn (fdPn fd)) with rfl | hne
    · rw [update_self] at hq
      cases hq
      exact absurd hqend hend
    · rw [update_of_ne hne] at hq
      exact h.ends pn q hq hqend
  datas := by
    intro pn hq
    rcases eq_or_ne pn (dataPn (fdPn fd)) with rfl | hne
    · exact ⟨fd, hfd, rfl⟩
    · rw [update_of_ne hne] at hq
      exact h.datas pn hq
  paired := by
    intro fd' hfd' hend'
    rw [hasEnd_update_data hfd hfd'] at hend'
    have hne : fd' ≠ fd := by
      rintro rfl
      exact hnot hend'
    rw [update_of_ne (by rwa [Ne, dataPn_inj hfd' hfd])]
    exact h.paired fd' hfd' hend'
  single := by
    intro fd' hfd' hlone hdata
    have hne : fd' ≠ fd := fun heq => hlone (by rw [heq])
    rw [hasEnd_update_data hfd hfd']
    rw [update_of_ne (by rwa [Ne, dataPn_inj hfd' hfd])] at hdata
    exact h.single fd' hfd' (by simp) hdata

theorem insertFd (h : Placed t (some fd)) (hfd : FdInRange fd) (hdata : p ≠ .data)
    (hpair : t (dataPn (fdPn fd)) = some .data ↔ p.IsEnd) :
    Placed (update t (fdPn fd) (some p)) none where
  ends := by
    intro pn q hq hqend
    rcases eq_or_ne pn (fdPn fd) with rfl | hne
    · exact ⟨fd, hfd, rfl⟩
    · rw [update_of_ne hne] at hq
      exact h.ends pn q hq hqend
  datas := by
    intro pn hq
    rcases eq_or_ne pn (fdPn fd) with rfl | hne
    · rw [update_self] at hq
      cases hq
      exact absurd rfl hdata
    · rw [update_of_ne hne] at hq
      exact h.datas pn hq
  paired := by
    intro fd' hfd' hend'
    rw [update_of_ne (fdPn_ne_dataPn hfd hfd').symm]
    rcases eq_or_ne fd' fd with rfl | hne
    · obtain ⟨q, hq, hqend⟩ := hend'
      rw [update_self] at hq
      cases hq
      exact hpair.mpr hqend
    · exact h.paired fd' hfd' ((hasEnd_update_of_ne hfd hfd' hne).mp hend')
  single := by
    rintro fd' hfd' - hdata'
    rw [update_of_ne (fdPn_ne_dataPn hfd hfd').symm] at hdata'
    rcases eq_or_ne fd' fd with rfl | hne
    · exact ⟨p, update_self .., hpair.mp hdata'⟩
    · exact (hasEnd_update_of_ne hfd hfd' hne).mpr
        (h.single fd' hfd' (by simpa using hne.symm) hdata')

end Placed

end Tables

def tableCount (t : Nat → Option Page) (p : Page) : Nat :=
  count (Finset.Ico pnWindow (pnWindow + 64)) t p

theorem tableCount_eq (t : Nat → Option Page) (p : Page) :
    tableCount t p = (∑ i ∈ Finset.range maxFd, if t (fdPn i) = some p then 1 else 0) +
      ∑ i ∈ Finset.range maxFd, if t (dataPn (fdPn i)) = some p then 1 else 0 := by
  rw [tableCount, count, Finset.sum_Ico_eq_sum_range, Nat.add_sub_cancel_left,
    show 64 = maxFd + maxFd from rfl, Finset.sum_range_add]
  refine congrArg₂ (· + ·) ?_ ?_
  · refine Finset.sum_congr rfl fun i hi => ?_
    rw [fdPn_natCast (Finset.mem_range.mp hi)]
  · refine Finset.sum_congr rfl fun i hi => ?_
    rw [dataPn_fdPn_natCast (Finset.mem_range.mp hi), Nat.add_assoc]

namespace Placed

variable {t : Nat → Option Page} {lone : Option Int} {p : Page}

theorem tableCount_end (h : Placed t lone) (hend : p.IsEnd) :
    tableCount t p = ∑ i ∈ Finset.range maxFd, if t (fdPn i) = some p then 1 else 0 := by
  rw [tableCount_eq, Nat.add_eq_left]
  refine Finset.sum_eq_zero fun i hi => if_neg fun hp => ?_
  exact h.not_isEnd_data (fdInRange_natCast (Finset.mem_range.mp hi)) hp hend

theorem tableCount_data (h : Placed t lone) : tableCount t .data =
    ∑ i ∈ Finset.range maxFd, if t (dataPn (fdPn i)) = some .data then 1 else 0 := by
  rw [tableCount_eq, Nat.add_eq_right]
  refine Finset.sum_eq_zero fun i hi => if_neg ?_
  exact h.fd_ne_data (fdInRange_natCast (Finset.mem_range.mp hi))

theorem tableCount_le (h : Placed t lone) (hp : p.OfPipe) : tableCount t p ≤ maxFd := by
  have hle (f : Nat → Prop) [DecidablePred f] :
      (∑ i ∈ Finset.range maxFd, if f i then 1 else 0) ≤ maxFd := by
    rw [← Finset.card_filter]
    exact (Finset.card_filter_le _ _).trans_eq (Finset.card_range _)
  rcases hp with hend | rfl
  · rw [h.tableCount_end hend]
    exact hle _
  · rw [h.tableCount_data]
    exact hle _

theorem tableCount_ends_le (h : Placed t lone) :
    tableCount t .readFd + tableCount t .writeFd ≤ tableCount t .data := by
  rw [h.tableCount_end (.inl rfl), h.tableCount_end (.inr rfl), h.tableCount_data,
    ← Finset.sum_add_distrib]
  refine Finset.sum_le_sum fun i hi => ?_
  have hpaired := h.paired i (fdInRange_natCast (Finset.mem_range.mp hi))
  by_cases hread : t (fdPn i) = some .readFd
  · rw [if_pos hread, if_neg (by simp [hread]), if_pos (hpaired ⟨_, hread, .inl rfl⟩)]
  · by_cases hwrite : t (fdPn i) = some .writeFd
    · rw [if_neg hread, if_pos hwrite, if_pos (hpaired ⟨_, hwrite, .inr rfl⟩)]
    · rw [if_neg hread, if_neg hwrite]
      exact Nat.zero_le _

theorem tableCount_ends_eq (h : Placed t none) :
    tableCount t .data = tableCount t .readFd + tableCount t .writeFd := by
  refine (h.tableCount_ends_le.antisymm ?_).symm
  rw [h.tableCount_end (.inl rfl), h.tableCount_end (.inr rfl), h.tableCount_data,
    ← Finset.sum_add_distrib]
  refine Finset.sum_le_sum fun i hi => ?_
  by_cases hdata : t (dataPn (fdPn i)) = some .data
  · rw [if_pos hdata]
    obtain ⟨p, hp, rfl | rfl⟩ :=
      h.single i (fdInRange_natCast (Finset.mem_range.mp hi)) (by simp) hdata
    · rw [if_pos hp]
      exact Nat.le_add_right _ _
    · rw [if_pos hp]
      exact Nat.le_add_left _ _
  · rw [if_neg hdata]
    exact Nat.zero_le _

end Placed

namespace FdSys

def total (s : FdSys) (p : Page) : Nat := ∑ e, tableCount (s.table e) p

def Counted (s : FdSys) : Prop := ∀ p, p.OfPipe → s.refs p = s.total p % 2 ^ 16

variable {s s' : FdSys} {e : EnvSlot} {pn : Nat} {p : Page} {t : Nat → Option Page}

theorem total_update (htable : s'.table = update s.table e t) (p : Page) :
    s'.total p + tableCount (s.table e) p = s.total p + tableCount t p := by
  have hrest : ∑ e' ∈ Finset.univ.erase e, tableCount (s'.table e') p =
      ∑ e' ∈ Finset.univ.erase e, tableCount (s.table e') p := by
    refine Finset.sum_congr rfl fun e' he' => ?_
    rw [htable, update_of_ne (Finset.ne_of_mem_erase he')]
  rw [total, total, ← Finset.add_sum_erase _ _ (Finset.mem_univ e), hrest,
    ← Finset.add_sum_erase _ (fun e' => tableCount (s.table e') p) (Finset.mem_univ e), htable,
    update_self]
  omega

theorem mem_window (hpn : InWindow pn) : pn ∈ Finset.Ico pnWindow (pnWindow + 64) :=
  Finset.mem_Ico.mpr hpn

theorem table_pageRemove (s : FdSys) (e : EnvSlot) (pn : Nat) : (s.pageRemove e pn).table =
    update s.table e (update (s.table e) pn none) := by
  unfold pageRemove
  split
  · rename_i hnone
    rw [← hnone, update_eq_self, update_eq_self]
  · rfl

@[simp] theorem pc_pageRemove : (s.pageRemove e pn).pc = s.pc := by
  unfold pageRemove
  split <;> rfl

@[simp] theorem runs_pageRemove : (s.pageRemove e pn).runs = s.runs := by
  unfold pageRemove
  split <;> rfl

@[simp] theorem cur_pageRemove : (s.pageRemove e pn).cur = s.cur := by
  unfold pageRemove
  split <;> rfl

theorem refs_pageRemove_of_ne (hne : s.table e pn ≠ some p) :
    (s.pageRemove e pn).refs p = s.refs p := by
  unfold pageRemove
  split
  · rfl
  · rename_i q hq
    exact update_of_ne (by rintro rfl; exact hne hq) ..

theorem refs_pageRemove_self (hp : s.table e pn = some p) :
    (s.pageRemove e pn).refs p = (s.refs p + (2 ^ 16 - 1)) % 2 ^ 16 := by
  simp only [pageRemove, hp, update_self]

theorem Counted.pageRemove (h : s.Counted)
    (hwindow : ∀ p, s.table e pn = some p → p.OfPipe → InWindow pn) :
    (s.pageRemove e pn).Counted := by
  intro p hp
  have htotal := total_update (s.table_pageRemove e pn) p
  by_cases hentry : s.table e pn = some p
  · have hcount := count_update_of_mem (f := s.table e) (p := p)
      (mem_window (hwindow p hentry hp)) none
    rw [if_pos hentry, if_neg (by simp)] at hcount
    rw [refs_pageRemove_self hentry, h p hp]
    simp only [tableCount] at htotal
    omega
  · have hcount : tableCount (update (s.table e) pn none) p = tableCount (s.table e) p := by
      refine count_congr fun pn' _ => ?_
      rcases eq_or_ne pn' pn with rfl | hne
      · simp [hentry]
      · rw [update_of_ne hne]
    rw [refs_pageRemove_of_ne hentry, h p hp]
    omega

theorem table_pageInsert (s : FdSys) (e : EnvSlot) (pn : Nat) (p : Page) :
    (s.pageInsert e pn p).table =
      update s.table e (update (s.table e) pn (some p)) := by
  unfold pageInsert
  split
  · rename_i hsame
    rw [← hsame, update_eq_self, update_eq_self]
  · simp only [setEntry, table_pageRemove, update_self, update_idem]

@[simp] theorem pc_pageInsert : (s.pageInsert e pn p).pc = s.pc := by
  unfold pageInsert
  split
  · rfl
  · exact pc_pageRemove

@[simp] theorem runs_pageInsert : (s.pageInsert e pn p).runs = s.runs := by
  unfold pageInsert
  split
  · rfl
  · exact runs_pageRemove

@[simp] theorem cur_pageInsert : (s.pageInsert e pn p).cur = s.cur := by
  unfold pageInsert
  split
  · rfl
  · exact cur_pageRemove

theorem Counted.add {q : Page} (h : s.Counted) (hwindow : InWindow pn) (hempty : s.table e pn = none)
    (htable : s'.table = update s.table e (update (s.table e) pn (some q)))
    (hrefs : s'.refs = update s.refs q ((s.refs q + 1) % 2 ^ 16)) : s'.Counted := by
  intro p hp
  have htotal := total_update htable p
  have hcount := count_update_of_mem (f := s.table e) (p := p) (mem_window hwindow) (some q)
  have hold := h p hp
  rw [if_neg (by simp [hempty])] at hcount
  simp only [tableCount] at htotal
  rcases eq_or_ne q p with rfl | hne
  · rw [if_pos rfl] at hcount
    rw [hrefs, update_self]
    omega
  · rw [if_neg (by simpa using hne)] at hcount
    rw [hrefs, update_of_ne hne.symm]
    omega

theorem Counted.pageInsert (h : s.Counted) (hwindow : InWindow pn) (q : Page) :
    (s.pageInsert e pn q).Counted := by
  unfold FdSys.pageInsert
  split
  · exact h
  · have hempty : (s.pageRemove e pn).table e pn = none := by
      rw [table_pageRemove, update_self, update_self]
    exact (h.pageRemove fun _ _ _ => hwindow).add hwindow hempty rfl rfl

section Placed

variable (hplaced : ∀ e, ∃ lone, Placed (s.table e) lone)
include hplaced

theorem total_lt (hp : p.OfPipe) : s.total p < 2 ^ 16 := by
  have hle : s.total p ≤ ∑ _e : EnvSlot, maxFd := by
    refine Finset.sum_le_sum fun e _ => ?_
    obtain ⟨lone, h⟩ := hplaced e
    exact h.tableCount_le hp
  have hmax : ∑ _e : EnvSlot, maxFd = 2 ^ 15 := by simp [maxFd, nenv]
  omega

theorem Counted.refs_eq (h : s.Counted) (hp : p.OfPipe) : s.refs p = s.total p := by
  rw [h p hp, Nat.mod_eq_of_lt (total_lt hplaced hp)]

theorem total_ends_le : s.total .readFd + s.total .writeFd ≤ s.total .data := by
  simp only [total, ← Finset.sum_add_distrib]
  refine Finset.sum_le_sum fun e _ => ?_
  obtain ⟨lone, h⟩ := hplaced e
  exact h.tableCount_ends_le

theorem gone_of_total_eq_zero (hend : p.IsEnd) (hzero : s.total p = 0) : s.Gone p := by
  intro e pn hpn
  obtain ⟨lone, h⟩ := hplaced e
  obtain ⟨fd, hfd, rfl⟩ := h.ends pn p hpn hend
  have htable : tableCount (s.table e) p = 0 := Finset.sum_eq_zero_iff.mp hzero e (Finset.mem_univ e)
  exact count_eq_zero_iff.mp htable _ (mem_window (inWindow_fdPn hfd)) hpn

end Placed

theorem total_ends_eq (hplaced : ∀ e, Placed (s.table e) none) :
    s.total .data = s.total .readFd + s.total .writeFd := by
  simp only [total, ← Finset.sum_add_distrib]
  exact Finset.sum_congr rfl fun e _ => (hplaced e).tableCount_ends_eq

end FdSys

end ZynexOS
