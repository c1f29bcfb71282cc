import ZynexOS.Net.Timer

/-! # The network timer does not stop while its clock fits an `int` -/

namespace ZynexOS.Timer

open Library

theorem timeMsec_toNat (ticks : BitVec 32) :
    (timeMsec ticks).toNat = 10 * ticks.toNat % 2 ^ 32 := by
  rw [timeMsec, BitVec.toNat_mul, mul_comm]
  rfl

theorem succ_toNat {ticks : BitVec 32} (hticks : 10 * ticks.toNat < 2 ^ 32) :
    (ticks + 1).toNat = ticks.toNat + 1 := by
  rw [BitVec.toNat_add, show (1 : BitVec 32).toNat = 1 from rfl]
  omega

theorem timeTick_eq {ticks : BitVec 32} (hticks : 10 * ticks.toNat < 2 ^ 32) :
    timeTick ticks = if 10 * (ticks.toNat + 1) < 2 ^ 32 then some (ticks + 1) else none := by
  have hpanic : (ticks + 1) * 10 < ticks + 1 ↔ ¬ 10 * (ticks.toNat + 1) < 2 ^ 32 := by
    have hmsec := timeMsec_toNat (ticks + 1)
    rw [timeMsec, succ_toNat hticks] at hmsec
    rw [BitVec.lt_def, hmsec, succ_toNat hticks]
    by_cases hfits : 10 * (ticks.toNat + 1) < 2 ^ 32
    · rw [Nat.mod_eq_of_lt hfits]
      omega
    · rw [Nat.mod_eq_sub_mod (by omega), Nat.mod_eq_of_lt (by omega)]
      omega
  simp only [timeTick, hpanic, ite_not]

namespace System

variable {s s' : System} {uptime : Nat}

theorem now_toNat (hticks : 10 * s.ticks.toNat < 2 ^ 32) :
    s.now.toNat = 10 * s.ticks.toNat := by
  rw [now, timeMsec_toNat, Nat.mod_eq_of_lt hticks]

theorem deadline_le {now elapsed : BitVec 32} (helapsed : elapsed.toNat ≤ now.toNat)
    (hnow : now.toNat < 2 ^ 31) :
    (now + (timerInterval - elapsed)).toNat ≤ now.toNat + timerInterval.toNat := by
  have hinterval : timerInterval.toNat = 250 := rfl
  rw [BitVec.toNat_add, BitVec.toNat_sub]
  omega

def Timed (s : System) : Prop :=
  match s.phase with
  | .waiting stop since =>
      since.toNat ≤ s.now.toNat ∧ stop.toNat ≤ since.toNat + timerInterval.toNat
  | .yielding start => start.toNat ≤ s.now.toNat
  | .replied value =>
      ∃ elapsed : BitVec 32, elapsed.toNat ≤ s.now.toNat ∧ value = timerInterval - elapsed
  | .panicked => False
  | _ => True

def Inv (s : System) : Prop :=
  10 * s.ticks.toNat < 2 ^ 31 ∧ s.Timed

theorem Inv.now_lt (h : s.Inv) : s.now.toNat < 2 ^ 31 := by
  have hticks := h.1
  rw [now_toNat (by omega)]
  omega

theorem Inv.now_nonneg (h : s.Inv) : 0 ≤ s.now.toInt := by
  have hlt := h.now_lt
  rw [BitVec.toInt_eq_toNat_cond]
  omega

theorem Timed.later {ticks : BitVec 32} (h : s.Timed)
    (hnow : s.now.toNat ≤ (timeMsec ticks).toNat) : Timed { s with ticks } := by
  obtain ⟨before, phase⟩ := s
  cases phase with
  | waiting stop since => exact ⟨h.1.trans hnow, h.2⟩
  | yielding start => exact Nat.le_trans h hnow
  | replied value =>
      obtain ⟨elapsed, helapsed, hvalue⟩ := h
      exact ⟨elapsed, helapsed.trans hnow, hvalue⟩
  | starting => trivial
  | requested => trivial
  | panicked => exact h

theorem Inv.tick (h : s.Inv) (hbound : 10 * s'.ticks.toNat < 2 ^ 31)
    (hexec : s.exec .tick = some s') : s'.Inv := by
  have hticks := h.1
  obtain ⟨ticks, htick, rfl⟩ := Option.map_eq_some_iff.mp hexec
  rw [timeTick_eq (by omega)] at htick
  split at htick
  · obtain rfl := Option.some.inj htick
    refine ⟨hbound, h.2.later ?_⟩
    have hlt : 10 * (s.ticks + 1).toNat < 2 ^ 32 := by
      dsimp only at hbound
      omega
    rw [now_toNat (by omega), timeMsec_toNat, Nat.mod_eq_of_lt hlt, succ_toNat (by omega)]
    omega
  · cases htick

theorem Inv.timer (h : s.Inv) (hexec : s.timer = some s') : s'.Inv := by
  obtain ⟨ticks, phase⟩ := s
  have htimed := h.2
  unfold System.timer at hexec
  cases phase with
  | starting =>
      cases hexec
      exact ⟨h.1, le_rfl, @deadline_le _ 0 (Nat.zero_le _) h.now_lt⟩
  | waiting stop since =>
      simp only [h.now_nonneg, and_true, not_lt.mpr h.now_nonneg, if_false] at hexec
      split at hexec
      · cases hexec
        exact h
      · cases hexec
        exact ⟨h.1, trivial⟩
  | replied value =>
      cases hexec
      obtain ⟨elapsed, helapsed, rfl⟩ := htimed
      exact ⟨h.1, le_rfl, deadline_le helapsed h.now_lt⟩
  | requested => cases hexec
  | yielding start => cases hexec
  | panicked => cases hexec

theorem Inv.serve (h : s.Inv) (hexec : s.serve = some s') : s'.Inv := by
  obtain ⟨ticks, phase⟩ := s
  have htimed := h.2
  unfold System.serve at hexec
  cases phase with
  | requested =>
      cases hexec
      exact ⟨h.1, le_rfl⟩
  | yielding start =>
      cases hexec
      refine ⟨h.1, System.now ⟨ticks, .yielding start⟩ - start, ?_, rfl⟩
      have hstart : start.toNat ≤ (System.now ⟨ticks, .yielding start⟩).toNat := htimed
      rw [BitVec.toNat_sub_of_le hstart]
      exact Nat.sub_le _ _
  | starting => cases hexec
  | waiting stop since => cases hexec
  | replied value => cases hexec
  | panicked => cases hexec

theorem Reached.inv (huptime : 10 * uptime < 2 ^ 31) (hreach : Reached uptime s) : s.Inv := by
  refine Reachable.invariant ?_ ?_ hreach
  · rintro s rfl
    exact ⟨by decide, trivial⟩
  · rintro s event s' h - ⟨hexec, hbound⟩
    cases event with
    | tick => exact h.tick (by omega) hexec
    | timerRuns => exact h.timer hexec
    | serverRuns => exact h.serve hexec

theorem Inv.punctual (h : s.Inv) : s.Punctual := by
  have htimed := h.2
  constructor
  · intro hphase
    rw [Timed, hphase] at htimed
    exact htimed
  · intro stop since hphase hpassed
    rw [Timed, hphase] at htimed
    have hstop : ¬ s.now < stop := by
      rw [BitVec.lt_def]
      exact not_lt.mpr (htimed.2.trans hpassed)
    simp only [exec, System.timer, hphase, hstop, false_and, if_false, not_lt.mpr h.now_nonneg]

theorem reached_starting {n : Nat} (hn : n ≤ uptime) (hkernel : 10 * n < 2 ^ 32) :
    Reached uptime ⟨BitVec.ofNat 32 n, .starting⟩ := by
  induction n with
  | zero => exact Reachable.start rfl
  | succ n ih =>
      have hticks : (BitVec.ofNat 32 n).toNat = n := by
        rw [BitVec.toNat_ofNat]
        omega
      have hsucc : BitVec.ofNat 32 n + 1 = BitVec.ofNat 32 (n + 1) := (BitVec.ofNat_add n 1).symm
      have htick : exec ⟨BitVec.ofNat 32 n, .starting⟩ .tick =
          some ⟨BitVec.ofNat 32 (n + 1), .starting⟩ := by
        have hlt : 10 * (BitVec.ofNat 32 n).toNat < 2 ^ 32 := by omega
        rw [exec, timeTick_eq hlt, hticks, if_pos (by omega), hsucc]
        rfl
      refine (ih (by omega) (by omega)).next trivial ⟨htick, ?_⟩
      dsimp only
      rw [BitVec.toNat_ofNat]
      omega

theorem panics_of_late (hphase : s.phase = .starting) (hlate : s.now.toInt < 0) :
    (s.exec .timerRuns).bind (·.exec .timerRuns) = some { s with phase := .panicked } := by
  have hnow : ∀ phase, System.now { s with phase := phase } = s.now := fun _ => rfl
  simp only [exec, System.timer, hphase, Option.bind_some, hnow, not_le.mpr hlate, and_false,
    if_false, hlate, if_true]

def lateTicks : BitVec 32 := 214748365

theorem reached_panicked (hlate : 2 ^ 31 ≤ 10 * uptime) :
    Reached uptime ⟨lateTicks, .panicked⟩ := by
  have hticks : lateTicks.toNat ≤ uptime := by
    have hvalue : lateTicks.toNat = 214748365 := rfl
    omega
  have hstart : Reached uptime ⟨lateTicks, .starting⟩ :=
    reached_starting hticks (by decide)
  obtain ⟨mid, hmid, hlast⟩ := Option.bind_eq_some_iff.mp
    (@panics_of_late ⟨lateTicks, .starting⟩ rfl (by decide))
  have hmidTicks : mid.ticks = lateTicks := by
    cases hmid
    rfl
  exact (hstart.next trivial ⟨hmid, hmidTicks ▸ hticks⟩).next trivial ⟨hlast, hticks⟩

end System

/-- The timer is alive and punctual in every run of an uptime if and only if the milliseconds of that
uptime fit an `int`. -/
theorem punctual_iff_fits (uptime : Nat) :
    (∀ s, System.Reached uptime s → s.Punctual) ↔ 10 * uptime < 2 ^ 31 := by
  constructor
  · intro h
    by_contra hlate
    exact (h _ (System.reached_panicked (not_lt.mp hlate))).1 rfl
  · intro hfits s hreach
    exact (hreach.inv hfits).punctual

/-- The kernel's clock goes on at the tick after which the timer panics. -/
theorem late_timer_panics :
    (timeTick System.lateTicks).isSome ∧
      ∃ s, System.Reached System.lateTicks.toNat s ∧ s.phase = .panicked :=
  ⟨by decide, _, System.reached_panicked (by decide), rfl⟩

end ZynexOS.Timer
