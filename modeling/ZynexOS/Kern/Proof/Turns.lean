import ZynexOS.Library.Circular
import ZynexOS.Kern.Turns
import ZynexOS.Kern.Proof.Exclusive

/-!
# Round-robin scheduling

While an environment waits, every dispatch brings the CPU closer to it on the circle of slots. What can
break this is a search that does not start at the environment that ran last.
-/

namespace ZynexOS

open Library

namespace Kern

variable {k k' mid : Kern} {c e : Nat} {tf : Trapframe}

theorem Effects.curenv (heffects : Effects k c tf k') (hcur : k.curenv = some c) :
    k'.curenv = some c ∨ k'.curenv = none := by
  cases heffects with
  | quiet hquiet => exact .inl (hquiet.curenv.trans hcur)
  | setStatus e status _ _ _ _ hquiet => exact .inl (hquiet.curenv.trans hcur)
  | deliver e _ _ _ hquiet => exact .inl (hquiet.curenv.trans hcur)
  | block _ hquiet => exact .inl (hquiet.curenv.trans hcur)
  | fork e pgdir _ _ hquiet => exact .inl (hquiet.curenv.trans hcur)
  | kill e _ _ _ _ hquiet => exact .inl (hquiet.curenv.trans hcur)
  | free e _ _ _ hquiet =>
      rw [hquiet.curenv]
      unfold freed
      dsimp only
      split
      · exact .inr rfl
      · exact .inl hcur

theorem trap_yieldsIn {cpu : Nat} {dev : Int} (hcur : k.curenv = some c)
    (htrap : k.trap cpu dev tf = .ok k') :
    (∃ mid, k.yieldsIn dev tf = .ok (some mid) ∧ mid.schedYield cpu = .ok k' ∧
      (mid.curenv = some c ∨ mid.curenv = none)) ∨
    k.yieldsIn dev tf = .ok none ∧ k'.curenv = some c := by
  obtain ⟨c', hcur', hrest⟩ := bind_eq_ok.mp htrap
  obtain rfl : c' = c := Option.some.inj ((cur_eq_ok.mp hcur').symm.trans hcur)
  dsimp only at hrest
  unfold yieldsIn
  rw [hcur']
  split at hrest
  · next hdying =>
      obtain ⟨mid, hfree, hyield⟩ := bind_eq_ok.mp hrest
      refine .inl ⟨_, ?_, hyield, .inr rfl⟩
      simp only [bind, Except.bind, if_pos hdying, hfree]
      rfl
  · next halive =>
      obtain ⟨⟨exit, mid⟩, hdispatch, hexit⟩ := bind_eq_ok.mp hrest
      have htf : ((k.setEnv c' { k.envs c' with envTf := tf }).envs c').envTf = tf := by
        rw [setEnv_envs_self]
      have hmid := (trapDispatch_effects (k := k.setEnv c' { k.envs c' with envTf := tf })
        hcur htf hdispatch).1.curenv hcur
      simp only [bind, Except.bind, if_neg halive, hdispatch]
      cases exit with
      | run =>
          cases pure_eq_ok.mp hexit
          exact .inr ⟨rfl, (envRun_status mid cpu c').1⟩
      | resched => exact .inl ⟨mid, rfl, hexit, hmid⟩
      | back =>
          dsimp only at hexit ⊢
          cases hnext : mid.curenv with
          | none =>
              rw [hnext] at hexit
              exact .inl ⟨mid, rfl, hexit, .inr hnext⟩
          | some e =>
              obtain rfl : e = c' := by
                rw [hnext] at hmid
                exact Option.some.inj (hmid.resolve_right nofun)
              rw [hnext] at hexit
              dsimp only at hexit ⊢
              split at hexit
              · next hrunning =>
                  cases pure_eq_ok.mp hexit
                  rw [if_pos hrunning]
                  exact .inr ⟨rfl, (envRun_status mid cpu e).1⟩
              · next hstopped =>
                  rw [if_neg hstopped]
                  exact .inl ⟨mid, rfl, hexit, .inl hnext⟩

theorem findRunnable_range' {start len y : Nat}
    (hfind : k.findRunnable (List.range' start len) = some y) :
    start ≤ y ∧ y < start + len ∧ (k.envs y).envStatus = .runnable ∧
      ∀ e, start ≤ e → e < start + len → (k.envs e).envStatus = .runnable → y ≤ e := by
  have hmem := List.mem_range'_1.mp (List.mem_of_find?_eq_some hfind)
  exact ⟨hmem.1, hmem.2, findRunnable_eq_some hfind, fun e hle hlt he =>
    find_range'_le hfind hle hlt (decide_eq_true he)⟩

theorem findRunnable_none {slots : List Nat} (hfind : k.findRunnable slots = none)
    (he : e ∈ slots) : (k.envs e).envStatus ≠ .runnable := fun hrunnable =>
  List.find?_eq_none.mp hfind e he (decide_eq_true hrunnable)

structure First (k : Kern) (start y : Nat) : Prop where
  lt : y < nEnv
  runnable : (k.envs y).envStatus = .runnable
  least : ∀ e < nEnv, (k.envs e).envStatus = .runnable → ahead nEnv start y ≤ ahead nEnv start e

theorem schedYield_cases {cpu : Nat} (hcur : ∀ c, k.curenv = some c → c < nEnv)
    (hyield : k.schedYield cpu = .ok k') :
    (∃ y, First k (k.curenv.getD 0) y ∧ k' = k.envRun cpu y) ∨
      (∀ e < nEnv, (k.envs e).envStatus ≠ .runnable) ∧
        ((∃ c, k.curenv = some c ∧ k' = k.envRun cpu c) ∨ k.schedHalt = .ok k') := by
  unfold schedYield at hyield
  split at hyield
  · next hnone =>
      rw [hnone]
      split at hyield
      · next y hfind =>
          cases hyield
          rw [List.range_eq_range'] at hfind
          obtain ⟨-, hlt, hy, hleast⟩ := findRunnable_range' hfind
          refine .inl ⟨y, ⟨by omega, hy, fun e he hrunnable => ?_⟩, rfl⟩
          have hle := hleast e (Nat.zero_le e) (by omega) hrunnable
          have hy' := ahead_cases nEnv 0 y
          have he' := ahead_cases nEnv 0 e
          show ahead nEnv 0 y ≤ ahead nEnv 0 e
          omega
      · next hfind =>
          exact .inr ⟨fun e he => findRunnable_none hfind (List.mem_range.mpr he), .inr hyield⟩
  · next c hsome =>
      have hc := hcur c hsome
      rw [hsome]
      split at hyield
      · next y hfind =>
          cases hyield
          obtain ⟨hle, hlt, hy, hleast⟩ := findRunnable_range' hfind
          refine .inl ⟨y, ⟨by omega, hy, fun e he hrunnable => ?_⟩, rfl⟩
          have hleast' := hleast e
          have hy' := ahead_cases nEnv c y
          have he' := ahead_cases nEnv c e
          show ahead nEnv c y ≤ ahead nEnv c e
          by_cases hce : c ≤ e
          · have := hleast' hce (by omega) hrunnable
            omega
          · omega
      · next hhigh =>
          have hnone : ∀ e, c ≤ e → e < nEnv → (k.envs e).envStatus ≠ .runnable := fun e hce he =>
            findRunnable_none hhigh (List.mem_range'_1.mpr ⟨hce, by omega⟩)
          split at hyield
          · next y hfind =>
              cases hyield
              rw [List.range_eq_range'] at hfind
              obtain ⟨-, hlt, hy, hleast⟩ := findRunnable_range' hfind
              refine .inl ⟨y, ⟨by omega, hy, fun e he hrunnable => ?_⟩, rfl⟩
              have hce : e < c := by
                by_contra hce
                exact hnone e (by omega) he hrunnable
              have hle := hleast e (Nat.zero_le e) (by omega) hrunnable
              have hy' := ahead_cases nEnv c y
              have he' := ahead_cases nEnv c e
              show ahead nEnv c y ≤ ahead nEnv c e
              omega
          · next hlow =>
              have hall : ∀ e < nEnv, (k.envs e).envStatus ≠ .runnable := by
                intro e he
                by_cases hce : c ≤ e
                · exact hnone e hce he
                · exact findRunnable_none hlow (List.mem_range.mpr (by omega))
              split at hyield
              · cases hyield
                exact .inr ⟨hall, .inl ⟨c, rfl, rfl⟩⟩
              · exact .inr ⟨hall, .inr hyield⟩

theorem schedHalt_eq (hhalt : k.schedHalt = .ok k') : k' = { k with curenv := none } := by
  unfold schedHalt at hhalt
  split at hhalt <;> cases hhalt
  rfl

theorem schedYield_status {cpu : Nat} (hcur : ∀ c, k.curenv = some c → c < nEnv)
    (hyield : k.schedYield cpu = .ok k') (hbefore : k.curenv ≠ some e)
    (hafter : k'.curenv ≠ some e) : (k'.envs e).envStatus = (k.envs e).envStatus := by
  have hrun : ∀ y, k' = k.envRun cpu y → (k'.envs e).envStatus = (k.envs e).envStatus := by
    rintro y rfl
    obtain ⟨hcur', -, hothers⟩ := envRun_status k cpu y
    exact hothers e (fun h => hafter (h ▸ hcur')) (.inl hbefore)
  obtain ⟨y, -, hy⟩ | ⟨-, ⟨c, -, hc⟩ | hhalt⟩ := schedYield_cases hcur hyield
  · exact hrun y hy
  · exact hrun c hc
  · rw [schedHalt_eq hhalt]

theorem schedYield_lt {cpu : Nat} (hcur : ∀ c, k.curenv = some c → c < nEnv)
    (hyield : k.schedYield cpu = .ok k') (hcur' : k'.curenv = some e) : e < nEnv := by
  obtain ⟨y, hfirst, rfl⟩ | ⟨-, ⟨c, hc, rfl⟩ | hhalt⟩ := schedYield_cases hcur hyield
  · cases (envRun_status k cpu y).1.symm.trans hcur'
    exact hfirst.lt
  · cases (envRun_status k cpu c).1.symm.trans hcur'
    exact hcur _ hc
  · rw [schedHalt_eq hhalt] at hcur'
    cases hcur'

theorem schedYield_ahead {cpu : Nat} (hyield : k.schedYield cpu = .ok k') (hc : c < nEnv)
    (hcur : k.curenv = some c ∨ k.curenv = none) (horder : k.KeepsOrder c) (he : e < nEnv)
    (hrunnable : (k.envs e).envStatus = .runnable) :
    ∃ y < nEnv, k'.curenv = some y ∧ 0 < ahead nEnv c y ∧ ahead nEnv c y ≤ ahead nEnv c e := by
  have hlt : ∀ c, k.curenv = some c → c < nEnv := by
    intro c' hc'
    obtain h | h := hcur <;> cases h.symm.trans hc'
    exact hc
  obtain ⟨y, hfirst, rfl⟩ | ⟨hnone, -⟩ := schedYield_cases hlt hyield
  · have hne : y ≠ c := by
      rintro rfl
      exact horder.gaveUp hfirst.runnable
    refine ⟨y, hfirst.lt, (envRun_status k cpu y).1, ahead_pos hc hne, ?_⟩
    have hleast := hfirst.least e he hrunnable
    obtain h | h := hcur
    · rw [h] at hleast
      exact hleast
    · rw [h] at hleast
      -- the search started at slot 0, but all candidates are on one side of `c`
      have hle : ahead nEnv 0 y ≤ ahead nEnv 0 e := hleast
      have hy₀ := ahead_cases nEnv 0 y
      have he₀ := ahead_cases nEnv 0 e
      have hy := ahead_cases nEnv c y
      have he' := ahead_cases nEnv c e
      have hylt := hfirst.lt
      obtain hlow | hhigh := horder.gone h
      · have hcy : c ≤ y := by
          by_contra hcy
          exact hlow y (by omega) hfirst.runnable
        omega
      · have hec : e < c := by
          by_contra hec
          exact hhigh e he (by omega) hrunnable
        omega
  · exact absurd hrunnable (hnone e he)

end Kern

namespace Rota

variable {r r' : Rota} {m : Machine} {event : Event}

structure OnTurn (m : Machine) : Prop where
  lt : ∀ c, m.cpuEnv 0 = some c → c < nEnv
  running : ∀ c, m.cpuEnv 0 = some c → (m.kern.envs c).envStatus = .running

/-- Since a dispatch of `x`, `e` has been waiting, and the CPU has got closer to it. -/
structure Nearing (m : Machine) (x e : Nat) : Prop where
  lt : x < nEnv
  waits : (m.kern.envs e).envStatus = .runnable
  between : ∃ c, m.cpuEnv 0 = some c ∧ ahead nEnv x c < ahead nEnv x e

theorem onTurn_step (hturn : OnTurn m) {m' : Machine} (hcpu : event.cpu = 0)
    (hstep : m.Step event m') : OnTurn m' := by
  cases hstep with
  | @trap cpu c user k hrunning hstatus hkernel =>
      obtain rfl : cpu = 0 := hcpu
      have hself := m.leave_cpuEnv_self 0 k
      have hc : ∀ mid : Kern, mid.curenv = some c ∨ mid.curenv = none →
          ∀ c', mid.curenv = some c' → c' < nEnv := by
        intro mid hmid c' hc'
        obtain h | h := hmid <;> cases h.symm.trans hc'
        exact hturn.lt c hrunning
      refine ⟨fun e he => ?_, fun e he => ?_⟩
      · rw [hself] at he
        obtain ⟨mid, -, hyield, hmid⟩ | ⟨-, hcur⟩ := Kern.trap_yieldsIn hrunning hkernel
        · exact Kern.schedYield_lt (hc mid hmid) hyield he
        · cases hcur.symm.trans he
          exact hturn.lt c hrunning
      · rw [hself] at he
        exact Kern.running_of_trap hrunning hkernel he
  | @tick cpu k hidle hkernel =>
      obtain rfl : cpu = 0 := hcpu
      have hself := m.leave_cpuEnv_self 0 k
      refine ⟨fun e he => ?_, fun e he => ?_⟩
      · exact Kern.schedYield_lt (by nofun) hkernel (hself ▸ he)
      · exact ((Kern.yields_schedYield hkernel).chosen e (hself ▸ he)).1

theorem nearing_step {m' : Machine} {x e : Nat} (hturn : OnTurn m) (hcpu : event.cpu = 0)
    (horder : ∀ k c, m.yieldState event = some k → m.cpuEnv event.cpu = some c → k.KeepsOrder c)
    (hstep : m.Step event m') (he : e < nEnv) (hnear : Nearing m x e)
    (hwaits : (m'.kern.envs e).envStatus = .runnable) :
    Nearing m' x e ∧ (turnOf m event m').dispatched ≠ some x := by
  obtain ⟨hx, hbefore, c, hc, hahead⟩ := hnear
  cases hstep with
  | @tick cpu k hidle hkernel =>
      obtain rfl : cpu = 0 := hcpu
      cases hidle.symm.trans hc
  | @trap cpu c' user k hrunning hstatus hkernel =>
      obtain rfl : cpu = 0 := hcpu
      obtain rfl : c' = c := Option.some.inj (hrunning.symm.trans hc)
      have hself := m.leave_cpuEnv_self 0 k
      have hne : e ≠ c' := by
        rintro rfl
        cases hbefore.symm.trans (hturn.running e hrunning)
      obtain ⟨mid, hmid, hyield, hcur⟩ | ⟨hresumed, hcur⟩ := Kern.trap_yieldsIn hrunning hkernel
      · have hstate : m.yieldState (.trap 0 user) = some mid := by
          simp only [Machine.yieldState, hmid]
          rfl
        have hlt : ∀ c, mid.curenv = some c → c < nEnv := by
          intro c hc
          obtain h | h := hcur <;> cases h.symm.trans hc
          exact hturn.lt c' hrunning
        have hbefore' : mid.curenv ≠ some e := by
          intro h
          obtain h' | h' := hcur <;> cases h'.symm.trans h
          exact hne rfl
        have hafter : k.curenv ≠ some e := by
          intro h
          cases hwaits.symm.trans ((Kern.yields_schedYield hyield).chosen e h).1
        have hmidwaits : (mid.envs e).envStatus = .runnable :=
          (Kern.schedYield_status hlt hyield hbefore' hafter).symm.trans hwaits
        obtain ⟨y, hy, hcury, hpos, hle⟩ := Kern.schedYield_ahead hyield (hturn.lt c' hrunning) hcur
          (horder mid c' hstate hrunning) he hmidwaits
        have hye : y ≠ e := by
          rintro rfl
          exact hafter hcury
        have hless : ahead nEnv c' y < ahead nEnv c' e :=
          lt_of_le_of_ne hle fun h => hye (ahead_inj (hturn.lt c' hrunning) hy he h)
        obtain ⟨hfar, hnear⟩ := ahead_between hx hy he hahead hpos hless
        refine ⟨⟨hx, hwaits, y, hself.trans hcury, hnear⟩, ?_⟩
        unfold turnOf
        rw [hstate]
        dsimp only [Option.isSome_some]
        rw [if_pos rfl, hself, hcury]
        rintro h
        cases h
        rw [ahead_self] at hfar
        exact absurd hfar (lt_irrefl 0)
      · refine ⟨⟨hx, hwaits, c', hself.trans hcur, hahead⟩, ?_⟩
        have hstate : m.yieldState (.trap 0 user) = none := by
          simp only [Machine.yieldState, hresumed]
          rfl
        unfold turnOf
        rw [hstate]
        nofun

structure Fair (r : Rota) : Prop where
  onTurn : OnTurn r.machine
  nearing : ∀ (between older : List Turn) (first : Turn) (x e : Nat),
    r.turns = between ++ first :: older → first.dispatched = some x → e < nEnv → e ≠ x →
      (∀ turn ∈ between ++ [first], turn.status e = .runnable) → Nearing r.machine x e
  skips : SkipsNobody r.turns

theorem fair_step (hfair : Fair r) (horder : r.InOrder event) (hstep : r.Step event r') :
    Fair r' := by
  cases hstep with
  | @turn m' hcpu hstep =>
      have hturn' := onTurn_step hfair.onTurn hcpu hstep
      refine ⟨hturn', ?_, ?_⟩
      · intro between older first x e hturns hfirst he hne hwaits
        cases between with
        | nil =>
            obtain ⟨rfl, rfl⟩ := List.cons.inj hturns
            have hdispatched : m'.cpuEnv 0 = some x := by
              unfold turnOf at hfirst
              dsimp only at hfirst
              split at hfirst
              · exact hfirst
              · cases hfirst
            have hx := hturn'.lt x hdispatched
            refine ⟨hx, hwaits _ List.mem_cons_self, x, hdispatched, ?_⟩
            rw [ahead_self]
            exact ahead_pos hx hne
        | cons turn between =>
            obtain ⟨rfl, hrest⟩ := List.cons.inj hturns
            have hnear := hfair.nearing between older first x e hrest hfirst he hne fun turn hmem =>
              hwaits turn (List.mem_cons_of_mem _ hmem)
            exact (nearing_step hfair.onTurn hcpu horder hstep he hnear
              (hwaits _ List.mem_cons_self)).1
      · intro newer between older first last x e hturns hfirst hlast hconsecutive he hne hwaits
        cases newer with
        | nil =>
            obtain ⟨rfl, hrest⟩ := List.cons.inj hturns
            have hnear := hfair.nearing between older first x e hrest hfirst he hne fun turn hmem =>
              hwaits turn (List.mem_cons_of_mem _ hmem)
            exact absurd hlast (nearing_step hfair.onTurn hcpu horder hstep he hnear
              (hwaits _ List.mem_cons_self)).2
        | cons turn newer =>
            obtain ⟨-, hturns⟩ := List.cons.inj hturns
            exact hfair.skips newer between older first last x e hturns hfirst hlast hconsecutive he hne
              hwaits

theorem fair_start (hstarts : r.Starts) : Fair r := by
  obtain ⟨machine, turns⟩ := r
  obtain ⟨⟨vm, kernPgdir, envsAddr, sstatus, programs, k, -, -, rfl⟩, rfl⟩ := hstarts
  refine ⟨⟨by nofun, by nofun⟩, ?_, ?_⟩
  · intro between older first x e hturns
    exact absurd hturns (by simp)
  · intro newer between older first last x e hturns
    exact absurd hturns (by simp)

/-- In every run of one CPU in which `sched_yield` is called in order, an environment that stays
runnable between two dispatches of another is dispatched in between. -/
theorem skipsNobody_of_reachable (hreach : Reachable Starts Step InOrder r) :
    SkipsNobody r.turns := by
  have hfair : Fair r :=
    hreach.invariant (fun _ => fair_start) fun _ _ _ hfair horder hstep => fair_step hfair horder hstep
  exact hfair.skips

def tryTurn (check : Machine → Event → Bool) (r : Rota) (event : Event) : Option Rota := do
  let m ← r.machine.tryStep (fun m event => event.cpu == 0 && check m event) event
  pure ⟨m, turnOf r.machine event m :: r.turns⟩

def bootTurns (check : Machine → Event → Bool) (script : List (Rota → Event)) : Option Rota := do
  let k ← (Kern.boot Vm.small (pageKva 0) uenvs 0 [(Kern.smallImage, .user)]).toOption
  let call (regs : Trapframe) (r : Rota) : Event := r.machine.ecall 0 regs
  let forks := [call { a0 := 7 }, call { a0 := 7 }, call { a0 := 8, a1 := 0x1001, a2 := 2 },
    call { a0 := 8, a1 := 0x1002, a2 := 2 }]
  let yields := List.replicate 3 (call { a0 := 10 })
  ((fun _ => .tick 0) :: forks ++ yields ++ script).foldlM
    (fun r event => r.tryTurn check (event r)) ⟨Machine.start k, []⟩

theorem reachable_of_bootTurns {check : Machine → Event → Bool} {script : List (Rota → Event)}
    {allowed : Rota → Event → Prop}
    (hallowed : ∀ r event, check r.machine event = true → allowed r event)
    (hrun : bootTurns check script = some r) : Reachable Starts Step allowed r := by
  unfold bootTurns at hrun
  obtain ⟨k, hboot, hscript⟩ := Option.bind_eq_some_iff.mp hrun
  have hstarts : Starts ⟨Machine.start k, []⟩ :=
    ⟨⟨_, _, _, 0, _, k, by decide, eq_ok_of_toOption hboot, rfl⟩, rfl⟩
  refine (Reachable.start hstarts).script ?_ hscript
  intro r event r' htry
  obtain ⟨m, hm, hr'⟩ := Option.bind_eq_some_iff.mp htry
  obtain ⟨hcheck, hstep⟩ := Machine.step_of_tryStep hm
  obtain ⟨hcpu, hcheck⟩ := (Bool.and_eq_true ..).mp hcheck
  cases hr'
  exact ⟨hallowed r event hcheck, .turn (by simpa using hcpu) hstep⟩

/-- Environment 0 yields to environment 1, which exits; environment 0 is dispatched again, and
environment 2 has been waiting all the time. -/
theorem exit_skips_waiting :
    ∃ r, Reachable Starts Step (fun _ _ => True) r ∧ ¬SkipsNobody r.turns := by
  have heval : ((bootTurns (fun _ _ => true) [fun r => r.machine.ecall 0 { a0 := 10 },
      fun r => r.machine.ecall 0 { a0 := 3 }]).map fun r =>
        (r.turns.take 3).map fun turn => (turn.dispatched, turn.status 2)) =
      some [(some 0, .runnable), (some 1, .runnable), (some 0, .runnable)] := by
    decide +kernel
  obtain ⟨r, hrun, hobs⟩ := Option.map_eq_some_iff.mp heval
  simp only [List.map_eq_cons_iff, List.map_eq_nil_iff, Prod.mk.injEq] at hobs
  obtain ⟨last, _, htake, ⟨hlast, hwaits₁⟩, middle, _, rfl, ⟨hmiddle, hwaits₂⟩, first, _, rfl,
    ⟨hfirst, hwaits₃⟩, rfl⟩ := hobs
  have hturns : r.turns = [] ++ last :: ([middle] ++ first :: r.turns.drop 3) := by
    conv_lhs => rw [← List.take_append_drop 3 r.turns, htake]
    rfl
  have hreach : Reachable Starts Step (fun _ _ => True) r :=
    reachable_of_bootTurns (fun _ _ _ => trivial) hrun
  refine ⟨r, hreach, fun hskips => ?_⟩
  obtain ⟨turn, hmem, hturn⟩ := hskips _ _ _ first last 0 2 hturns hfirst hlast
    (by simp [hmiddle]) (by simp [nEnv]) (by simp) (by simp [hwaits₁, hwaits₂, hwaits₃])
  rw [List.mem_singleton.mp hmem, hmiddle] at hturn
  cases hturn

def givesUp (m : Machine) (event : Event) : Bool :=
  (m.yieldState event).all fun k => (m.cpuEnv event.cpu).all fun c =>
    (k.envs c).envStatus == .running && k.curenv == some c

theorem inOrder_of_givesUp (r : Rota) (event : Event) (hgives : givesUp r.machine event = true) :
    r.InOrder event := by
  intro k c hstate hcpu
  simp only [givesUp, hstate, hcpu, Option.all_some, Bool.and_eq_true, beq_iff_eq] at hgives
  refine ⟨?_, fun hnone => ?_⟩
  · rw [hgives.1]
    nofun
  · cases hnone.symm.trans hgives.2

/-- Three environments that yield in turn. -/
theorem yields_skip_nobody :
    ∃ r : Rota, (r.turns.map Turn.dispatched).take 3 = [some 0, some 2, some 1] ∧
      SkipsNobody r.turns := by
  have heval : ((bootTurns givesUp []).map fun r => (r.turns.map Turn.dispatched).take 3) =
      some [some 0, some 2, some 1] := by
    decide +kernel
  obtain ⟨r, hrun, hobs⟩ := Option.map_eq_some_iff.mp heval
  exact ⟨r, hobs, skipsNobody_of_reachable (reachable_of_bootTurns inOrder_of_givesUp hrun)⟩

end Rota

end ZynexOS
