import ZynexOS.Kern.Proof.EnvRule

/-! # What the scheduler does -/

namespace ZynexOS

open Library

namespace Kern

variable {k k' : Kern}

def SchedSame (envs₀ : Nat → Env) (e : Nat) (env : Env) : Prop :=
  env = { envs₀ e with
    envStatus := env.envStatus, envRuns := env.envRuns, envCpunum := env.envCpunum }

theorem schedSame_sched (envs₀ : Nat → Env) {e : Nat} {env : Env} (status : EnvStatus)
    (runs : BitVec 32) (cpunum : Nat) (hsame : SchedSame envs₀ e env) :
    SchedSame envs₀ e { env with envStatus := status, envRuns := runs, envCpunum := cpunum } := by
  unfold SchedSame at hsame ⊢
  rw [hsame]

theorem schedYield_same {cpu : Nat} (hyield : k.schedYield cpu = .ok k') :
    Holds (SchedSame k.envs) k' :=
  Holds.schedYield (fun status runs cpunum => schedSame_sched k.envs status runs cpunum)
    (fun _ => rfl) hyield

theorem envRun_same (k : Kern) (cpu e : Nat) : Holds (SchedSame k.envs) (k.envRun cpu e) :=
  Holds.envRun (P := SchedSame k.envs)
    (fun status runs cpunum => schedSame_sched k.envs status runs cpunum) (fun _ => rfl) cpu e

theorem envRun_status (k : Kern) (cpu e : Nat) :
    (k.envRun cpu e).curenv = some e ∧ ((k.envRun cpu e).envs e).envStatus = .running ∧
      ∀ e', e' ≠ e → (k.curenv ≠ some e' ∨ (k.envs e').envStatus ≠ .running) →
        ((k.envRun cpu e).envs e').envStatus = (k.envs e').envStatus := by
  unfold envRun
  refine ⟨rfl, by simp, ?_⟩
  intro e' hne hkeeps
  cases hcurenv : k.curenv with
  | none => simp [setEnv_envs_of_ne _ _ hne]
  | some c =>
      dsimp only
      split
      · next hrunning =>
          have hne' : e' ≠ c := by
            rintro rfl
            exact hkeeps.elim (fun h => h hcurenv) (fun h => h hrunning)
          simp [setEnv_envs_of_ne _ _ hne, setEnv_envs_of_ne _ _ hne']
      · simp [setEnv_envs_of_ne _ _ hne]

structure Yields (k k' : Kern) : Prop where
  chosen : ∀ e, k'.curenv = some e →
    (k'.envs e).envStatus = .running ∧
      ((k.envs e).envStatus = .runnable ∨ k.curenv = some e)
  others : ∀ e, (k.envs e).envStatus = .running → k.curenv ≠ some e →
    (k'.envs e).envStatus = .running
  waits : ∀ e, (k.envs e).envStatus = .runnable → k'.curenv ≠ some e →
    (k'.envs e).envStatus = .runnable

theorem yields_envRun {cpu e : Nat}
    (hchosen : (k.envs e).envStatus = .runnable ∨ k.curenv = some e) :
    Yields k (k.envRun cpu e) := by
  obtain ⟨hcur, hrunning, hothers⟩ := envRun_status k cpu e
  constructor
  · intro e' he'
    rw [hcur] at he'
    cases he'
    exact ⟨hrunning, hchosen⟩
  · intro e' he' hne
    by_cases heq : e' = e
    · rw [heq]
      exact hrunning
    · rw [hothers e' heq (.inl hne)]
      exact he'
  · intro e' he' hne
    rw [hcur] at hne
    rw [hothers e' (fun h => hne (h ▸ rfl)) (.inr (by rw [he']; decide))]
    exact he'

theorem yields_schedHalt (hhalt : k.schedHalt = .ok k') : Yields k k' := by
  unfold schedHalt at hhalt
  split at hhalt
  · cases hhalt
  · cases hhalt
    exact ⟨nofun, fun _ h _ => h, fun _ h _ => h⟩

theorem findRunnable_eq_some {slots : List Nat} {e : Nat} (hfind : k.findRunnable slots = some e) :
    (k.envs e).envStatus = .runnable := by
  have hprop := List.find?_some hfind
  simpa using hprop

theorem yields_schedYield {cpu : Nat} (hyield : k.schedYield cpu = .ok k') : Yields k k' := by
  unfold schedYield at hyield
  split at hyield
  · split at hyield
    · next e hfind =>
        cases hyield
        exact yields_envRun (.inl (findRunnable_eq_some hfind))
    · exact yields_schedHalt hyield
  · next c hcur =>
      split at hyield
      · next e hfind =>
          cases hyield
          exact yields_envRun (.inl (findRunnable_eq_some hfind))
      · split at hyield
        · next e hfind =>
            cases hyield
            exact yields_envRun (.inl (findRunnable_eq_some hfind))
        · split at hyield
          · cases hyield
            exact yields_envRun (.inr hcur)
          · exact yields_schedHalt hyield

theorem trap_yields {c cpu : Nat} {dev : Int} {tf : Trapframe} (hcur : k.curenv = some c)
    (halive : (k.envs c).envStatus ≠ .dying) (htrap : k.trap cpu dev tf = .ok k') :
    ∃ exit mid, (k.setEnv c { k.envs c with envTf := tf }).trapDispatch dev c = .ok (exit, mid) ∧
      (mid.curenv = some c → Holds (SchedSame mid.envs) k' ∧ Yields mid k') := by
  obtain ⟨hdying, -⟩ | ⟨-, exit, mid, hdispatch, hend⟩ := trap_cases hcur htrap
  · exact absurd hdying halive
  · refine ⟨exit, mid, hdispatch, fun hmid => ?_⟩
    obtain hyield | ⟨e, rfl, hnext⟩ := hend
    · exact ⟨schedYield_same hyield, yields_schedYield hyield⟩
    · refine ⟨envRun_same mid cpu e, yields_envRun (.inr ?_)⟩
      obtain ⟨-, rfl⟩ | ⟨he, -⟩ := hnext
      · exact hmid
      · exact he

theorem trapDispatch_syscall {c : Nat} {dev : Int} {exit : TrapExit} {tf : Trapframe}
    (htf : (k.envs c).envTf = tf) (hcause : Cause.ofScause tf.scause = .syscall)
    (hdispatch : k.trapDispatch dev c = .ok (exit, k')) :
    k.syscall dev tf.a0 tf.a1 tf.a2 tf.a3 tf.a4 tf.a5 = .ok (.resched, k') ∨
    ∃ ret mid, k.syscall dev tf.a0 tf.a1 tf.a2 tf.a3 tf.a4 tf.a5 = .ok (.ret ret, mid) ∧
      k' = mid.setEnv c { mid.envs c with
        envTf := { (mid.envs c).envTf with
          a0 := BitVec.ofInt 64 ret, sepc := (mid.envs c).envTf.sepc + 4 } } := by
  unfold Kern.trapDispatch at hdispatch
  dsimp only at hdispatch
  rw [htf, hcause] at hdispatch
  obtain ⟨⟨result, mid⟩, hcall, hrest⟩ := bind_eq_ok.mp hdispatch
  cases result with
  | resched =>
      simp only [pure_eq_ok, Prod.mk.injEq] at hrest
      exact .inl (hrest.2 ▸ hcall)
  | ret ret =>
      cases pure_eq_ok.mp hrest
      exact .inr ⟨ret, mid, hcall, rfl⟩

end Kern

end ZynexOS
