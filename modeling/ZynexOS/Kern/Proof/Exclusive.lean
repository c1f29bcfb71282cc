import ZynexOS.Kern.Cpus
import ZynexOS.Kern.Proof.FreeEnvs

/-! # One CPU for each running environment -/

namespace ZynexOS

open Library

namespace Kern

variable {k k' mid : Kern} {c e : Nat} {tf : Trapframe} {others : Nat → Prop}

structure Placed (k : Kern) (others : Nat → Prop) : Prop where
  apart : ∀ e, k.curenv = some e → ¬others e
  elsewhere : ∀ e, others e → (k.envs e).envStatus.OnCpu
  onCpu : ∀ e, (k.envs e).envStatus.OnCpu → others e ∨ k.curenv = some e
  free : ∃ l, FreeMembers k l

def Alive (k : Kern) : Prop := ∀ e, k.curenv = some e → (k.envs e).envStatus ≠ .dying

structure PlacedStep (k k' : Kern) (others : Nat → Prop) : Prop extends Placed k' others where
  alive : Alive k'
  pgdir : ∀ e, others e → (k'.envs e).envPgdir = (k.envs e).envPgdir

theorem Placed.of_quiet (hplaced : Placed k others) (hquiet : Quiet k k') : Placed k' others where
  apart e he := hplaced.apart e (hquiet.curenv ▸ he)
  elsewhere e he := by
    rw [hquiet.status]
    exact hplaced.elsewhere e he
  onCpu e he := by
    rw [hquiet.status] at he
    rw [hquiet.curenv]
    exact hplaced.onCpu e he
  free := by
    obtain ⟨l, hl⟩ := hplaced.free
    exact ⟨l, hl.congr hquiet.list fun e _ => hquiet.core e⟩

theorem Alive.of_quiet (halive : Alive k) (hquiet : Quiet k k') : Alive k' := by
  intro e he
  rw [hquiet.status]
  exact halive e (hquiet.curenv ▸ he)

theorem PlacedStep.trans_quiet (hstep : PlacedStep k mid others) (hquiet : Quiet mid k') :
    PlacedStep k k' others where
  toPlaced := hstep.toPlaced.of_quiet hquiet
  alive := hstep.alive.of_quiet hquiet
  pgdir e he := (hquiet.pgdir e).trans (hstep.pgdir e he)

theorem Placed.update (hplaced : Placed k others) (hother : ¬others e)
    (halive : ∀ e', e' ≠ e → k.curenv = some e' → (k.envs e').envStatus ≠ .dying)
    (hsame : ∀ e', e' ≠ e → k'.core e' = k.core e')
    (hcur : k'.curenv = k.curenv ∨ k'.curenv = none ∧ k.curenv = some e)
    (hstatus : ¬(k'.envs e).envStatus.OnCpu) (hfree : ∃ l, FreeMembers k' l) :
    PlacedStep k k' others := by
  have hkept : ∀ e', e' ≠ e → (k'.envs e').envStatus = (k.envs e').envStatus := fun e' hne =>
    congrArg (·.1) (hsame e' hne)
  have hne : ∀ e', others e' → e' ≠ e := by
    rintro e' he' rfl
    exact hother he'
  have hcur' : ∀ e', k'.curenv = some e' → k.curenv = some e' := by
    intro e' he'
    obtain h | ⟨h, -⟩ := hcur <;> rw [h] at he'
    · exact he'
    · cases he'
  refine ⟨⟨fun e' he' => hplaced.apart e' (hcur' e' he'), fun e' he' => ?_, fun e' he' => ?_,
    hfree⟩, fun e' he' => ?_, fun e' he' => congrArg (·.2.2) (hsame e' (hne e' he'))⟩
  · rw [hkept e' (hne e' he')]
    exact hplaced.elsewhere e' he'
  · have hne' : e' ≠ e := by
      rintro rfl
      exact hstatus he'
    rw [hkept e' hne'] at he'
    refine (hplaced.onCpu e' he').imp_right fun h => ?_
    obtain hcur | ⟨-, hcur⟩ := hcur
    · rw [hcur, h]
    · exact absurd (Option.some.inj (h.symm.trans hcur)) hne'
  · by_cases heq : e' = e
    · rw [heq]
      exact fun h => hstatus (.inr h)
    · rw [hkept e' heq]
      exact halive e' heq (hcur' e' he')

theorem Placed.setStatus (hplaced : Placed k others) (halive : Alive k) (hother : ¬others e)
    (hold : (k.envs e).envStatus ≠ .free) {status : EnvStatus} (hnew : ¬status.OnCpu) :
    PlacedStep k (k.setEnv e { k.envs e with envStatus := status }) others := by
  obtain ⟨l, hl⟩ := hplaced.free
  refine hplaced.update hother (fun e' _ => halive e')
    (fun e' hne => core_setEnv_of_ne k _ hne) (.inl rfl) ?_ ⟨l, hl.setEnv _ hold⟩
  rw [setEnv_envs_self]
  exact hnew

theorem Placed.kill (hplaced : Placed k others) (halive : Alive k) (hcur : k.curenv ≠ some e)
    (hrunning : (k.envs e).envStatus = .running) :
    PlacedStep k (k.setEnv e { k.envs e with envStatus := .dying }) others := by
  have hkept : ∀ e', ((k.setEnv e { k.envs e with envStatus := .dying }).envs e').envStatus.OnCpu ↔
      (k.envs e').envStatus.OnCpu := by
    intro e'
    by_cases heq : e' = e
    · subst heq
      rw [setEnv_envs_self]
      exact iff_of_true (.inr rfl) (.inl hrunning)
    · rw [setEnv_envs_of_ne k _ heq]
  obtain ⟨l, hl⟩ := hplaced.free
  refine ⟨⟨hplaced.apart, fun e' he' => (hkept e').mpr (hplaced.elsewhere e' he'),
    fun e' he' => hplaced.onCpu e' ((hkept e').mp he'),
    ⟨l, hl.setEnv _ (by rw [hrunning]; nofun)⟩⟩, fun e' he' => ?_, fun e' _ => ?_⟩
  · have hne : e' ≠ e := by
      rintro rfl
      exact hcur he'
    rw [setEnv_envs_of_ne k _ hne]
    exact halive e' he'
  · by_cases heq : e' = e
    · subst heq
      rw [setEnv_envs_self]
    · rw [setEnv_envs_of_ne k _ heq]

theorem freed_core_of_ne (k : Kern) (c : Nat) {e e' : Nat} (hne : e' ≠ e) :
    (k.freed c e).core e' = k.core e' := core_setEnv_of_ne k _ hne

section

variable (hplaced : Placed k others)
include hplaced

theorem Placed.freed (hcur : k.curenv = some c) (hother : ¬others e)
    (halive : e ≠ c → (k.envs c).envStatus ≠ .dying) (hpgdir : (k.envs e).envPgdir ≠ 0) :
    PlacedStep k (k.freed c e) others := by
  obtain ⟨l, hl⟩ := hplaced.free
  refine hplaced.update hother (fun e' hne he' => ?_) (fun e' hne => freed_core_of_ne k c hne) ?_ ?_
    ⟨e :: l, (hl.push hpgdir c).2⟩
  · cases hcur.symm.trans he'
    exact halive hne.symm
  · by_cases he : e = c
    · exact .inr ⟨if_pos he, he ▸ hcur⟩
    · exact .inl (if_neg he)
  · show ¬((k.setEnv e _).envs e).envStatus.OnCpu
    rw [setEnv_envs_self]
    rintro (h | h) <;> cases h

theorem Placed.not_others_of_not_onCpu
    (hstatus : ¬(k.envs e).envStatus.OnCpu) : ¬others e := fun he => hstatus (hplaced.elsewhere e he)

theorem Placed.effects (halive : Alive k) (hcur : k.curenv = some c)
    (hlive : (k.envs c).envStatus ≠ .free) (hcareful : Machine.Careful k c tf)
    (heffects : Effects k c tf k') : PlacedStep k k' others := by
  cases heffects with
  | quiet hquiet => exact ⟨hplaced.of_quiet hquiet, halive.of_quiet hquiet, fun e _ => hquiet.pgdir e⟩
  | setStatus e status hcall hfound harg hold hquiet =>
      have hoff : ¬(k.envs e).envStatus.OnCpu := by
        rintro (h | h) <;> rw [h] at hold <;> obtain h' | h' := hold <;> cases h'
      have hnew := hcareful.setStatus hcall e status hfound hold harg
      refine (hplaced.setStatus halive (hplaced.not_others_of_not_onCpu hoff) ?_ hnew).trans_quiet hquiet
      obtain h | h := hold <;> rw [h] <;> nofun
  | deliver e hcall hfound hrecving hquiet =>
      have hother : ¬others e := by
        by_cases he : e = c
        · exact hplaced.apart e (he ▸ hcur)
        · exact hplaced.not_others_of_not_onCpu (hcareful.send hcall e hfound he hrecving)
      refine (hplaced.setStatus halive hother ?_ ?_).trans_quiet hquiet
      · exact (envid2env_live hfound).elim id fun h => Option.some.inj (h.symm.trans hcur) ▸ hlive
      · rintro (h | h) <;> cases h
  | block hcall hquiet =>
      refine (hplaced.setStatus halive (hplaced.apart c hcur) hlive ?_).trans_quiet hquiet
      rintro (h | h) <;> cases h
  | fork e pgdir hcall hhead hquiet =>
      obtain ⟨l, hl⟩ := hplaced.free
      obtain ⟨l', rfl, hl'⟩ := hl.pop hhead
        { k.envs e with envStatus := .notRunnable, envPgdir := pgdir }
      have hfree : (k.envs e).envStatus = .free := hl.status e List.mem_cons_self
      have hother : ¬others e := by
        refine hplaced.not_others_of_not_onCpu ?_
        rw [hfree]
        rintro (h | h) <;> cases h
      refine PlacedStep.trans_quiet ?_ hquiet
      refine hplaced.update hother (fun e' _ => halive e')
        (fun e' hne => core_setEnv_of_ne k _ hne) (.inl rfl) ?_ ⟨l', hl'⟩
      show ¬((k.setEnv e _).envs e).envStatus.OnCpu
      rw [setEnv_envs_self]
      rintro (h | h) <;> cases h
  | kill e hcall hfound hne hrunning hquiet =>
      have hcur' : k.curenv ≠ some e := fun h => hne (Option.some.inj (h.symm.trans hcur))
      exact (hplaced.kill halive hcur' hrunning).trans_quiet hquiet
  | free e hcall hstopped hpgdir hquiet =>
      refine (hplaced.freed hcur ?_ (fun _ => halive c hcur) hpgdir).trans_quiet hquiet
      by_cases he : e = c
      · exact hplaced.apart e (he ▸ hcur)
      · obtain ⟨hdestroy, hfound⟩ := hcall.resolve_left he
        refine hplaced.not_others_of_not_onCpu ?_
        rintro (h | h)
        · exact hstopped he h
        · exact hcareful.destroy hdestroy e hfound he h

/-! ### The scheduler -/

theorem Placed.envRun (halive : Alive k) (cpu : Nat)
    (hchosen : (k.envs e).envStatus = .runnable ∨ k.curenv = some e)
    (hlive : (k.envs e).envStatus ≠ .free) : PlacedStep k (k.envRun cpu e) others := by
  obtain ⟨hcur, hrunning, hothers⟩ := envRun_status k cpu e
  have hother : ¬others e := by
    obtain h | h := hchosen
    · refine hplaced.not_others_of_not_onCpu ?_
      rw [h]
      rintro (h | h) <;> cases h
    · exact hplaced.apart e h
  have hkept : ∀ e', others e' →
      ((k.envRun cpu e).envs e').envStatus = (k.envs e').envStatus := by
    intro e' he'
    refine hothers e' ?_ (.inl fun h => hplaced.apart e' h he')
    rintro rfl
    exact hother he'
  refine ⟨⟨fun e' he' => ?_, fun e' he' => ?_, fun e' he' => ?_, ?_⟩, fun e' he' => ?_,
    fun e' _ => ?_⟩
  · cases hcur.symm.trans he'
    exact hother
  · rw [hkept e' he']
    exact hplaced.elsewhere e' he'
  · by_cases heq : e' = e
    · exact .inr (heq ▸ hcur)
    · refine .inl ?_
      by_cases hcur' : k.curenv = some e'
      · -- the environment that gives up the CPU is runnable or not on any CPU
        by_cases hrun : (k.envs e').envStatus = .running
        · have hnew : ((k.envRun cpu e).envs e').envStatus = .runnable := by
            unfold Kern.envRun
            simp [hcur', hrun, setEnv_envs_of_ne _ _ heq]
          rw [hnew] at he'
          obtain h | h := he' <;> cases h
        · rw [hothers e' heq (.inr hrun)] at he'
          exact absurd (he'.resolve_left hrun) (halive e' hcur')
      · rw [hothers e' heq (.inl hcur')] at he'
        exact (hplaced.onCpu e' he').resolve_right hcur'
  · obtain ⟨l, hl⟩ := hplaced.free
    have hkeeps : KeepsFree k (k.envRun cpu e) := keepsFree_envRun hlive
    exact ⟨l, hl.congr hkeeps.list hkeeps.core⟩
  · cases hcur.symm.trans he'
    rw [hrunning]
    nofun
  · have hsame := envRun_same k cpu e e'
    unfold SchedSame at hsame
    rw [hsame]

theorem Placed.schedHalt (halive : Alive k)
    (hstopped : ∀ e, k.curenv = some e → (k.envs e).envStatus ≠ .running)
    (hhalt : k.schedHalt = .ok k') : PlacedStep k k' others := by
  unfold Kern.schedHalt at hhalt
  split at hhalt
  · cases hhalt
  · cases hhalt
    obtain ⟨l, hl⟩ := hplaced.free
    refine ⟨⟨by nofun, hplaced.elsewhere, fun e he => ?_, ⟨l, hl.congr rfl fun _ _ => rfl⟩⟩,
      by nofun, fun _ _ => rfl⟩
    refine .inl ((hplaced.onCpu e he).resolve_right fun hcur => ?_)
    exact he.elim (hstopped e hcur) (halive e hcur)

theorem Placed.schedYield (halive : Alive k) {cpu : Nat}
    (hyield : k.schedYield cpu = .ok k') : PlacedStep k k' others := by
  have hrun : ∀ {slots e}, k.findRunnable slots = some e →
      PlacedStep k (k.envRun cpu e) others := by
    intro slots e hfind
    have hrunnable := findRunnable_eq_some hfind
    exact hplaced.envRun halive cpu (.inl hrunnable) (by rw [hrunnable]; nofun)
  unfold Kern.schedYield at hyield
  split at hyield
  · next hnone =>
      split at hyield
      · next hfind =>
          cases hyield
          exact hrun hfind
      · refine hplaced.schedHalt halive (fun e he => ?_) hyield
        cases hnone.symm.trans he
  · next c hcur =>
      split at hyield
      · next hfind =>
          cases hyield
          exact hrun hfind
      · split at hyield
        · next hfind =>
            cases hyield
            exact hrun hfind
        · split at hyield
          · next hrunning =>
              cases hyield
              exact hplaced.envRun halive cpu (.inr hcur) (by rw [hrunning]; nofun)
          · next hstopped =>
              refine hplaced.schedHalt halive (fun e he => ?_) hyield
              cases hcur.symm.trans he
              exact hstopped

end

theorem PlacedStep.trans (hfirst : PlacedStep k mid others) (hthen : PlacedStep mid k' others) :
    PlacedStep k k' others where
  toPlaced := hthen.toPlaced
  alive := hthen.alive
  pgdir e he := (hthen.pgdir e he).trans (hfirst.pgdir e he)

theorem Placed.trap {cpu : Nat} {dev : Int} (hplaced : Placed k others) (hcur : k.curenv = some c)
    (hstatus : (k.envs c).envStatus.OnCpu)
    (hcareful : (k.envs c).envStatus ≠ .dying →
      Machine.Careful (k.setEnv c { k.envs c with envTf := tf }) c tf)
    (htrap : k.trap cpu dev tf = .ok k') : PlacedStep k k' others := by
  have hlive : (k.envs c).envStatus ≠ .free := by
    obtain h | h := hstatus <;> rw [h] <;> nofun
  obtain ⟨mid, heffects, hnext⟩ := trap_effects hcur htrap
  have hmid : PlacedStep k mid others := by
    obtain ⟨-, hpgdir, hquiet⟩ | ⟨halive, heffects⟩ := heffects
    · exact (hplaced.freed hcur (hplaced.apart c hcur) (fun h => absurd rfl h)
        hpgdir).trans_quiet hquiet
    · have hsaved : Quiet k (k.setEnv c { k.envs c with envTf := tf }) := quiet_edit rfl
      have halive' : Alive k := by
        intro e he
        cases hcur.symm.trans he
        exact halive
      have hstep := (hplaced.of_quiet hsaved).effects (halive'.of_quiet hsaved) hcur
        (hsaved.status c ▸ hlive) (hcareful halive) heffects
      exact ⟨hstep.toPlaced, hstep.alive, fun e he => (hstep.pgdir e he).trans (hsaved.pgdir e)⟩
  obtain hyield | ⟨e, hcur', rfl, hrun⟩ := hnext
  · exact hmid.trans (hmid.toPlaced.schedYield hmid.alive hyield)
  · refine hmid.trans (hmid.toPlaced.envRun hmid.alive cpu (.inr hcur') ?_)
    obtain hrunning | ⟨rfl, hquiet⟩ := hrun
    · rw [hrunning]
      nofun
    · rw [hquiet.status]
      exact hlive

theorem running_of_trap {cpu : Nat} {dev : Int} (hcur : k.curenv = some c)
    (htrap : k.trap cpu dev tf = .ok k') (hcur' : k'.curenv = some e) :
    (k'.envs e).envStatus = .running := by
  obtain ⟨mid, -, hyield | ⟨e', -, rfl, -⟩⟩ := trap_effects hcur htrap
  · exact ((yields_schedYield hyield).chosen e hcur').1
  · obtain ⟨hcur, hrunning, -⟩ := envRun_status mid cpu e'
    cases hcur.symm.trans hcur'
    exact hrunning

/-! ### Boot -/

theorem freeMembers_boot {vm : Vm} {kernPgdir envsAddr sstatus : Word}
    {programs : List (Image × EnvType)}
    (hboot : Kern.boot vm kernPgdir envsAddr sstatus programs = .ok k) : ∃ l, FreeMembers k l := by
  refine foldlM_invariant (P := fun k => ∃ l, FreeMembers k l) ?_ ?_ hboot
  · rintro k program k' - ⟨l, hl⟩ hstep
    obtain ⟨e, pgdir, vm, hhead, rfl⟩ := envCreate_eq hstep
    have hvm : FreeMembers { k with vm := vm } l := hl.congr rfl fun _ _ => rfl
    obtain ⟨l', -, hl'⟩ := hvm.pop hhead _
    exact ⟨l', hl'⟩
  · obtain ⟨l, hl⟩ := freeEnvs_ready ⟨vm, kernPgdir, envsAddr, sstatus, rfl⟩
    exact ⟨l, hl.toFreeMembers⟩

theorem not_onCpu_boot {vm : Vm} {kernPgdir envsAddr sstatus : Word}
    {programs : List (Image × EnvType)}
    (hboot : Kern.boot vm kernPgdir envsAddr sstatus programs = .ok k) (e : Nat) :
    ¬(k.envs e).envStatus.OnCpu := by
  refine holds_boot (P := fun _ env => ¬env.envStatus.OnCpu) ?_ ?_ hboot e
  · rintro e link (h | h) <;> cases h
  · rintro e env pgdir tp entry id type - (h | h) <;> cases h

end Kern

namespace Machine

variable {m m' : Machine}

def Elsewhere (m : Machine) (cpu e : Nat) : Prop := ∃ cpu', cpu' ≠ cpu ∧ m.cpuEnv cpu' = some e

/-- The invariant: an environment has the status of a CPU if and only if a CPU runs it. -/
structure Placed (m : Machine) : Prop where
  unique : ∀ cpu cpu' e, m.cpuEnv cpu = some e → m.cpuEnv cpu' = some e → cpu = cpu'
  onCpu : ∀ e, (m.kern.envs e).envStatus.OnCpu ↔ ∃ cpu, m.cpuEnv cpu = some e
  free : ∃ l, Kern.FreeMembers m.kern l

theorem Placed.exclusive (hplaced : m.Placed) : m.Exclusive where
  unique := hplaced.unique
  onCpu e he := by
    obtain ⟨cpu, hcpu⟩ := (hplaced.onCpu e).mp he
    exact ⟨cpu, hcpu, fun cpu' hcpu' => hplaced.unique cpu' cpu e hcpu' hcpu⟩

theorem Placed.seen (hplaced : m.Placed) (cpu : Nat) (vm : Vm) (sstatus : Word) :
    Kern.Placed { m.kern with curenv := m.cpuEnv cpu, sstatus := sstatus, vm := vm }
      (m.Elsewhere cpu) where
  apart e he := by
    rintro ⟨cpu', hne, he'⟩
    exact hne (hplaced.unique cpu' cpu e he' he)
  elsewhere e he := by
    obtain ⟨cpu', -, he'⟩ := he
    exact (hplaced.onCpu e).mpr ⟨cpu', he'⟩
  onCpu e he := by
    obtain ⟨cpu', he'⟩ := (hplaced.onCpu e).mp he
    by_cases hsame : cpu' = cpu
    · exact .inr (hsame ▸ he')
    · exact .inl ⟨cpu', hsame, he'⟩
  free := by
    obtain ⟨l, hl⟩ := hplaced.free
    exact ⟨l, hl.congr rfl fun _ _ => rfl⟩

theorem leave_cpuEnv_self (m : Machine) (cpu : Nat) (k : Kern) :
    (m.leave cpu k).cpuEnv cpu = k.curenv := Function.update_self ..

theorem leave_cpuEnv_of_ne (m : Machine) {cpu cpu' : Nat} (k : Kern) (hne : cpu' ≠ cpu) :
    (m.leave cpu k).cpuEnv cpu' = m.cpuEnv cpu' := Function.update_of_ne hne ..

theorem Placed.leave (hplaced : m.Placed) {cpu : Nat} {k : Kern}
    (hk : Kern.Placed k (m.Elsewhere cpu))
    (hrunning : ∀ e, k.curenv = some e → (k.envs e).envStatus = .running) :
    (m.leave cpu k).Placed := by
  have hself := m.leave_cpuEnv_self cpu k
  have hother : ∀ cpu', cpu' ≠ cpu → (m.leave cpu k).cpuEnv cpu' = m.cpuEnv cpu' :=
    fun cpu' => m.leave_cpuEnv_of_ne k
  refine ⟨fun cpu₁ cpu₂ e h₁ h₂ => ?_, fun e => ⟨fun he => ?_, ?_⟩, hk.free⟩
  · by_cases hcpu₁ : cpu₁ = cpu <;> by_cases hcpu₂ : cpu₂ = cpu
    · rw [hcpu₁, hcpu₂]
    · rw [hcpu₁, hself] at h₁
      rw [hother cpu₂ hcpu₂] at h₂
      exact absurd ⟨cpu₂, hcpu₂, h₂⟩ (hk.apart e h₁)
    · rw [hcpu₂, hself] at h₂
      rw [hother cpu₁ hcpu₁] at h₁
      exact absurd ⟨cpu₁, hcpu₁, h₁⟩ (hk.apart e h₂)
    · rw [hother cpu₁ hcpu₁] at h₁
      rw [hother cpu₂ hcpu₂] at h₂
      exact hplaced.unique cpu₁ cpu₂ e h₁ h₂
  · obtain ⟨cpu', hne, he'⟩ | hcur := hk.onCpu e he
    · exact ⟨cpu', (hother cpu' hne).trans he'⟩
    · exact ⟨cpu, hself.trans hcur⟩
  · rintro ⟨cpu', he'⟩
    by_cases hsame : cpu' = cpu
    · rw [hsame, hself] at he'
      exact .inl (hrunning e he')
    · rw [hother cpu' hsame] at he'
      exact hk.elsewhere e ⟨cpu', hsame, he'⟩

theorem Placed.step {event : Event} (hplaced : m.Placed) (hcareful : m.CarefulEvent event)
    (hstep : m.Step event m') : m'.Placed ∧ m.FreesOwn event.cpu m' := by
  have hown : ∀ {cpu k k'}, Kern.PlacedStep k k' (m.Elsewhere cpu) → k.envs = m.kern.envs →
      m.FreesOwn cpu (m.leave cpu k') := by
    rintro cpu k k' hk hsame e ⟨hbefore, hafter⟩ cpu' he
    by_contra hne
    refine hbefore ?_
    rw [← hsame, ← hk.pgdir e ⟨cpu', hne, he⟩]
    exact hafter
  cases hstep with
  | @trap cpu c user k hrunning hstatus hkernel =>
      have hk := (hplaced.seen cpu _ _).trap (k := m.enter cpu user) hrunning
        ((hplaced.onCpu c).mpr ⟨cpu, hrunning⟩) (hcareful c hrunning) hkernel
      exact ⟨hplaced.leave hk.toPlaced fun e he => Kern.running_of_trap hrunning hkernel he,
        hown hk rfl⟩
  | @tick cpu k hidle hkernel =>
      have hseen := hplaced.seen cpu m.kern.vm m.kern.sstatus
      rw [hidle] at hseen
      have hk := hseen.schedYield (by nofun) hkernel
      exact ⟨hplaced.leave hk.toPlaced fun e he =>
        ((Kern.yields_schedYield hkernel).chosen e he).1, hown hk rfl⟩

theorem placed_start (hboots : m.Boots) : m.Placed := by
  obtain ⟨vm, kernPgdir, envsAddr, sstatus, programs, k, -, hboot, rfl⟩ := hboots
  refine ⟨by nofun, fun e => ?_, Kern.freeMembers_boot hboot⟩
  exact iff_of_false (Kern.not_onCpu_boot hboot e) (by rintro ⟨cpu, h⟩; cases h)

/-- In every run of careful calls, an environment with the status of a CPU is current on exactly one,
and no step frees the current environment of another CPU. -/
theorem exclusive_of_reachable (hreach : Reachable Boots Step CarefulEvent m) :
    m.Exclusive ∧ ∀ event m', m.CarefulEvent event → m.Step event m' →
      m.FreesOwn event.cpu m' := by
  have hplaced : m.Placed := by
    refine hreach.invariant (P := Placed) (fun m => placed_start) ?_
    intro m event m' hplaced hcareful hstep
    exact (hplaced.step hcareful hstep).1
  exact ⟨hplaced.exclusive, fun event m' hcareful hstep => (hplaced.step hcareful hstep).2⟩

theorem idle_of_reachable {cpu cpu' : Nat}
    (hreach : Reachable Boots Step (fun _ event => event.cpu = cpu) m) (hne : cpu' ≠ cpu) :
    m.cpuEnv cpu' = none := by
  refine hreach.invariant (P := fun m => m.cpuEnv cpu' = none) ?_ ?_
  · rintro m ⟨vm, kernPgdir, envsAddr, sstatus, programs, k, -, -, rfl⟩
    rfl
  · rintro m event m' hidle rfl hstep
    cases hstep with
    | trap => exact (m.leave_cpuEnv_of_ne _ hne).trans hidle
    | tick => exact (m.leave_cpuEnv_of_ne _ hne).trans hidle

def statusScript (status : Word) : List (Machine → Event) :=
  [fun _ => .tick 0, fun m => m.ecall 0 { a0 := 7 },
    fun m => m.ecall 0 { a0 := 8, a1 := 0x1001, a2 := status }]

/-- A child that is set to `ENV_RUNNING` is on no CPU. -/
theorem set_running_on_no_cpu :
    ∃ m, Reachable Boots Step (fun _ _ => True) m ∧ ¬m.Exclusive := by
  have heval : ((bootScript Vm.small [(Kern.smallImage, .user)] (fun _ event => event.cpu == 0)
      (statusScript 3)).map fun m => ((m.kern.envs 1).envStatus, m.cpuEnv 0)) =
        some (.running, some 0) := by
    decide +kernel
  obtain ⟨m, hrun, hobs⟩ := Option.map_eq_some_iff.mp heval
  obtain ⟨hstatus, hcpu⟩ := Prod.mk.inj hobs
  refine ⟨m, reachable_of_bootScript (fun _ _ _ => trivial) hrun, fun hexclusive => ?_⟩
  obtain ⟨cpu, hcpu', -⟩ := hexclusive.onCpu 1 (.inl hstatus)
  by_cases hzero : cpu = 0
  · rw [hzero] at hcpu'
    cases hcpu.symm.trans hcpu'
  · have hreach : Reachable Boots Step (fun _ event => event.cpu = 0) m :=
      reachable_of_bootScript (fun _ _ h => by simpa using h) hrun
    cases (idle_of_reachable hreach hzero).symm.trans hcpu'

def plainCall (_m : Machine) : Event → Bool
  | .trap _ user => (Sysno.ofWord user.regs.a0 == some .exofork) ||
      (Sysno.ofWord user.regs.a0 == some .envSetStatus && user.regs.a2 == 2)
  | .tick _ => true

theorem carefulEvent_of_plainCall (m : Machine) (event : Event) (hplain : plainCall m event = true) :
    m.CarefulEvent event := by
  cases event with
  | tick cpu => trivial
  | trap cpu user =>
      intro c _ _
      have hno : Sysno.ofWord user.regs.a0 = some .exofork ∨
          Sysno.ofWord user.regs.a0 = some .envSetStatus ∧ user.regs.a2 = 2 := by
        simpa [plainCall] using hplain
      refine ⟨fun hcall e status _ _ harg => ?_, fun hcall => ?_, fun hcall => ?_⟩
      · obtain h | ⟨-, h⟩ := hno
        · cases hcall.2.symm.trans h
        · have harg' : user.frame.a2 = 2 := h
          rw [harg'] at harg
          cases harg
          rintro (h | h) <;> cases h
      · obtain h | ⟨h, -⟩ := hno <;> cases hcall.2.symm.trans h
      · obtain h | ⟨h, -⟩ := hno <;> cases hcall.2.symm.trans h

/-- The same run with a child that is set to `ENV_RUNNABLE`. -/
theorem set_runnable_exclusive :
    ∃ m : Machine, (m.kern.envs 1).envStatus = .runnable ∧ m.cpuEnv 0 = some 0 ∧ m.Exclusive := by
  have heval : ((bootScript Vm.small [(Kern.smallImage, .user)] plainCall
      (statusScript 2)).map fun m => ((m.kern.envs 1).envStatus, m.cpuEnv 0)) =
        some (.runnable, some 0) := by
    decide +kernel
  obtain ⟨m, hrun, hobs⟩ := Option.map_eq_some_iff.mp heval
  obtain ⟨hstatus, hcpu⟩ := Prod.mk.inj hobs
  exact ⟨m, hstatus, hcpu,
    (exclusive_of_reachable (reachable_of_bootScript carefulEvent_of_plainCall hrun)).1⟩

end Machine

end ZynexOS
