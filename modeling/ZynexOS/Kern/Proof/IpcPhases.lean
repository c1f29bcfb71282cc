import ZynexOS.Kern.Ipc
import ZynexOS.Kern.Proof.SchedLemmas

/-!
# The phases of a receive in the kernel's state

While a receive is pending, the frame that will be restored stands at the `ecall`; once a send is
delivered, it stands behind it with 0 in `a0`.
-/

namespace ZynexOS

open Library Function

namespace Observed

variable {e cpu : Nat} {phase : Phase} {tf : Trapframe} {env : Env}

structure AtCall (pc dstva : Word) (tf : Trapframe) : Prop where
  sepc : tf.sepc = pc
  number : Sysno.ofWord tf.a0 = some .ipcRecv
  dstva : tf.a1 = dstva

/-- What the phase of `e` means for its outstanding receive, its entry and its registers. -/
def PhaseInv (cpus : Nat → Option Nat) (regs : Nat → Trapframe) (waiting : Option Word) (e : Nat)
    (env : Env) : Phase → Prop
  | .idle => waiting = none ∧ env.envIpcRecving = false
  | .pending dstva => ∃ pc, waiting = some pc ∧ env.envIpcRecving = true ∧ badDstva dstva = false ∧
      (∀ cpu, cpus cpu = some e → AtCall pc dstva (regs cpu)) ∧
      ((∀ cpu, cpus cpu ≠ some e) → AtCall pc dstva env.envTf ∧ env.envTf.origA0 ≠ 10)
  | .delivered => ∃ pc, waiting = some pc ∧ env.envIpcRecving = false ∧
      (∀ cpu, cpus cpu ≠ some e) ∧ env.envTf.sepc = pc + 4 ∧ env.envTf.a0 = 0 ∧
      env.envTf.origA0 ≠ 10

structure IpcInv (cpus : Nat → Option Nat) (regs : Nat → Trapframe) (waiting : Nat → Option Word)
    (log : List IpcEvent) (envs : Nat → Env) : Prop where
  running : ∀ cpu e, cpus cpu = some e → (envs e).envStatus = .running
  unique : ∀ cpu cpu' e, cpus cpu = some e → cpus cpu' = some e → cpu = cpu'
  phase : ∀ e, ∃ phase, phaseOf e log = some phase ∧
    PhaseInv cpus regs (waiting e) e (envs e) phase

variable {cpus : Nat → Option Nat} {regs : Nat → Trapframe} {waiting : Nat → Option Word}
  {log : List IpcEvent} {envs envs' : Nat → Env}

theorem origA0_ne_yield {a0 : Word} (hnumber : Sysno.ofWord a0 = some .ipcRecv) : a0 ≠ 10 := by
  rintro rfl
  exact absurd hnumber (by decide)

theorem phaseOf_cons_of_ne {event : IpcEvent} (hne : event.env ≠ e) :
    phaseOf e (event :: log) = phaseOf e log := by
  rw [phaseOf, if_neg hne]

theorem phaseOf_cons_self (event : IpcEvent) (hphase : phaseOf event.env log = some phase) :
    phaseOf event.env (event :: log) = phase.next event := by
  rw [phaseOf, if_pos rfl, hphase]
  rfl

structure SameCall (tf tf' : Trapframe) : Prop where
  sepc : tf'.sepc = tf.sepc
  a0 : tf'.a0 = tf.a0
  a1 : tf'.a1 = tf.a1
  orig : tf.origA0 ≠ 10 → tf'.origA0 ≠ 10

theorem SameCall.atCall {pc dstva : Word} {tf' : Trapframe} (hsame : SameCall tf tf')
    (hcall : AtCall pc dstva tf) : AtCall pc dstva tf' :=
  ⟨hsame.sepc.trans hcall.sepc, hsame.a0 ▸ hcall.number, hsame.a1.trans hcall.dstva⟩

theorem PhaseInv.congr {waiting : Option Word} {env' : Env}
    (hphase : PhaseInv cpus regs waiting e env phase)
    (hrecving : env'.envIpcRecving = env.envIpcRecving) (htf : SameCall env.envTf env'.envTf) :
    PhaseInv cpus regs waiting e env' phase := by
  cases phase with
  | idle => exact ⟨hphase.1, hrecving.trans hphase.2⟩
  | pending dstva =>
      obtain ⟨pc, hwaiting, hrecv, hgood, hon, hoff⟩ := hphase
      refine ⟨pc, hwaiting, hrecving.trans hrecv, hgood, hon, ?_⟩
      intro hnone
      exact ⟨htf.atCall (hoff hnone).1, htf.orig (hoff hnone).2⟩
  | delivered =>
      obtain ⟨pc, hwaiting, hrecv, hoff, hsepc, hzero, horig⟩ := hphase
      exact ⟨pc, hwaiting, hrecving.trans hrecv, hoff, htf.sepc.trans hsepc, htf.a0.trans hzero,
        htf.orig horig⟩

section

variable (hinv : IpcInv cpus regs waiting log envs) (hoff : ∀ cpu, cpus cpu ≠ some e)
include hinv hoff

theorem IpcInv.change {waiting' : Nat → Option Word} {log' : List IpcEvent}
    (hwaiting : ∀ e', e' ≠ e → waiting' e' = waiting e')
    (hlog : ∀ e', e' ≠ e → phaseOf e' log' = phaseOf e' log)
    (hphase : ∃ phase, phaseOf e log' = some phase ∧
      PhaseInv cpus regs (waiting' e) e env phase) :
    IpcInv cpus regs waiting' log' (update envs e env) where
  running cpu e' hcpu := by
    have hne : e' ≠ e := fun h => hoff cpu (h ▸ hcpu)
    rw [update_of_ne hne]
    exact hinv.running cpu e' hcpu
  unique := hinv.unique
  phase e' := by
    by_cases he : e' = e
    · rw [he, update_self]
      exact hphase
    · rw [update_of_ne he, hwaiting e' he, hlog e' he]
      exact hinv.phase e'

theorem IpcInv.update_same (hrecving : env.envIpcRecving = (envs e).envIpcRecving)
    (htf : SameCall (envs e).envTf env.envTf) :
    IpcInv cpus regs waiting log (update envs e env) := by
  refine hinv.change hoff (fun _ _ => rfl) (fun _ _ => rfl) ?_
  obtain ⟨phase, hphase, hmeans⟩ := hinv.phase e
  exact ⟨phase, hphase, hmeans.congr hrecving htf⟩

theorem IpcInv.update_idle (hidle : phaseOf e log = some .idle)
    (hrecving : env.envIpcRecving = (envs e).envIpcRecving) :
    IpcInv cpus regs waiting log (update envs e env) := by
  refine hinv.change hoff (fun _ _ => rfl) (fun _ _ => rfl) ⟨.idle, hidle, ?_⟩
  obtain ⟨phase, hphase, hmeans⟩ := hinv.phase e
  rw [hidle] at hphase
  cases hphase
  exact ⟨hmeans.1, hrecving.trans hmeans.2⟩

end

theorem PhaseInv.other {cpus' : Nat → Option Nat} {regs' : Nat → Trapframe} {waiting : Option Word}
    (hphase : PhaseInv cpus regs waiting e env phase)
    (hcpus : ∀ cpu, cpus' cpu = some e ↔ cpus cpu = some e)
    (hregs : ∀ cpu, cpus cpu = some e → regs' cpu = regs cpu) :
    PhaseInv cpus' regs' waiting e env phase := by
  cases phase with
  | idle => exact hphase
  | pending dstva =>
      obtain ⟨pc, hwaiting, hrecv, hgood, hon, hoff⟩ := hphase
      refine ⟨pc, hwaiting, hrecv, hgood, ?_, ?_⟩
      · intro cpu hcpu
        rw [hcpus] at hcpu
        rw [hregs cpu hcpu]
        exact hon cpu hcpu
      · intro hnone
        exact hoff fun cpu hcpu => hnone cpu ((hcpus cpu).mpr hcpu)
  | delivered =>
      obtain ⟨pc, hwaiting, hrecv, hoff, hframe⟩ := hphase
      exact ⟨pc, hwaiting, hrecv, fun cpu hcpu => hoff cpu ((hcpus cpu).mp hcpu), hframe⟩

theorem off_of_update {c : Nat} (hinv : IpcInv cpus regs waiting log envs)
    (hcpu : cpus cpu = some c) (cpu' : Nat) : update cpus cpu none cpu' ≠ some c := by
  by_cases hsame : cpu' = cpu
  · rw [hsame, update_self]
    nofun
  · rw [update_of_ne hsame]
    exact fun h => hsame (hinv.unique cpu' cpu c h hcpu)

theorem IpcInv.enter (hinv : IpcInv cpus regs waiting log envs) {c : Nat} (hcpu : cpus cpu = some c)
    (htf : ∀ pc dstva, waiting c = some pc → AtCall pc dstva (regs cpu) →
      AtCall pc dstva tf ∧ tf.origA0 ≠ 10) :
    IpcInv (update cpus cpu none) regs waiting log
      (update envs c { envs c with envTf := tf }) := by
  have hother : ∀ e, e ≠ c → ∀ cpu', update cpus cpu none cpu' = some e ↔
      cpus cpu' = some e := by
    intro e he cpu'
    by_cases hsame : cpu' = cpu
    · rw [hsame, update_self, hcpu]
      simp [he.symm]
    · rw [update_of_ne hsame]
  refine ⟨?_, ?_, ?_⟩
  · intro cpu' e hcpu'
    have he : e ≠ c := fun h => off_of_update hinv hcpu cpu' (h ▸ hcpu')
    rw [update_of_ne he]
    exact hinv.running cpu' e ((hother e he cpu').mp hcpu')
  · intro cpu₁ cpu₂ e h₁ h₂
    have he : e ≠ c := fun h => off_of_update hinv hcpu cpu₁ (h ▸ h₁)
    exact hinv.unique cpu₁ cpu₂ e ((hother e he cpu₁).mp h₁) ((hother e he cpu₂).mp h₂)
  · intro e
    obtain ⟨phase, hphase, hmeans⟩ := hinv.phase e
    refine ⟨phase, hphase, ?_⟩
    by_cases he : e = c
    · subst he
      rw [update_self]
      cases phase with
      | idle => exact hmeans
      | pending dstva =>
          obtain ⟨pc, hwaiting, hrecv, hgood, hon, -⟩ := hmeans
          refine ⟨pc, hwaiting, hrecv, hgood, ?_, fun _ => htf pc dstva hwaiting (hon cpu hcpu)⟩
          exact fun cpu' hcpu' => absurd hcpu' (off_of_update hinv hcpu cpu')
      | delivered =>
          obtain ⟨pc, -, -, hoff, -⟩ := hmeans
          exact absurd hcpu (hoff cpu)
    · rw [update_of_ne he]
      exact hmeans.other (hother e he) fun _ _ => rfl

def Inv (o : Observed) : Prop :=
  IpcInv o.machine.cpuEnv o.machine.regs o.waiting o.log o.machine.kern.envs

theorem popTf_of_ne (htf : tf.origA0 ≠ 10) : popTf tf = tf := if_neg htf

theorem IpcInv.run (hinv : IpcInv cpus regs waiting log envs)
    {waiting' : Nat → Option Word} {log' : List IpcEvent} (hfree : cpus cpu = none)
    (hoff : ∀ cpu', cpus cpu' ≠ some e) (hrunning : (envs e).envStatus = .running)
    (hwaiting : ∀ e', e' ≠ e → waiting' e' = waiting e')
    (hlog : ∀ e', e' ≠ e → phaseOf e' log' = phaseOf e' log)
    (hphase : ∃ phase, phaseOf e log' = some phase ∧
      PhaseInv (update cpus cpu (some e)) (update regs cpu tf) (waiting' e) e
        (envs e) phase) :
    IpcInv (update cpus cpu (some e)) (update regs cpu tf) waiting' log' envs := by
  have hothers : ∀ e', e' ≠ e → ∀ cpu', update cpus cpu (some e) cpu' = some e' ↔
      cpus cpu' = some e' := by
    intro e' he cpu'
    by_cases hsame : cpu' = cpu
    · rw [hsame, update_self, hfree]
      simp [he.symm]
    · rw [update_of_ne hsame]
  have hhere : ∀ cpu', update cpus cpu (some e) cpu' = some e → cpu' = cpu := by
    intro cpu' hcpu'
    by_contra hne
    rw [update_of_ne hne] at hcpu'
    exact hoff cpu' hcpu'
  refine ⟨?_, ?_, ?_⟩
  · intro cpu' e' hcpu'
    by_cases he : e' = e
    · rw [he]
      exact hrunning
    · exact hinv.running cpu' e' ((hothers e' he cpu').mp hcpu')
  · intro cpu₁ cpu₂ e' h₁ h₂
    by_cases he : e' = e
    · subst he
      exact (hhere cpu₁ h₁).trans (hhere cpu₂ h₂).symm
    · exact hinv.unique cpu₁ cpu₂ e' ((hothers e' he cpu₁).mp h₁) ((hothers e' he cpu₂).mp h₂)
  · intro e'
    by_cases he : e' = e
    · subst he
      exact hphase
    · rw [hwaiting e' he, hlog e' he]
      obtain ⟨phase, hphase', hmeans⟩ := hinv.phase e'
      refine ⟨phase, hphase', hmeans.other (hothers e' he) ?_⟩
      intro cpu' hcpu'
      have hne : cpu' ≠ cpu := by
        rintro rfl
        rw [hfree] at hcpu'
        cases hcpu'
      exact update_of_ne hne _ _

theorem add_four_ne (pc : Word) : pc + 4 ≠ pc := by
  intro h
  have := congrArg BitVec.toNat h
  simp only [BitVec.toNat_add, show (4 : Word).toNat = 4 from rfl] at this
  omega

theorem IpcInv.leave {m : Machine} {k : Kern}
    (hinv : IpcInv (update m.cpuEnv cpu none) m.regs waiting log k.envs)
    (hnext : ∀ e, k.curenv = some e → (k.envs e).envStatus = .running ∧
      ∀ cpu', update m.cpuEnv cpu none cpu' ≠ some e) :
    (resume waiting log (m.leave cpu k) cpu).Inv := by
  cases hcur : k.curenv with
  | none =>
      have hleave : resume waiting log (m.leave cpu k) cpu = ⟨m.leave cpu k, waiting, log⟩ := by
        simp [resume, Machine.leave, hcur]
      rw [hleave]
      unfold Inv Machine.leave
      simp only [hcur]
      exact hinv
  | some e =>
      obtain ⟨hrunning, hoff⟩ := hnext e hcur
      have hcpus : (m.leave cpu k).cpuEnv
          = update (update m.cpuEnv cpu none) cpu (some e) := by
        rw [update_idem]
        exact congrArg (update m.cpuEnv cpu) hcur
      have hregs : (m.leave cpu k).regs
          = update m.regs cpu (popTf (k.envs e).envTf) := by
        simp only [Machine.leave, hcur]
      have hhere : (m.leave cpu k).cpuEnv cpu = some e := by
        rw [hcpus, update_self]
      have hreg : (m.leave cpu k).regs cpu = popTf (k.envs e).envTf := by
        rw [hregs, update_self]
      obtain ⟨phase, hphase, hmeans⟩ := hinv.phase e
      cases phase with
      | idle =>
          have hresume : resume waiting log (m.leave cpu k) cpu
              = ⟨m.leave cpu k, waiting, log⟩ := by
            simp only [resume, hhere, hmeans.1]
          rw [hresume, Inv, hcpus, hregs]
          exact hinv.run (update_self ..) hoff hrunning (fun _ _ => rfl) (fun _ _ => rfl)
            ⟨.idle, hphase, hmeans⟩
      | pending dstva =>
          obtain ⟨pc, hwaiting, hrecv, hgood, -, hcall⟩ := hmeans
          obtain ⟨hcall, horig⟩ := hcall hoff
          rw [popTf_of_ne horig] at hreg hregs
          have hresume : resume waiting log (m.leave cpu k) cpu
              = ⟨m.leave cpu k, waiting, log⟩ := by
            simp only [resume, hhere, hwaiting, hreg, hcall.sepc, if_true]
          rw [hresume, Inv, hcpus, hregs]
          refine hinv.run (update_self ..) hoff hrunning (fun _ _ => rfl) (fun _ _ => rfl)
            ⟨.pending dstva, hphase, pc, hwaiting, hrecv, hgood, ?_, fun _ => ⟨hcall, horig⟩⟩
          intro cpu' hcpu'
          have hsame : cpu' = cpu := by
            by_contra hne
            rw [update_of_ne hne] at hcpu'
            exact hoff cpu' hcpu'
          rw [hsame, update_self]
          exact hcall
      | delivered =>
          obtain ⟨pc, hwaiting, hrecv, -, hsepc, hzero, horig⟩ := hmeans
          rw [popTf_of_ne horig] at hreg hregs
          have hresume : resume waiting log (m.leave cpu k) cpu
              = ⟨m.leave cpu k, update waiting e none, .back e 0 :: log⟩ := by
            simp only [resume, hhere, hwaiting, hreg, hsepc, hzero, if_neg (add_four_ne pc)]
          rw [hresume, Inv, hcpus, hregs]
          refine hinv.run (update_self ..) hoff hrunning
            (fun e' he => update_of_ne he _ _) (fun e' he => phaseOf_cons_of_ne he.symm)
            ⟨.idle, ?_, update_self .., hrecv⟩
          exact phaseOf_cons_self (.back e 0) hphase

end Observed

end ZynexOS
