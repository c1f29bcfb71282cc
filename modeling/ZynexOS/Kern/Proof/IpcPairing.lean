import ZynexOS.Kern.Proof.IpcPhases
import ZynexOS.Kern.Proof.IpcDelivery

/-!
# Sends and receives in one-to-one correspondence

Each kind of trap moves the phase of one environment, and its entry moves with it.
-/

namespace ZynexOS

open Library Function

namespace Observed

variable {cpus : Nat → Option Nat} {regs : Nat → Trapframe} {waiting : Nat → Option Word}
  {log : List IpcEvent} {k k' : Kern} {c : Nat} {tf : Trapframe}
variable {no : Sysno} {e : Nat} {m : Machine}

/-! ### One call -/

structure InKernel (cpus : Nat → Option Nat) (regs : Nat → Trapframe) (waiting : Nat → Option Word)
    (log : List IpcEvent) (k : Kern) (c : Nat) : Prop where
  inv : IpcInv cpus regs waiting log k.envs
  current : k.curenv = some c
  off : ∀ cpu, cpus cpu ≠ some c

theorem InKernel.idle (hk : InKernel cpus regs waiting log k c)
    (hphase : phaseOf c log ≠ some .delivered)
    (hno : Sysno.ofWord (k.envs c).envTf.a0 = some no) (hother : no ≠ .ipcRecv) :
    phaseOf c log = some .idle ∧ waiting c = none ∧ (k.envs c).envIpcRecving = false := by
  obtain ⟨phase, hphase', hmeans⟩ := hk.inv.phase c
  cases phase with
  | idle => exact ⟨hphase', hmeans⟩
  | pending dstva =>
      obtain ⟨pc, -, -, -, -, hcall⟩ := hmeans
      exact absurd (Option.some.inj (hno.symm.trans (hcall hk.off).1.number)) hother
  | delivered => exact absurd hphase' hphase

theorem InKernel.edit (hk : InKernel cpus regs waiting log k c) {tf' : Trapframe}
    (htf : SameCall (k.envs c).envTf tf') :
    InKernel cpus regs waiting log (k.setEnv c { k.envs c with envTf := tf' }) c :=
  ⟨hk.inv.update_same hk.off rfl htf, hk.current, hk.off⟩

theorem InKernel.advance (hk : InKernel cpus regs waiting log k c) (ret : Int)
    (hidle : phaseOf c log = some .idle) :
    InKernel cpus regs waiting log (k.setEnv c { k.envs c with
      envTf := { (k.envs c).envTf with
        a0 := BitVec.ofInt 64 ret, sepc := (k.envs c).envTf.sepc + 4 } }) c :=
  ⟨hk.inv.update_idle hk.off hidle rfl, hk.current, hk.off⟩

theorem badDstva_eq_false {dstva : Word} (hgood : badDstva dstva = false) :
    dstva < utop → dstva.toNat % pgSize = 0 := by
  intro hbelow
  by_contra hmod
  have : badDstva dstva = true := by
    simp [badDstva, hbelow, hmod]
  rw [hgood] at this
  cases this

theorem InKernel.recv (hk : InKernel cpus regs waiting log k c)
    (hphase : phaseOf c log ≠ some .delivered)
    (hno : Sysno.ofWord (k.envs c).envTf.a0 = some .ipcRecv) (horig : (k.envs c).envTf.origA0 ≠ 10)
    (hgood : badDstva (k.envs c).envTf.a1 = false) {exit : SysExit}
    (hcall : k.sysIpcRecv (k.envs c).envTf.a1 = .ok (exit, k')) :
    exit = .resched ∧
      InKernel cpus regs (update waiting c (some (k.envs c).envTf.sepc))
        (if waiting c = none then .recv c (k.envs c).envTf.a1 :: log else log) k' c := by
  obtain ⟨c', hcur, hrest⟩ := bind_eq_ok.mp hcall
  obtain rfl : c' = c := Option.some.inj ((Kern.cur_eq_ok.mp hcur).symm.trans hk.current)
  obtain ⟨phase, hphase', hmeans⟩ := hk.inv.phase c'
  have hself : AtCall (k.envs c').envTf.sepc (k.envs c').envTf.a1 (k.envs c').envTf :=
    ⟨rfl, hno, rfl⟩
  cases phase with
  | idle =>
      -- a new receive: the entry is marked and the frame left at the `ecall`
      rw [if_pos hmeans.1]
      have hpending : ∀ env : Env, env.envIpcRecving = true → env.envTf = (k.envs c').envTf →
          InKernel cpus regs (update waiting c' (some (k.envs c').envTf.sepc))
            (.recv c' (k.envs c').envTf.a1 :: log) (k.setEnv c' env) c' := by
        intro env hrecv htf
        refine ⟨hk.inv.change hk.off (fun e he => update_of_ne he _ _)
          (fun e he => phaseOf_cons_of_ne he.symm) ?_, hk.current, hk.off⟩
        refine ⟨.pending (k.envs c').envTf.a1, ?_, (k.envs c').envTf.sepc, update_self ..,
          hrecv, hgood, fun cpu hcpu => absurd hcpu (hk.off cpu), ?_⟩
        · exact phaseOf_cons_self (.recv c' (k.envs c').envTf.a1) hphase'
        · intro _
          rw [htf]
          exact ⟨hself, horig⟩
      dsimp only at hrest
      rw [if_neg (Bool.eq_false_iff.mp hmeans.2)] at hrest
      split at hrest
      · next hbelow =>
          rw [if_neg (not_not.mpr (badDstva_eq_false hgood hbelow))] at hrest
          cases pure_eq_ok.mp hrest
          exact ⟨rfl, hpending _ rfl rfl⟩
      · cases pure_eq_ok.mp hrest
        exact ⟨rfl, hpending _ rfl rfl⟩
  | pending dstva =>
      obtain ⟨pc, hwaiting, hrecv, -, -, hcall⟩ := hmeans
      have hpc : (k.envs c').envTf.sepc = pc := (hcall hk.off).1.sepc
      dsimp only at hrest
      rw [if_pos hrecv] at hrest
      cases pure_eq_ok.mp hrest
      rw [if_neg (by rw [hwaiting]; nofun), hpc, ← hwaiting, update_eq_self]
      exact ⟨rfl, hk.inv.update_same hk.off rfl ⟨rfl, rfl, rfl, id⟩, hk.current, hk.off⟩
  | delivered => exact absurd hphase' hphase

theorem InKernel.deliver (hk : InKernel cpus regs waiting log k c)
    (hidle : phaseOf c log = some .idle) (hrecving : (k.envs e).envIpcRecving = true)
    (hoff : ∀ cpu, cpus cpu ≠ some e) (sender : BitVec 32) (value : Word) (perm : BitVec 32)
    (vm : Vm) :
    InKernel cpus regs waiting (.send e :: log)
        (({ k with vm := vm } : Kern).setEnv e (Kern.ipcDeliver (k.envs e) sender value perm)) c ∧
      phaseOf c (.send e :: log) = some .idle := by
  obtain ⟨phase, hphase, hmeans⟩ := hk.inv.phase e
  cases phase with
  | idle =>
      rw [hmeans.2] at hrecving
      cases hrecving
  | pending dstva =>
      obtain ⟨pc, hwaiting, -, hgood, -, hcall⟩ := hmeans
      obtain ⟨hcall, horig⟩ := hcall hoff
      have hne : c ≠ e := by
        rintro rfl
        rw [hidle] at hphase
        cases hphase
      refine ⟨⟨hk.inv.change hoff (fun _ _ => rfl) (fun e' he => phaseOf_cons_of_ne he.symm) ?_,
        hk.current, hk.off⟩, ?_⟩
      · refine ⟨.delivered, ?_, pc, hwaiting, rfl, hoff, ?_, rfl, horig⟩
        · exact (phaseOf_cons_self (.send e) hphase).trans (if_neg (Bool.eq_false_iff.mp hgood))
        · exact congrArg (· + 4) hcall.sepc
      · rw [phaseOf_cons_of_ne (show (IpcEvent.send e).env ≠ c from hne.symm)]
        exact hidle
  | delivered =>
      obtain ⟨pc, -, hrecv, -⟩ := hmeans
      rw [hrecv] at hrecving
      cases hrecving

theorem InKernel.setStatus (hk : InKernel cpus regs waiting log k c) {envid status : BitVec 32}
    {exit : SysExit}
    (hcall : k.sysEnvSetStatus envid status = .ok (exit, k')) :
    InKernel cpus regs waiting log k' c := by
  unfold Kern.sysEnvSetStatus at hcall
  split at hcall
  · cases hcall
    exact hk
  · obtain ⟨found, henv, hrest⟩ := bind_eq_ok.mp hcall
    cases found with
    | none =>
        cases pure_eq_ok.mp hrest
        exact hk
    | some e =>
        dsimp only at hrest
        split at hrest
        · next hstopped =>
            simp only [pure_eq_ok, Prod.mk.injEq] at hrest
            have hoff : ∀ cpu, cpus cpu ≠ some e := by
              intro cpu hcpu
              rw [hk.inv.running cpu e hcpu] at hstopped
              exact absurd hstopped (by decide)
            exact hrest.2 ▸ ⟨hk.inv.update_same hoff rfl ⟨rfl, rfl, rfl, id⟩, hk.current, hk.off⟩
        · cases pure_eq_ok.mp hrest
          exact hk

theorem sentTo_of_neg {user : UserTrap} {ret : Int} (hret : ret < 0)
    (hcall : k.syscall user.dev user.regs.a0 user.regs.a1 user.regs.a2 user.regs.a3 user.regs.a4
      user.regs.a5 = .ok (.ret ret, k')) : sentTo k user = none := by
  unfold sentTo
  rw [hcall]
  split
  · split
    · next heq =>
        simp only [Except.ok.injEq, Prod.mk.injEq, SysExit.ret.injEq] at heq
        omega
    · rfl
  · rfl

theorem InKernel.send (hk : InKernel cpus regs waiting log k c) {user : UserTrap}
    (hsend : user.calls .ipcTrySend) (hidle : phaseOf c log = some .idle)
    (hoff : ∀ e, k.envid2env (user.regs.a1.setWidth 32) false = .ok (some e) →
      (k.envs e).envIpcRecving = true → ∀ cpu, cpus cpu ≠ some e) {ret : Int}
    (hcall : k.syscall user.dev user.regs.a0 user.regs.a1 user.regs.a2 user.regs.a3 user.regs.a4
      user.regs.a5 = .ok (.ret ret, k')) :
    (sentTo k user = none ∧ InKernel cpus regs waiting log k' c) ∨
    ∃ e, sentTo k user = some e ∧ e ≠ c ∧ (k'.envs e).envStatus = .runnable ∧
      InKernel cpus regs waiting (.send e :: log) k' c ∧
      phaseOf c (.send e :: log) = some .idle := by
  obtain ⟨hret, vm, rfl⟩ | ⟨e, c', rfl, htarget, hrecving, hcur, hsent⟩ :=
    Kern.sysIpcTrySend_cases (Kern.syscall_ipcTrySend hsend.2 hcall)
  · exact .inl ⟨sentTo_of_neg hret hcall, hk.inv, hk.current, hk.off⟩
  · refine .inr ⟨e, ?_, ?_, ?_⟩
    · rw [sentTo, if_pos hsend, hcall, htarget]
      rfl
    · rintro rfl
      obtain ⟨phase, hphase, hmeans⟩ := hk.inv.phase e
      rw [hidle] at hphase
      cases hphase
      rw [hmeans.2] at hrecving
      cases hrecving
    · have hdeliver := fun perm vm =>
        hk.deliver hidle hrecving (hoff e htarget hrecving) (k.envs c').envId
          ((user.regs.a2.setWidth 32).setWidth 64) perm vm
      obtain ⟨-, rfl⟩ | ⟨-, pp, vm, -, rfl⟩ := hsent
      · exact ⟨by rw [Kern.setEnv_envs_self]; rfl, hdeliver 0 k.vm⟩
      · exact ⟨by rw [Kern.setEnv_envs_self]; rfl, hdeliver _ vm⟩

/-! ### One trap -/

def Wakes (k : Kern) (user : UserTrap) (c : Nat) (k' : Kern) : Prop :=
  ∀ e, sentTo k user = some e → e ≠ c ∧ (k'.envs e).envStatus = .runnable

theorem sentTo_of_not_send {user : UserTrap} (hsend : ¬user.calls .ipcTrySend) :
    sentTo k user = none := if_neg hsend

theorem not_calls_of_cause {user : UserTrap} (no : Sysno)
    (hcause : Cause.ofScause user.scause ≠ .syscall) : ¬user.calls no := fun h => hcause h.1

theorem calls_unique {user : UserTrap} {no' : Sysno} (h : user.calls no) (h' : user.calls no') :
    no = no' := Option.some.inj (h.2.symm.trans h'.2)

theorem inCall_envTf (m : Machine) (cpu c : Nat) (user : UserTrap) :
    ((m.inCall cpu c user).envs c).envTf = user.frame := by
  rw [Machine.inCall, Kern.setEnv_envs_self]

theorem InKernel.waiting_of_recving (hk : InKernel cpus regs waiting log k c)
    (hrecving : (k.envs e).envIpcRecving = true) : waiting e ≠ none := by
  obtain ⟨phase, -, hmeans⟩ := hk.inv.phase e
  cases phase with
  | idle =>
      rw [hmeans.2] at hrecving
      cases hrecving
  | pending dstva =>
      obtain ⟨pc, hwaiting, -⟩ := hmeans
      rw [hwaiting]
      nofun
  | delivered =>
      obtain ⟨pc, hwaiting, -⟩ := hmeans
      rw [hwaiting]
      nofun

section Dispatch

variable {o : Observed} {cpu : Nat} {user : UserTrap} {exit : TrapExit} {mid : Kern}
  (hk : InKernel (update o.machine.cpuEnv cpu none) o.machine.regs o.waiting o.log
    (o.machine.inCall cpu c user) c)
  (hphase : phaseOf c o.log ≠ some .delivered)
  (hdispatch : (o.machine.inCall cpu c user).trapDispatch user.dev c = .ok (exit, mid))

def Dispatched (o : Observed) (cpu c : Nat) (user : UserTrap) (mid : Kern) : Prop :=
  InKernel (update o.machine.cpuEnv cpu none) o.machine.regs (o.waitingIn c user)
    (o.logIn cpu c user) mid c ∧ Wakes (o.machine.inCall cpu c user) user c mid

theorem dispatched_of_quiet (hsend : ¬user.calls .ipcTrySend) (hrecv : ¬user.calls .ipcRecv)
    (hmid : InKernel (update o.machine.cpuEnv cpu none) o.machine.regs o.waiting o.log
      mid c) : Dispatched o cpu c user mid := by
  have hsent : sentTo (o.machine.inCall cpu c user) user = none := sentTo_of_not_send hsend
  refine ⟨?_, fun e h => ?_⟩
  · rw [waitingIn, if_neg hrecv, logIn, if_neg hrecv, hsent]
    exact hmid
  · rw [hsent] at h
    cases h

include hk hdispatch

theorem dispatched_interrupt
    (hcause : Cause.ofScause user.scause = .timer ∨ Cause.ofScause user.scause = .interrupt) :
    Dispatched o cpu c user mid := by
  have hother : Cause.ofScause user.scause ≠ .syscall := by
    rintro h
    rw [h] at hcause
    exact absurd hcause (by decide)
  refine dispatched_of_quiet (not_calls_of_cause _ hother) (not_calls_of_cause _ hother) ?_
  have hscause : ((o.machine.inCall cpu c user).envs c).envTf.scause = user.scause := by
    rw [inCall_envTf]
    rfl
  unfold Kern.trapDispatch at hdispatch
  dsimp only at hdispatch
  rw [hscause] at hdispatch
  obtain htimer | hinterrupt := hcause
  · rw [htimer] at hdispatch
    cases hdispatch
    exact hk.edit ⟨rfl, rfl, rfl, fun _ => show (0 : Word) ≠ 10 by decide⟩
  · rw [hinterrupt] at hdispatch
    cases hdispatch
    exact hk.edit ⟨rfl, rfl, rfl, id⟩

theorem dispatched_yield (hyield : user.calls .yield) : Dispatched o cpu c user mid := by
  have hother : ∀ no, no ≠ .yield → ¬user.calls no := fun no hne h => hne (calls_unique h hyield)
  refine dispatched_of_quiet (hother _ (by decide)) (hother _ (by decide)) ?_
  obtain hcall | ⟨ret, mid', hcall, -⟩ :=
    Kern.trapDispatch_syscall (inCall_envTf o.machine cpu c user) hyield.1 hdispatch
  all_goals
    rw [Kern.syscall, show Sysno.ofWord user.frame.a0 = some .yield from hyield.2] at hcall
    cases hcall
  exact hk

include hphase

theorem dispatched_setStatus (hset : user.calls .envSetStatus) : Dispatched o cpu c user mid := by
  have hother : ∀ no, no ≠ .envSetStatus → ¬user.calls no :=
    fun no hne h => hne (calls_unique h hset)
  refine dispatched_of_quiet (hother _ (by decide)) (hother _ (by decide)) ?_
  have hno : Sysno.ofWord user.frame.a0 = some .envSetStatus := hset.2
  obtain ⟨hidle, -⟩ := hk.idle hphase (by rw [inCall_envTf]; exact hno) (by decide)
  obtain hcall | ⟨ret, mid', hcall, rfl⟩ :=
    Kern.trapDispatch_syscall (inCall_envTf o.machine cpu c user) hset.1 hdispatch
  all_goals rw [Kern.syscall, hno] at hcall
  · exact hk.setStatus hcall
  · exact (hk.setStatus hcall).advance ret hidle

theorem dispatched_recv (hrecv : user.calls .ipcRecv) (hgood : badDstva user.regs.a1 = false) :
    Dispatched o cpu c user mid := by
  have hsend : ¬user.calls .ipcTrySend := fun h => absurd (calls_unique h hrecv) (by decide)
  have hno : Sysno.ofWord user.frame.a0 = some .ipcRecv := hrecv.2
  have htf := inCall_envTf o.machine cpu c user
  have hpending : ∀ {exit k'}, (o.machine.inCall cpu c user).sysIpcRecv user.frame.a1
      = .ok (exit, k') → exit = .resched ∧ InKernel (update o.machine.cpuEnv cpu none)
        o.machine.regs (o.waitingIn c user) (o.logIn cpu c user) k' c := by
    intro exit k' hcall
    rw [waitingIn, if_pos hrecv, logIn, if_pos hrecv]
    rw [← htf] at hcall hno
    have h := hk.recv hphase hno (by rw [htf]; exact origA0_ne_yield hrecv.2)
      (by rw [htf]; exact hgood) hcall
    rw [htf] at h
    exact h
  have hwakes : Wakes (o.machine.inCall cpu c user) user c mid := by
    intro e hsent
    rw [sentTo_of_not_send hsend] at hsent
    cases hsent
  refine ⟨?_, hwakes⟩
  obtain hcall | ⟨ret, mid', hcall, rfl⟩ := Kern.trapDispatch_syscall htf hrecv.1 hdispatch
  all_goals
    rw [Kern.syscall, hno] at hcall
    obtain ⟨⟨result, mid''⟩, hsys, hrest⟩ := bind_eq_ok.mp hcall
    obtain ⟨rfl, hmid⟩ := hpending hsys
    cases hrest
  exact hmid

theorem dispatched_send (hrunning : o.machine.cpuEnv cpu = some c) (hsend : user.calls .ipcTrySend)
    (horderly : o.Orderly (.trap cpu user)) : Dispatched o cpu c user mid := by
  have hrecv : ¬user.calls .ipcRecv := fun h => absurd (calls_unique h hsend) (by decide)
  have hno : Sysno.ofWord user.frame.a0 = some .ipcTrySend := hsend.2
  obtain ⟨hidle, -⟩ := hk.idle hphase (by rw [inCall_envTf]; exact hno) (by decide)
  have hoff : ∀ e, (o.machine.inCall cpu c user).envid2env (user.regs.a1.setWidth 32) false
        = .ok (some e) → ((o.machine.inCall cpu c user).envs e).envIpcRecving = true →
      ∀ cpu', update o.machine.cpuEnv cpu none cpu' ≠ some e := by
    intro e htarget hrecving cpu' hcpu'
    refine horderly.2 c e hrunning hsend htarget (hk.waiting_of_recving hrecving) cpu' ?_
    by_cases hsame : cpu' = cpu
    · rw [hsame, update_self] at hcpu'
      cases hcpu'
    · rwa [update_of_ne hsame] at hcpu'
  unfold Dispatched
  rw [waitingIn, if_neg hrecv, logIn, if_neg hrecv]
  obtain hcall | ⟨ret, mid', hcall, rfl⟩ :=
    Kern.trapDispatch_syscall (inCall_envTf o.machine cpu c user) hsend.1 hdispatch
  · rw [Kern.syscall, hno] at hcall
    obtain ⟨⟨result, mid''⟩, hsys, hrest⟩ := bind_eq_ok.mp hcall
    cases hrest
  · obtain ⟨hsent, hmid⟩ | ⟨e, hsent, hne, hrunnable, hmid, hidle'⟩ :=
      hk.send hsend hidle hoff hcall
    · rw [hsent]
      refine ⟨hmid.advance ret hidle, ?_⟩
      intro e h
      rw [hsent] at h
      cases h
    · rw [hsent]
      refine ⟨hmid.advance ret hidle', ?_⟩
      intro e' h
      rw [hsent] at h
      cases h
      rw [Kern.setEnv_envs_of_ne _ _ hne]
      exact ⟨hne, hrunnable⟩

theorem dispatched (hrunning : o.machine.cpuEnv cpu = some c) (hclass : user.IsIpc)
    (horderly : o.Orderly (.trap cpu user)) : Dispatched o cpu c user mid := by
  obtain h | h | h | h | h | h := hclass
  · exact dispatched_interrupt hk hdispatch (.inl h)
  · exact dispatched_interrupt hk hdispatch (.inr h)
  · exact dispatched_yield hk hdispatch h
  · exact dispatched_send hk hphase hdispatch hrunning h horderly
  · exact dispatched_recv hk hphase hdispatch h (horderly.1 h)
  · exact dispatched_setStatus hk hphase hdispatch h

end Dispatch

theorem IpcInv.sched (hinv : IpcInv cpus regs waiting log k.envs)
    (hcur : ∀ e, k.curenv = some e → ∀ cpu, cpus cpu ≠ some e)
    (hsame : Kern.Holds (Kern.SchedSame k.envs) k') (hyields : Kern.Yields k k') :
    IpcInv cpus regs waiting log k'.envs ∧ ∀ e, k'.curenv = some e →
      (k'.envs e).envStatus = .running ∧ ∀ cpu, cpus cpu ≠ some e := by
  refine ⟨⟨?_, hinv.unique, ?_⟩, ?_⟩
  · intro cpu e hcpu
    exact hyields.others e (hinv.running cpu e hcpu) fun h => hcur e h cpu hcpu
  · intro e
    obtain ⟨phase, hphase, hmeans⟩ := hinv.phase e
    refine ⟨phase, hphase, hmeans.congr ?_ ?_⟩
    · rw [hsame e]
    · rw [hsame e]
      exact ⟨rfl, rfl, rfl, id⟩
  · intro e hnext
    obtain ⟨hrunning, hrunnable | hcurrent⟩ := hyields.chosen e hnext
    · refine ⟨hrunning, ?_⟩
      intro cpu hcpu
      rw [hinv.running cpu e hcpu] at hrunnable
      cases hrunnable
    · exact ⟨hrunning, hcur e hcurrent⟩

/-! ### Runs -/

theorem inv_start {o : Observed} (hstart : o.Starts) : o.Inv := by
  obtain ⟨⟨vm, kernPgdir, envsAddr, sstatus, programs, k, -, hboot, hmachine⟩, hwaiting, hlog⟩ := hstart
  have hidle : Kern.Holds (fun _ env => env.envIpcRecving = false) k :=
    Kern.holds_boot (fun _ _ => rfl) (fun _ _ _ _ _ _ => rfl) hboot
  unfold Inv
  rw [hmachine, hlog]
  exact ⟨nofun, nofun, fun e => ⟨.idle, rfl, hwaiting e, hidle e⟩⟩

theorem inKernel_of_inv {o : Observed} (hinv : o.Inv) {cpu : Nat} {user : UserTrap}
    (hrunning : o.machine.cpuEnv cpu = some c)
    (hecall : ∀ pc, o.waiting c = some pc → (o.machine.regs cpu).sepc = pc →
      user.regs = o.machine.regs cpu) :
    InKernel (update o.machine.cpuEnv cpu none) o.machine.regs o.waiting o.log
      (o.machine.inCall cpu c user) c ∧ phaseOf c o.log ≠ some .delivered := by
  refine ⟨⟨hinv.enter hrunning ?_, hrunning, off_of_update hinv hrunning⟩, ?_⟩
  · intro pc dstva hwaiting hcall
    have hregs := hecall pc hwaiting hcall.sepc
    rw [← hregs] at hcall
    exact ⟨⟨hcall.sepc, hcall.number, hcall.dstva⟩, origA0_ne_yield hcall.number⟩
  · intro hdelivered
    obtain ⟨phase, hphase, hmeans⟩ := hinv.phase c
    rw [hdelivered] at hphase
    cases hphase
    obtain ⟨pc, -, -, hoff, -⟩ := hmeans
    exact hoff cpu hrunning

theorem resume_cases (waiting : Nat → Option Word) (log : List IpcEvent) (m : Machine) (cpu : Nat) :
    (resume waiting log m cpu).machine = m ∧ ((resume waiting log m cpu).log = log ∨
      ∃ e value, (resume waiting log m cpu).log = .back e value :: log) := by
  unfold resume
  split
  · exact ⟨rfl, .inl rfl⟩
  · split
    · exact ⟨rfl, .inl rfl⟩
    · split
      · exact ⟨rfl, .inl rfl⟩
      · exact ⟨rfl, .inr ⟨_, _, rfl⟩⟩

theorem log_of_resume {waiting : Nat → Option Word} {log log' : List IpcEvent}
    {cpu : Nat} (hlog : (resume waiting log m cpu).log = .send e :: log') :
    log = .send e :: log' := by
  obtain ⟨-, hsame | ⟨e', value, hback⟩⟩ := resume_cases waiting log m cpu
  · exact hsame.symm.trans hlog
  · rw [hback] at hlog
    cases hlog

theorem sentTo_of_logIn {o : Observed} {cpu : Nat} {user : UserTrap}
    (hlog : o.logIn cpu c user = .send e :: o.log) :
    sentTo (o.machine.inCall cpu c user) user = some e := by
  unfold logIn at hlog
  split at hlog
  · split at hlog
    · cases hlog
    · exact absurd hlog.symm (List.cons_ne_self _ _)
  · split at hlog
    · next e' hsent =>
        cases hlog
        exact hsent
    · exact absurd hlog.symm (List.cons_ne_self _ _)

theorem Inv.off_of_send {o : Observed} (hinv : o.Inv) {log : List IpcEvent}
    (hlog : o.log = .send e :: log) (cpu : Nat) : o.machine.cpuEnv cpu ≠ some e := by
  obtain ⟨phase, hphase, hmeans⟩ := hinv.phase e
  rw [hlog, phaseOf, if_pos (show (IpcEvent.send e).env = e from rfl)] at hphase
  obtain ⟨before, -, hnext⟩ := Option.bind_eq_some_iff.mp hphase
  have hdelivered : phase = .delivered := by
    cases before with
    | idle => cases hnext
    | pending dstva =>
        simp only [Phase.next] at hnext
        split at hnext
        · cases hnext
        · exact (Option.some.inj hnext).symm
    | delivered => cases hnext
  subst hdelivered
  obtain ⟨pc, -, -, hoff, -⟩ := hmeans
  exact hoff cpu

theorem inv_step {o o' : Observed} {event : Event} (hinv : o.Inv) (horderly : o.Orderly event)
    (hstep : o.Step event o') :
    o'.Inv ∧ ∀ e, o'.log = .send e :: o.log → (o'.machine.kern.envs e).envStatus = .runnable := by
  cases hstep with
  | @trap cpu c user m hrunning hclass hecall hstep =>
      cases hstep with
      | @trap _ _ _ k _ hstatus hkernel =>
          obtain ⟨hk, hphase⟩ := inKernel_of_inv hinv hrunning hecall
          have halive : (o.machine.kern.envs c).envStatus ≠ .dying := by
            rw [hinv.running cpu c hrunning]
            decide
          obtain ⟨exit, mid, hdispatch, hafter⟩ :=
            Kern.trap_yields (k := o.machine.enter cpu user) hrunning halive hkernel
          obtain ⟨hmid, hwakes⟩ := dispatched hk hphase hdispatch hrunning hclass horderly
          obtain ⟨hsame, hyields⟩ := hafter hmid.current
          obtain ⟨hinv', hnext⟩ := hmid.inv.sched (fun e h => by
            rw [hmid.current] at h
            cases h
            exact hmid.off) hsame hyields
          have hleave := hinv'.leave hnext
          refine ⟨hleave, ?_⟩
          intro e hlog
          have hoff := hleave.off_of_send hlog cpu
          obtain ⟨hmachine, -⟩ :=
            resume_cases (o.waitingIn c user) (o.logIn cpu c user) (o.machine.leave cpu k) cpu
          rw [hmachine] at hoff ⊢
          have hsent := hwakes e (sentTo_of_logIn (log_of_resume hlog))
          refine hyields.waits e hsent.2 ?_
          simpa [Machine.leave] using hoff
  | @tick cpu m hstep =>
      cases hstep with
      | @tick _ k hidle hkernel =>
          have hcpus : update o.machine.cpuEnv cpu none = o.machine.cpuEnv := by
            rw [← hidle, update_eq_self]
          have hinv' := hinv
          unfold Inv at hinv'
          rw [← hcpus] at hinv'
          obtain ⟨hinv', hnext⟩ := IpcInv.sched (k := { o.machine.kern with curenv := none }) hinv'
            (by simp) (Kern.schedYield_same hkernel) (Kern.yields_schedYield hkernel)
          refine ⟨hinv'.leave hnext, ?_⟩
          intro e hlog
          exact absurd (log_of_resume hlog).symm (List.cons_ne_self _ _)

/-- In every orderly run sends and receives correspond one to one, and a send wakes its receiver. -/
theorem paired_of_reachable {o : Observed} (hreach : Reachable Starts Step Orderly o) :
    Paired o.log ∧ ∀ event o' e, o.Orderly event → o.Step event o' → o'.log = .send e :: o.log →
      (o'.machine.kern.envs e).envStatus = .runnable := by
  have hinv : o.Inv := hreach.invariant (P := Inv) (fun o hstart => inv_start hstart)
    (fun o event o' hinv horderly hstep => (inv_step hinv horderly hstep).1)
  refine ⟨?_, fun event o' e horderly hstep => (inv_step hinv horderly hstep).2 e⟩
  intro e
  obtain ⟨phase, hphase, -⟩ := hinv.phase e
  rw [hphase]
  rfl

/-! ### Two runs -/

theorem resume_of_none {waiting : Nat → Option Word} (log : List IpcEvent)
    {cpu : Nat} (hcpu : m.cpuEnv cpu = some e) (hwaiting : waiting e = none) :
    resume waiting log m cpu = ⟨m, waiting, log⟩ := by
  simp only [resume, hcpu, hwaiting]

theorem resume_of_ne {waiting : Nat → Option Word} (log : List IpcEvent)
    {cpu : Nat} {pc : Word} (hcpu : m.cpuEnv cpu = some e) (hwaiting : waiting e = some pc)
    (hsepc : (m.regs cpu).sepc ≠ pc) :
    (resume waiting log m cpu).log = .back e (m.regs cpu).a0 :: log := by
  simp only [resume, hcpu, hwaiting, if_neg hsepc]

theorem exec_cpuEnv_of_ne {m' : Machine} {event : Event} (hexec : m.exec event = .ok m')
    (hevent : event = .tick 0 ∨ ∃ user, event = .trap 0 user) {cpu : Nat} (hcpu : cpu ≠ 0) :
    m'.cpuEnv cpu = m.cpuEnv cpu := by
  obtain rfl | ⟨user, rfl⟩ := hevent
  all_goals
    obtain ⟨k, -, hleave⟩ := bind_eq_ok.mp hexec
    cases pure_eq_ok.mp hleave
    exact update_of_ne hcpu _ _

theorem reachable_first {allowed : Observed → Event → Prop} (hticks : ∀ o cpu, allowed o (.tick cpu))
    {programs : List (Kern.Image × EnvType)} {vm : Vm} {kernPgdir envsAddr : Word}
    (hboot : Kern.boot vm kernPgdir envsAddr 0 programs = .ok k)
    (htick : (Machine.start k).exec (.tick 0) = .ok m) (hcpu : m.cpuEnv 0 = some c) :
    Reachable Starts Step allowed ⟨m, fun _ => none, []⟩ := by
  have hstart : Starts ⟨Machine.start k, fun _ => none, []⟩ :=
    ⟨⟨_, _, _, 0, _, k, by decide, hboot, rfl⟩, fun _ => rfl, rfl⟩
  rw [show (⟨m, fun _ => none, []⟩ : Observed) = resume (fun _ => none) [] m 0 from
    (resume_of_none [] hcpu rfl).symm]
  exact .next (.start hstart) (hticks _ 0) (.tick (Machine.step_of_exec_tick rfl htick))

theorem calls_of_regs (m : Machine) {regs : Trapframe}
    (hno : Sysno.ofWord regs.a0 = some no) : (Tracked.ecall m regs).calls no :=
  ⟨show Cause.ofScause 8 = .syscall by decide, hno⟩

theorem step_of_trap {o : Observed} {user : UserTrap}
    (hcpu : o.machine.cpuEnv 0 = some c) (hwaiting : o.waiting c = none)
    (hstatus : spp user.status = false) (hclass : user.IsIpc)
    (hexec : o.machine.exec (.trap 0 user) = .ok m) :
    o.Step (.trap 0 user) (resume (o.waitingIn c user) (o.logIn 0 c user) m 0) := by
  refine .trap hcpu hclass ?_ (Machine.step_of_exec hcpu hstatus hexec)
  intro pc hpc
  rw [hwaiting] at hpc
  cases hpc

theorem waitingIn_recv {o : Observed} {user : UserTrap} (hrecv : user.calls .ipcRecv) :
    o.waitingIn c user = update o.waiting c (some user.regs.sepc) := if_pos hrecv

theorem logIn_recv {o : Observed} {cpu : Nat} {user : UserTrap} (hrecv : user.calls .ipcRecv)
    (hwaiting : o.waiting c = none) :
    o.logIn cpu c user = .recv c user.regs.a1 :: o.log := by
  rw [logIn, if_pos hrecv, if_pos hwaiting]

theorem waitingIn_send {o : Observed} {user : UserTrap} (hsend : user.calls .ipcTrySend) :
    o.waitingIn c user = o.waiting :=
  if_neg fun hrecv => absurd (calls_unique hrecv hsend) (by decide)

theorem logIn_send {o : Observed} {cpu : Nat} {user : UserTrap} (hsend : user.calls .ipcTrySend)
    (hsent : sentTo (o.machine.inCall cpu c user) user = some e) :
    o.logIn cpu c user = .send e :: o.log := by
  rw [logIn, if_neg fun hrecv => absurd (calls_unique hrecv hsend) (by decide), hsent]

theorem orderly_recv {o : Observed} {cpu : Nat} {user : UserTrap} (hrecv : user.calls .ipcRecv)
    (hgood : badDstva user.regs.a1 = false) : o.Orderly (.trap cpu user) :=
  ⟨fun _ => hgood, fun _ _ _ hsend => absurd (calls_unique hsend hrecv) (by decide)⟩

theorem orderly_send {o : Observed} {cpu : Nat} {user : UserTrap} (hsend : user.calls .ipcTrySend)
    (hoff : ∀ e, o.waiting e ≠ none → ∀ cpu', o.machine.cpuEnv cpu' ≠ some e) :
    o.Orderly (.trap cpu user) :=
  ⟨fun hrecv => absurd (calls_unique hrecv hsend) (by decide), fun _ e _ _ _ => hoff e⟩

def badRecvCall (m : Machine) : UserTrap := Tracked.ecall m { sepc := 0x800000, a0 := 13, a1 := 1 }

def badRecvRun : Except Panic (Machine × Machine) := do
  let k ← Kern.boot Vm.small (pageKva 0) uenvs 0 [(Kern.smallImage, .user)]
  let running ← (Machine.start k).exec (.tick 0)
  let returned ← running.exec (.trap 0 (badRecvCall running))
  pure (running, returned)

theorem badRecvRun_observed :
    (badRecvRun.toOption.map fun run => (run.1.cpuEnv 0, run.2.cpuEnv 0,
      (run.2.regs 0).sepc, (run.2.regs 0).a0)) = some (some 0, some 0, 0x800004, 0) := by
  decide +kernel

/-- A receive at address 1, which is not page aligned, returns 0 although nothing was sent. -/
theorem misaligned_receive_returns_zero :
    ∃ o : Observed, Reachable Starts Step (fun _ _ => True) o ∧
      o.log = [.back 0 0, .recv 0 1] ∧ ¬Paired o.log := by
  obtain ⟨⟨running, returned⟩, hrun, hobs⟩ := exists_of_toOption_map badRecvRun_observed
  simp only [Prod.mk.injEq] at hobs
  obtain ⟨hcpu, hcpu', hsepc, hzero⟩ := hobs
  obtain ⟨k, hboot, hrest⟩ := bind_eq_ok.mp hrun
  obtain ⟨mid, hmid, hrest⟩ := bind_eq_ok.mp hrest
  obtain ⟨mid', hmid', hrest⟩ := bind_eq_ok.mp hrest
  cases pure_eq_ok.mp hrest
  have hcalls : (badRecvCall running).calls .ipcRecv :=
    calls_of_regs running (show Sysno.ofWord 13 = some .ipcRecv by decide)
  have hrunning : Reachable Starts Step (fun _ _ => True) ⟨running, fun _ => none, []⟩ :=
    reachable_first (fun _ _ => trivial) hboot hmid hcpu
  have hreturned := hrunning.next trivial (step_of_trap hcpu rfl (show spp 0x20 = false by decide)
    (.inr (.inr (.inr (.inr (.inl hcalls))))) hmid')
  rw [waitingIn_recv hcalls, logIn_recv hcalls rfl] at hreturned
  refine ⟨_, hreturned, ?_⟩
  rw [resume_of_ne _ hcpu' (update_self ..)
    (by rw [hsepc]; exact show (0x800004 : Word) ≠ 0x800000 by decide), hzero]
  exact ⟨rfl, fun hpaired =>
    absurd (hpaired 0) (show ¬(phaseOf 0 [.back 0 0, .recv 0 1]).isSome = true by decide)⟩

def sendRun : Except Panic ((Machine × Machine × Machine) × Machine) := do
  let run ← Tracked.recvRun
  let sent ← run.2.2.exec (.trap 0 (Tracked.sendCall run.2.2 7))
  pure (run, sent)

theorem sendRun_observed :
    (sendRun.toOption.map fun run => (run.1.2.1.cpuEnv 0, run.1.2.2.cpuEnv 0, run.2.cpuEnv 0,
      sentTo (run.1.2.2.inCall 0 1 (Tracked.sendCall run.1.2.2 7))
        (Tracked.sendCall run.1.2.2 7))) = some (some 0, some 1, some 1, some 0) := by
  decide +kernel

structure OneWaits (o : Observed) : Prop where
  reachable : Reachable Starts Step Orderly o
  log : o.log = [.recv 0 0xffffffffffffffff]
  cpu : o.machine.cpuEnv 0 = some 1
  waiting : ∀ e, e ≠ 0 → o.waiting e = none
  off : ∀ cpu, o.machine.cpuEnv cpu ≠ some 0

theorem exists_oneWaits :
    ∃ (o : Observed) (m : Machine), OneWaits o ∧ m.cpuEnv 0 = some 1 ∧
      o.machine.exec (.trap 0 (Tracked.sendCall o.machine 7)) = .ok m ∧
      sentTo (o.machine.inCall 0 1 (Tracked.sendCall o.machine 7)) (Tracked.sendCall o.machine 7)
        = some 0 := by
  obtain ⟨⟨⟨first, running, blocked⟩, sent⟩, hrun, hobs⟩ := exists_of_toOption_map sendRun_observed
  simp only [Prod.mk.injEq] at hobs
  obtain ⟨hcpu, hcpu', hcpu'', hsent⟩ := hobs
  obtain ⟨run, hrecvRun, hrest⟩ := bind_eq_ok.mp hrun
  obtain ⟨last, hlast, hrest⟩ := bind_eq_ok.mp hrest
  cases pure_eq_ok.mp hrest
  obtain ⟨k, hboot, hrest⟩ := bind_eq_ok.mp hrecvRun
  obtain ⟨mid, hmid, hrest⟩ := bind_eq_ok.mp hrest
  obtain ⟨mid', hmid', hrest⟩ := bind_eq_ok.mp hrest
  cases pure_eq_ok.mp hrest
  have hrecv : (Tracked.recvCall running).calls .ipcRecv :=
    calls_of_regs running (show Sysno.ofWord 13 = some .ipcRecv by decide)
  have hrunning : Reachable Starts Step Orderly ⟨running, fun _ => none, []⟩ :=
    reachable_first (fun _ _ => trivial) hboot hmid hcpu
  have hblocked := hrunning.next
    (orderly_recv hrecv (show badDstva 0xffffffffffffffff = false by decide))
    (step_of_trap hcpu rfl (show spp 0x20 = false by decide)
      (.inr (.inr (.inr (.inr (.inl hrecv))))) hmid')
  rw [waitingIn_recv hrecv, logIn_recv hrecv rfl,
    resume_of_none _ hcpu' (update_of_ne (by decide) _ _)] at hblocked
  refine ⟨_, sent, ⟨hblocked, rfl, hcpu', fun e he => update_of_ne he _ _, ?_⟩, hcpu'',
    hlast, hsent⟩
  intro cpu
  by_cases hzero : cpu = 0
  · rw [hzero]
    exact fun h => absurd (hcpu'.symm.trans h) (by decide)
  · exact fun h => nomatch (exec_cpuEnv_of_ne hmid (.inl rfl) hzero).symm.trans
      ((exec_cpuEnv_of_ne hmid' (.inr ⟨_, rfl⟩) hzero).symm.trans h)

/-- A receive and then a send to it: the receiver is runnable. -/
theorem send_wakes_receiver :
    ∃ o o' : Observed, Paired o.log ∧ o.log = [.recv 0 0xffffffffffffffff] ∧
      o'.log = [.send 0, .recv 0 0xffffffffffffffff] ∧
      (o'.machine.kern.envs 0).envStatus = .runnable := by
  obtain ⟨o, m, hwaits, hcpu, hexec, hsent⟩ := exists_oneWaits
  obtain ⟨hpaired, hwakes⟩ := paired_of_reachable hwaits.reachable
  have hsend : (Tracked.sendCall o.machine 7).calls .ipcTrySend :=
    calls_of_regs o.machine (show Sysno.ofWord 12 = some .ipcTrySend by decide)
  have hstep := step_of_trap hwaits.cpu (hwaits.waiting 1 (by decide))
    (show spp 0x20 = false by decide) (.inr (.inr (.inr (.inl hsend)))) hexec
  rw [waitingIn_send hsend, logIn_send hsend hsent,
    resume_of_none _ hcpu (hwaits.waiting 1 (by decide))] at hstep
  have horderly : o.Orderly (.trap 0 (Tracked.sendCall o.machine 7)) := by
    refine orderly_send hsend ?_
    intro e he cpu
    obtain rfl : e = 0 := by
      by_contra hne
      exact he (hwaits.waiting e hne)
    exact hwaits.off cpu
  refine ⟨o, _, hpaired, hwaits.log, ?_, hwakes _ _ 0 horderly hstep rfl⟩
  rw [hwaits.log]

end Observed

end ZynexOS
