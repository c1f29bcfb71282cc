import ZynexOS.Kern.Cpus
import ZynexOS.Kern.KernelStack
import ZynexOS.Kern.Proof.SavedFrames
import ZynexOS.Kern.Proof.SchedLemmas

/-! # Every CPU returns to its own kernel stack -/

namespace ZynexOS

open Library Function

theorem exitScratch_eq {cpu : Nat} (hcpu : cpu < nCpu) :
    exitScratch (BitVec.ofNat 32 cpu) = kernSp cpu := by
  have hall : ∀ cpu < nCpu, exitScratch (BitVec.ofNat 32 cpu) = kernSp cpu := by decide
  exact hall cpu hcpu

namespace Kern

variable {k k' mid : Kern} {c e cpu : Nat} {tf : Trapframe} {dev : Int}

def OwnTp (k : Kern) (e : Nat) : Prop := (k.envs e).envTf.tp = k.envAddr e

def TpRight (k : Kern) : Prop := ∀ e, (k.envs e).envStatus ≠ .free → k.OwnTp e

theorem envAddr_congr (haddr : k'.envsAddr = k.envsAddr) (e : Nat) : k'.envAddr e = k.envAddr e := by
  rw [envAddr, envAddr, haddr]

theorem envRun_envsAddr (k : Kern) (cpu e : Nat) : (k.envRun cpu e).envsAddr = k.envsAddr := by
  unfold envRun
  cases k.curenv with
  | none => rfl
  | some c =>
      dsimp only
      split <;> rfl

theorem envRun_cpunum (k : Kern) (cpu e : Nat) : ((k.envRun cpu e).envs e).envCpunum = cpu := by
  unfold envRun
  exact congrArg Env.envCpunum (setEnv_envs_self ..)

theorem envRun_ownTp (htp : k.OwnTp c) : (k.envRun cpu e).OwnTp c := by
  have hsame := congrArg Env.envTf (envRun_same k cpu e c)
  rw [OwnTp, hsame, envAddr_congr (envRun_envsAddr k cpu e)]
  exact htp

theorem TpRight.envRun (hright : k.TpRight) (htp : k.OwnTp e) : (k.envRun cpu e).TpRight := by
  intro e' hlive
  by_cases he : e' = e
  · exact envRun_ownTp (he ▸ htp)
  · refine envRun_ownTp (hright e' fun hfree => hlive ?_)
    rw [(envRun_status k cpu e).2.2 e' he (.inr (by rw [hfree]; nofun)), hfree]

structure Leaves (cpu : Nat) (k : Kern) : Prop where
  right : k.TpRight
  own : ∀ e, k.curenv = some e → e < nEnv ∧ k.OwnTp e ∧ (k.envs e).envCpunum = cpu

theorem leaves_envRun (hright : k.TpRight) (hbound : e < nEnv) (htp : k.OwnTp e) :
    Leaves cpu (k.envRun cpu e) where
  right := hright.envRun htp
  own e' he' := by
    obtain rfl : e = e' := Option.some.inj ((envRun_status k cpu e).1.symm.trans he')
    exact ⟨hbound, envRun_ownTp htp, envRun_cpunum k cpu e⟩

theorem leaves_schedHalt (hright : k.TpRight) (hhalt : k.schedHalt = .ok k') : Leaves cpu k' := by
  unfold schedHalt at hhalt
  split at hhalt
  · cases hhalt
  · cases hhalt
    exact ⟨hright, nofun⟩

theorem leaves_schedYield (hright : k.TpRight) (hbound : ∀ c, k.curenv = some c → c < nEnv)
    (hyield : k.schedYield cpu = .ok k') : Leaves cpu k' := by
  have hfound : ∀ slots e, k.findRunnable slots = some e → (∀ i ∈ slots, i < nEnv) →
      Leaves cpu (k.envRun cpu e) := by
    intro slots e hfind hslots
    have hrunnable := findRunnable_eq_some hfind
    exact leaves_envRun hright (hslots e (List.mem_of_find?_eq_some hfind))
      (hright e (by rw [hrunnable]; nofun))
  unfold schedYield at hyield
  split at hyield
  · split at hyield
    · next e hfind =>
        cases hyield
        exact hfound _ e hfind fun i hi => List.mem_range.mp hi
    · exact leaves_schedHalt hright hyield
  · next c hcur =>
      have hc := hbound c hcur
      split at hyield
      · next e hfind =>
          cases hyield
          refine hfound _ e hfind fun i hi => ?_
          have hrange := List.mem_range'_1.mp hi
          omega
      · split at hyield
        · next e hfind =>
            cases hyield
            exact hfound _ e hfind fun i hi => (List.mem_range.mp hi).trans hc
        · split at hyield
          · next hrunning =>
              cases hyield
              exact leaves_envRun hright hc (hright c (by rw [hrunning]; nofun))
          · exact leaves_schedHalt hright hyield

structure TpRightFor (k : Kern) (c : Nat) : Prop where
  own : ∀ e, (k.envs e).envStatus ≠ .free ∨ e = c → k.OwnTp e
  cur : k.curenv = some c ∨ k.curenv = none

theorem TpRightFor.tpRight (hright : k.TpRightFor c) : k.TpRight := fun e hlive =>
  hright.own e (.inl hlive)

theorem TpRightFor.keeps {but : Nat → Prop} (hright : k.TpRightFor c) (hkeeps : Keeps k k' but)
    (hbut : ∀ e, but e → k'.OwnTp e) : k'.TpRightFor c where
  own e he := by
    by_cases hin : but e
    · exact hbut e hin
    · rw [OwnTp, hkeeps.frames e hin, envAddr_congr hkeeps.addr]
      refine hright.own e ?_
      obtain hlive | rfl := he
      · refine (hkeeps.live e hin hlive).imp id fun hsame => ?_
        obtain hcur | hnone := hright.cur
        · exact Option.some.inj (hsame.symm.trans hcur)
        · cases hsame.symm.trans hnone
      · exact .inr rfl
  cur := by
    obtain hsame | hnone := hkeeps.cur
    · rw [hsame]
      exact hright.cur
    · exact .inr hnone

theorem TpRightFor.keepsAll (hright : k.TpRightFor c) (hkeeps : KeepsAll k k') : k'.TpRightFor c :=
  hright.keeps hkeeps fun _ => False.elim

theorem TpRightFor.setFrame (hright : k.TpRightFor c) (htp : tf.tp = (k.envs c).envTf.tp) :
    (k.setEnv c { k.envs c with envTf := tf }).TpRightFor c where
  own e he := by
    by_cases hec : e = c
    · subst hec
      rw [OwnTp, setEnv_envs_self]
      exact htp.trans (hright.own e (.inr rfl))
    · rw [setEnv_envs_of_ne _ _ hec] at he
      rw [OwnTp, setEnv_envs_of_ne _ _ hec]
      exact hright.own e he
  cur := hright.cur

theorem TpRightFor.syscall {exit : SysExit} {a3 a4 a5 : Word} (hright : k.TpRightFor c)
    (hcur : k.curenv = some c) (hcause : Cause.ofScause tf.scause = .syscall)
    (hstored : Sysno.ofWord tf.a0 = some .envSetTrapframe → ∀ e frame,
      k.envid2env (tf.a1.setWidth 32) true = .ok (some e) → readTrapframe k.vm tf.a2 = .ok frame →
      frame.tp = k.envAddr e)
    (hcall : k.syscall dev tf.a0 tf.a1 tf.a2 a3 a4 a5 = .ok (exit, k')) : k'.TpRightFor c := by
  by_cases hfork : Sysno.ofWord tf.a0 = some .exofork
  · rw [Kern.syscall, hfork] at hcall
    obtain ⟨child, -, hkeeps, htp, -⟩ := sysExofork_keeps hcur hcall
    refine hright.keeps hkeeps ?_
    rintro e rfl
    exact htp.trans (envAddr_congr hkeeps.addr e).symm
  by_cases hsend : Sysno.ofWord tf.a0 = some .ipcTrySend
  · rw [Kern.syscall, hsend] at hcall
    obtain ⟨⟨ret, mid⟩, hrun, hrest⟩ := bind_eq_ok.mp hcall
    cases pure_eq_ok.mp hrest
    obtain ⟨-, hkeeps⟩ | ⟨target, -, hfound, -, hkeeps, htarget⟩ := sysIpcTrySend_keeps hrun
    · exact hright.keepsAll hkeeps
    · refine hright.keeps hkeeps ?_
      rintro e rfl
      rw [OwnTp, htarget, envAddr_congr hkeeps.addr]
      exact hright.own e ((envid2env_live hfound).imp id fun hsame =>
        Option.some.inj (hsame.symm.trans hcur))
  by_cases hset : Sysno.ofWord tf.a0 = some .envSetTrapframe
  · rw [Kern.syscall, hset] at hcall
    obtain hkeeps | ⟨target, frame, hfound, hread, rfl⟩ := sysEnvSetTrapframe_keeps hcall
    · exact hright.keepsAll hkeeps
    · have hkeeps : Keeps k (k.setEnv target { k.envs target with envTf := frame }) (· = target) :=
        keeps_setEnv (absurd rfl) (absurd rfl)
      refine hright.keeps hkeeps ?_
      rintro e rfl
      rw [OwnTp, setEnv_envs_self]
      exact hstored hset e frame hfound hread
  · exact hright.keepsAll
      ((syscall_update hcur hcause hcall).keepsAll hcur hfork hsend hset)

theorem TpRightFor.trapDispatch {exit : TrapExit} (hright : k.TpRightFor c) (hcur : k.curenv = some c)
    (htf : (k.envs c).envTf = tf)
    (hstored : IsCall tf .envSetTrapframe → ∀ e frame,
      k.envid2env (tf.a1.setWidth 32) true = .ok (some e) → readTrapframe k.vm tf.a2 = .ok frame →
      frame.tp = k.envAddr e)
    (hdispatch : k.trapDispatch dev c = .ok (exit, k')) : k'.TpRightFor c := by
  have hdispatched := hdispatch
  unfold Kern.trapDispatch at hdispatch
  dsimp only at hdispatch
  split at hdispatch
  · cases hdispatch
    exact hright.setFrame rfl
  · cases hdispatch
    exact hright.setFrame rfl
  · obtain ⟨hkeeps, htp⟩ := pageFaultHandler_keeps hcur hdispatch
    refine hright.keeps hkeeps ?_
    rintro e rfl
    rw [OwnTp, htp, envAddr_congr hkeeps.addr]
    exact hright.own e (.inr rfl)
  · cases hdispatch
    exact hright
  · next hcause =>
    rw [htf] at hcause
    obtain hcall | ⟨ret, mid, hcall, rfl⟩ := trapDispatch_syscall htf hcause hdispatched
    · exact hright.syscall hcur hcause (fun hno => hstored ⟨hcause, hno⟩) hcall
    · exact (hright.syscall hcur hcause (fun hno => hstored ⟨hcause, hno⟩) hcall).setFrame rfl
  · obtain ⟨⟨gone, mid⟩, hdestroy, hrest⟩ := bind_eq_ok.mp hdispatch
    obtain ⟨rfl, -, vm, rfl⟩ := envDestroy_self hcur hdestroy
    cases pure_eq_ok.mp hrest
    exact hright.keepsAll (keeps_freed k c c vm)

theorem leaves_trap (hright : k.TpRight) (hcur : k.curenv = some c) (hbound : c < nEnv)
    (htp : tf.tp = k.envAddr c)
    (hstored : IsCall tf .envSetTrapframe → ∀ e frame,
      (k.setEnv c { k.envs c with envTf := tf }).envid2env (tf.a1.setWidth 32) true = .ok (some e) →
      readTrapframe k.vm tf.a2 = .ok frame → frame.tp = k.envAddr e)
    (htrap : k.trap cpu dev tf = .ok k') : Leaves cpu k' := by
  obtain ⟨hdying, mid, hfree, hyield⟩ | ⟨-, exit, mid, hdispatch, hend⟩ := trap_cases hcur htrap
  · have hfor : k.TpRightFor c := by
      refine ⟨fun e he => hright e ?_, .inl hcur⟩
      obtain hlive | rfl := he
      · exact hlive
      · rw [hdying]
        nofun
    have hmid : ({ mid with curenv := none } : Kern).TpRight :=
      (hfor.keepsAll (envFree_keeps hfree)).tpRight
    exact leaves_schedYield hmid nofun hyield
  · have hsaved : (k.setEnv c { k.envs c with envTf := tf }).TpRightFor c := by
      refine ⟨fun e he => ?_, .inl hcur⟩
      by_cases hec : e = c
      · subst hec
        rw [OwnTp, setEnv_envs_self]
        exact htp
      · rw [setEnv_envs_of_ne _ _ hec] at he
        rw [OwnTp, setEnv_envs_of_ne _ _ hec]
        exact hright e (he.resolve_right hec)
    have hmid : mid.TpRightFor c :=
      hsaved.trapDispatch hcur (by rw [setEnv_envs_self]) hstored hdispatch
    have hbounds : ∀ e, mid.curenv = some e → e < nEnv := by
      intro e he
      obtain hsame | hnone := hmid.cur
      · exact Option.some.inj (hsame.symm.trans he) ▸ hbound
      · cases hnone.symm.trans he
    obtain hyield | ⟨e, rfl, ⟨-, rfl⟩ | ⟨he, hrunning⟩⟩ := hend
    · exact leaves_schedYield hmid.tpRight hbounds hyield
    · exact leaves_envRun hmid.tpRight hbound (hmid.own e (.inr rfl))
    · exact leaves_envRun hmid.tpRight (hbounds e he) (hmid.tpRight e (by rw [hrunning]; nofun))

theorem tpRight_boot {vm : Vm} {kernPgdir envsAddr sstatus : Word} {programs : List (Image × EnvType)}
    (hboot : Kern.boot vm kernPgdir envsAddr sstatus programs = .ok k) : k.TpRight := by
  refine foldlM_invariant (P := TpRight) ?_ (fun e hlive => absurd rfl hlive) hboot
  rintro k program k' - hright hstep
  obtain ⟨e, pgdir, vm, -, rfl⟩ := envCreate_eq hstep
  intro e' hlive
  by_cases he : e' = e
  · subst he
    simp only [OwnTp, setEnv, update_self]
    rfl
  · simp only [setEnv, update_of_ne he] at hlive
    simp only [OwnTp, setEnv, update_of_ne he]
    exact hright e' hlive

end Kern

namespace Machine

variable {m m' : Machine} {event : Event}

def TpInv (m : Machine) : Prop := m.kern.TpRight ∧ ∀ cpu e, m.cpuEnv cpu = some e → e < nEnv

theorem exists_leaves (hinv : m.TpInv) (hkeeps : m.KeepsTp event) (hstep : m.Step event m') :
    ∃ k, m' = m.leave event.cpu k ∧ Kern.Leaves event.cpu k := by
  obtain ⟨hright, hbound⟩ := hinv
  cases hstep with
  | @trap cpu c user k hrunning hstatus hkernel =>
      obtain ⟨htp, hstored⟩ := hkeeps c hrunning
      have hframe : user.frame.tp = (m.enter cpu user).envAddr c := htp
      exact ⟨k, rfl, Kern.leaves_trap (k := m.enter cpu user) hright hrunning
        (hbound cpu c hrunning) hframe hstored hkernel⟩
  | @tick cpu k hidle hkernel =>
      exact ⟨k, rfl, Kern.leaves_schedYield (k := { m.kern with curenv := none }) hright nofun hkernel⟩

theorem TpInv.leave (hinv : m.TpInv) {cpu : Nat} {k : Kern} (hleaves : Kern.Leaves cpu k) :
    (m.leave cpu k).TpInv := by
  refine ⟨hleaves.right, fun cpu' e he => ?_⟩
  by_cases hsame : cpu' = cpu
  · subst hsame
    have hcur : k.curenv = some e := by
      simpa only [Machine.leave, update_self] using he
    exact (hleaves.own e hcur).1
  · have hold : m.cpuEnv cpu' = some e := by
      simpa only [Machine.leave, update_of_ne hsame] using he
    exact hinv.2 cpu' e hold

theorem tpInv_of_reachable (hreach : Reachable Boots Step KeepsTp m) : m.TpInv := by
  refine hreach.invariant (P := TpInv) ?_ fun m event m' hinv hkeeps hstep => ?_
  · rintro m ⟨vm, kernPgdir, envsAddr, sstatus, programs, k, -, hboot, rfl⟩
    exact ⟨Kern.tpRight_boot hboot, nofun⟩
  · obtain ⟨k, rfl, hleaves⟩ := exists_leaves hinv hkeeps hstep
    exact hinv.leave hleaves

theorem popTf_tp (tf : Trapframe) : (popTf tf).tp = tf.tp := by
  unfold popTf
  split <;> rfl

end Machine

end ZynexOS
