import ZynexOS.Kern.Resume
import ZynexOS.Kern.Proof.SavedFrames

/-! # Every trap moves the program counter as far as it should -/

namespace ZynexOS

open Library Function

def Due.Matches : Due → Trapframe → Prop
  | .unknown, _ => True
  | .next pc, tf => (popTf tf).sepc = pc
  | .blocked pc, tf => tf.sepc = pc ∧ tf.origA0 ≠ 10

theorem popTf_sepc_of_ne {tf : Trapframe} (hno : tf.origA0 ≠ 10) : (popTf tf).sepc = tf.sepc := by
  rw [popTf, if_neg hno]

theorem popTf_sepc_yield {tf : Trapframe} (hno : tf.origA0 = 10) : (popTf tf).sepc = tf.sepc + 4 := by
  rw [popTf, if_pos hno]

theorem Sysno.ofWord_ne_ten {no : Word} (hno : Sysno.ofWord no ≠ some .yield) : no ≠ 10 := by
  rintro rfl
  exact hno rfl

theorem Sysno.eq_ten_of_yield {no : Word} (hno : Sysno.ofWord no = some .yield) : no = 10 := by
  obtain ⟨hlt, hget⟩ := List.getElem?_eq_some_iff.mp hno
  have hten : ∀ i (h : i < Sysno.all.length), Sysno.all[i] = .yield → i = 10 := by decide
  exact BitVec.eq_of_toNat_eq (hten _ hlt hget)

namespace Watched

variable {w w' : Watched} {cpu c : Nat} {user : UserTrap} {due : Nat → Due} {k k' : Kern}
variable {exit : SysExit} {e : Nat}

def Inv (w : Watched) : Prop := ∀ e, (w.due e).Matches (w.machine.kern.envs e).envTf

theorem setTrapframe_frame {envid : BitVec 32} {addr : Word}
    (hset : k.sysEnvSetTrapframe envid addr = .ok (exit, k'))
    (he : k.envid2env envid true ≠ .ok (some e)) : (k'.envs e).envTf = (k.envs e).envTf := by
  obtain hkeeps | ⟨target, frame, hfound, -, rfl⟩ := Kern.sysEnvSetTrapframe_keeps hset
  · exact hkeeps.frames e id
  · rw [Kern.setEnv_envs_of_ne]
    rintro rfl
    exact he hfound

theorem syscall_frames (hcur : k.curenv = some c)
    (hcause : Cause.ofScause user.scause = .syscall) (hfork : ¬user.calls .exofork)
    (hsend : ¬user.calls .ipcTrySend) (hset : ¬user.calls .envSetTrapframe)
    (hcall : k.syscall user.dev user.regs.a0 user.regs.a1 user.regs.a2 user.regs.a3 user.regs.a4
      user.regs.a5 = .ok (exit, k')) (e : Nat) : (k'.envs e).envTf = (k.envs e).envTf := by
  have hupdate : k.Update c user.frame k' := Kern.syscall_update hcur hcause hcall
  have hkeeps : Kern.KeepsAll k k' := by
    refine Kern.Update.keepsAll hcur ?_ ?_ ?_ hupdate
    · exact fun hno => hfork ⟨hcause, hno⟩
    · exact fun hno => hsend ⟨hcause, hno⟩
    · exact fun hno => hset ⟨hcause, hno⟩
  exact hkeeps.frames e id

theorem dueOthers_matches (hcur : k.curenv = some c) (hframe : (k.envs c).envTf = user.frame)
    (hdue : ∀ e, e ≠ c → (due e).Matches (k.envs e).envTf)
    (hcause : Cause.ofScause user.scause = .syscall)
    (hreceiver : ∀ e, user.calls .ipcTrySend →
      k.envid2env (user.regs.a1.setWidth 32) false = .ok (some e) →
      (k.envs e).envIpcRecving = true → e ≠ c ∧ ∀ pc, due e ≠ .next pc)
    (hcall : k.syscall user.dev user.regs.a0 user.regs.a1 user.regs.a2 user.regs.a3 user.regs.a4
      user.regs.a5 = .ok (exit, k')) :
    ∀ e, e ≠ c → (dueOthers due k user e).Matches (k'.envs e).envTf := by
  intro e he
  unfold dueOthers
  split_ifs with hfork hsend hset
  · have hrun := hcall
    rw [Kern.syscall, hfork.2] at hrun
    obtain ⟨child, hhead, hkeeps, -, hchild⟩ := Kern.sysExofork_keeps hcur hrun
    simp only [hhead]
    by_cases hec : e = child
    · subst hec
      have hno : user.regs.a0 ≠ 10 := Sysno.ofWord_ne_ten (by rw [hfork.2]; nofun)
      rw [update_self, hchild he, hframe]
      exact popTf_sepc_of_ne hno
    · rw [update_of_ne hec, hkeeps.frames e hec]
      exact hdue e he
  · have hrun := hcall
    rw [Kern.syscall, hsend.2] at hrun
    obtain ⟨⟨ret, mid⟩, hrun, hrest⟩ := bind_eq_ok.mp hrun
    cases pure_eq_ok.mp hrest
    obtain ⟨hret, hkeeps⟩ | ⟨target, rfl, hfound, hrecving, hkeeps, htarget⟩ :=
      Kern.sysIpcTrySend_keeps hrun
    · have hsent : Observed.sentTo k user = none := by
        unfold Observed.sentTo
        rw [if_pos hsend, hcall]
        split
        · next heq =>
          cases heq
          exact absurd hret (by decide)
        · rfl
      rw [hsent, hkeeps.frames e id]
      exact hdue e he
    · have hsent : Observed.sentTo k user = some target := by
        rw [Observed.sentTo, if_pos hsend, hcall, hfound]
        rfl
      simp only [hsent]
      by_cases het : e = target
      · subst het
        rw [update_self, htarget]
        have hbefore := hdue e he
        have hnot := (hreceiver e hsend hfound hrecving).2
        cases hd : due e with
        | unknown => trivial
        | next pc => exact absurd hd (hnot pc)
        | blocked pc =>
            rw [hd] at hbefore
            obtain ⟨hpc, hno⟩ := hbefore
            have hpop : (popTf { (k.envs e).envTf with
                a0 := 0, sepc := (k.envs e).envTf.sepc + 4 }).sepc = (k.envs e).envTf.sepc + 4 :=
              popTf_sepc_of_ne hno
            exact hpop.trans (congrArg (· + 4) hpc)
      · simp only [update_of_ne het, hkeeps.frames e het]
        exact hdue e he
  · have hrun := hcall
    rw [Kern.syscall, hset.2] at hrun
    by_cases hfound : k.envid2env (user.regs.a1.setWidth 32) true = .ok (some e)
    · simp only [hfound, update_self]
      trivial
    · rw [setTrapframe_frame hrun hfound]
      rcases hresult : k.envid2env (user.regs.a1.setWidth 32) true with code | ⟨⟩ | target
      · exact hdue e he
      · exact hdue e he
      · have het : e ≠ target := by
          rintro rfl
          exact hfound hresult
        simp only [update_of_ne het]
        exact hdue e he
  · rw [syscall_frames hcur hcause hfork hsend hset hcall]
    exact hdue e he

theorem syscall_caller (hcur : k.curenv = some c) (hreceiver : ∀ e, user.calls .ipcTrySend →
      k.envid2env (user.regs.a1.setWidth 32) false = .ok (some e) →
      (k.envs e).envIpcRecving = true → e ≠ c)
    (hset : user.calls .envSetTrapframe → k.envid2env (user.regs.a1.setWidth 32) true ≠ .ok (some c))
    (hfork : user.calls .exofork → k.envFreeList ≠ some c)
    (hcause : Cause.ofScause user.scause = .syscall)
    (hcall : k.syscall user.dev user.regs.a0 user.regs.a1 user.regs.a2 user.regs.a3 user.regs.a4
      user.regs.a5 = .ok (exit, k')) : (k'.envs c).envTf = (k.envs c).envTf := by
  by_cases hisFork : user.calls .exofork
  · rw [Kern.syscall, hisFork.2] at hcall
    obtain ⟨child, hhead, hkeeps, -, -⟩ := Kern.sysExofork_keeps hcur hcall
    refine hkeeps.frames c ?_
    rintro rfl
    exact hfork hisFork hhead
  by_cases hisSend : user.calls .ipcTrySend
  · rw [Kern.syscall, hisSend.2] at hcall
    obtain ⟨⟨ret, mid⟩, hrun, hrest⟩ := bind_eq_ok.mp hcall
    cases pure_eq_ok.mp hrest
    obtain ⟨-, hkeeps⟩ | ⟨target, -, hfound, hrecving, hkeeps, -⟩ := Kern.sysIpcTrySend_keeps hrun
    · exact hkeeps.frames c id
    · exact hkeeps.frames c (hreceiver target hisSend hfound hrecving).symm
  by_cases hisSet : user.calls .envSetTrapframe
  · rw [Kern.syscall, hisSet.2] at hcall
    exact setTrapframe_frame hcall (hset hisSet)
  · exact syscall_frames hcur hcause hisFork hisSend hisSet hcall c

theorem ne_yield_of_ret {ret : Int}
    (hcall : k.syscall user.dev user.regs.a0 user.regs.a1 user.regs.a2 user.regs.a3 user.regs.a4
      user.regs.a5 = .ok (.ret ret, k')) : Sysno.ofWord user.regs.a0 ≠ some .yield := by
  intro hno
  rw [Kern.syscall, hno] at hcall
  cases hcall

theorem trapDispatch_matches {exit : TrapExit} (hrunning : w.machine.cpuEnv cpu = some c)
    (hinv : w.Inv) (hsane : w.Sane (.trap cpu user))
    (halive : (w.machine.kern.envs c).envStatus ≠ .dying)
    (hdispatch : (w.machine.inCall cpu c user).trapDispatch user.dev c = .ok (exit, k')) :
    ∀ e, (w.dueAfter cpu c user e).Matches (k'.envs e).envTf := by
  have hframe : ((w.machine.inCall cpu c user).envs c).envTf = user.frame := by
    rw [Machine.inCall, Kern.setEnv_envs_self]
  have hothers : ∀ e, e ≠ c → ((w.machine.inCall cpu c user).envs e).envTf =
      (w.machine.kern.envs e).envTf := by
    intro e he
    rw [Machine.inCall, Kern.setEnv_envs_of_ne _ _ he]
    rfl
  have hdue : ∀ e, e ≠ c → (w.due e).Matches ((w.machine.inCall cpu c user).envs e).envTf := by
    intro e he
    rw [hothers e he]
    exact hinv e
  obtain ⟨hzero, hreceiver, hset, hfork⟩ := hsane c hrunning
  -- the cases in which only the frame of `c` may have changed
  have honly : ∀ own, (∀ e, e ≠ c → (k'.envs e).envTf = ((w.machine.inCall cpu c user).envs e).envTf) →
      own.Matches (k'.envs c).envTf →
      ∀ e, (update w.due c own e).Matches (k'.envs e).envTf := by
    intro own hsame hown e
    by_cases he : e = c
    · rw [he, update_self]
      exact hown
    · rw [update_of_ne he, hsame e he]
      exact hdue e he
  unfold dueAfter
  rw [if_neg halive]
  unfold Kern.trapDispatch at hdispatch
  dsimp only at hdispatch
  rw [hframe] at hdispatch
  have hscause : user.frame.scause = user.scause := rfl
  rw [hscause] at hdispatch
  cases hcause : Cause.ofScause user.scause with
  | timer =>
      rw [hcause] at hdispatch
      cases hdispatch
      refine honly _ (fun e he => by rw [Kern.setEnv_envs_of_ne _ _ he]) ?_
      rw [Kern.setEnv_envs_self]
      exact popTf_sepc_of_ne (show (0 : Word) ≠ 10 by decide)
  | interrupt =>
      rw [hcause] at hdispatch
      cases hdispatch
      refine honly _ (fun e he => by rw [Kern.setEnv_envs_of_ne _ _ he]) ?_
      rw [Kern.setEnv_envs_self]
      exact popTf_sepc_of_ne (hzero (.inr hcause))
  | pageFault =>
      rw [hcause] at hdispatch
      exact honly _ (Kern.pageFaultHandler_keeps hrunning hdispatch).1.frames trivial
  | breakpoint =>
      rw [hcause] at hdispatch
      cases hdispatch
      refine honly _ (fun _ _ => rfl) ?_
      rw [hframe]
      exact popTf_sepc_of_ne (hzero (.inl hcause))
  | other =>
      rw [hcause] at hdispatch
      obtain ⟨⟨gone, mid⟩, hdestroy, hrest⟩ := bind_eq_ok.mp hdispatch
      obtain ⟨rfl, -, vm, rfl⟩ := Kern.envDestroy_self hrunning hdestroy
      cases pure_eq_ok.mp hrest
      exact honly _ (fun e _ => (Kern.keeps_freed _ c c vm).frames e id) trivial
  | syscall =>
      rw [hcause] at hdispatch
      obtain ⟨⟨result, mid⟩, hcall, hrest⟩ := bind_eq_ok.mp hdispatch
      have hrun : (w.machine.inCall cpu c user).syscall user.dev user.regs.a0 user.regs.a1
          user.regs.a2 user.regs.a3 user.regs.a4 user.regs.a5 = .ok (result, mid) := hcall
      have hmid := dueOthers_matches hrunning hframe hdue hcause hreceiver hrun
      have hcaller := (syscall_caller hrunning (fun e h₁ h₂ h₃ => (hreceiver e h₁ h₂ h₃).1) hset hfork
        hcause hrun).trans hframe
      simp only [hrun]
      intro e
      by_cases he : e = c
      · rw [he, update_self]
        cases result with
        | ret value =>
            cases pure_eq_ok.mp hrest
            rw [Kern.setEnv_envs_self, hcaller]
            exact popTf_sepc_of_ne (Sysno.ofWord_ne_ten (ne_yield_of_ret hrun))
        | resched =>
            cases pure_eq_ok.mp hrest
            rw [hcaller]
            unfold dueCaller
            split_ifs with hyield hrecv
            · exact popTf_sepc_yield (Sysno.eq_ten_of_yield hyield.2)
            · refine ⟨rfl, Sysno.ofWord_ne_ten ?_⟩
              exact fun hno => hyield ⟨hcause, hno⟩
            · trivial
      · rw [update_of_ne he]
        cases result with
        | ret value =>
            cases pure_eq_ok.mp hrest
            rw [Kern.setEnv_envs_of_ne _ _ he]
            exact hmid e he
        | resched =>
            cases pure_eq_ok.mp hrest
            exact hmid e he

theorem matches_sched (due : Nat → Due) {env : Env} (status : EnvStatus) (runs : BitVec 32)
    (cpunum : Nat) (henv : (due e).Matches env.envTf) :
    (due e).Matches { env with envStatus := status, envRuns := runs, envCpunum := cpunum }.envTf :=
  henv

theorem trap_matches (hrunning : w.machine.cpuEnv cpu = some c) (hinv : w.Inv)
    (hsane : w.Sane (.trap cpu user))
    (htrap : (w.machine.enter cpu user).trap cpu user.dev user.frame = .ok k') :
    Kern.Holds (fun e env => (w.dueAfter cpu c user e).Matches env.envTf) k' := by
  obtain ⟨hdying, mid, hfree, hyield⟩ | ⟨halive, exit, mid, hdispatch, hend⟩ :=
    Kern.trap_cases (k := w.machine.enter cpu user) hrunning htrap
  · have hkeeps := Kern.envFree_keeps hfree
    refine Kern.Holds.schedYield (k := { mid with curenv := none }) (matches_sched _) ?_ hyield
    have hdue : w.dueAfter cpu c user = update w.due c .unknown := if_pos hdying
    intro e
    rw [hdue]
    by_cases he : e = c
    · rw [he, update_self]
      trivial
    · rw [update_of_ne he]
      change (w.due e).Matches (mid.envs e).envTf
      rw [hkeeps.frames e id]
      exact hinv e
  · have hmid : Kern.Holds (fun e env => (w.dueAfter cpu c user e).Matches env.envTf) mid :=
      trapDispatch_matches hrunning hinv hsane halive hdispatch
    obtain hyield | ⟨e, rfl, -⟩ := hend
    · exact hmid.schedYield (matches_sched _) hyield
    · exact hmid.envRun (matches_sched _) cpu e

theorem Inv.step {event : Event} (hinv : w.Inv) (hsane : w.Sane event) (hstep : w.Step event w') :
    w'.Inv := by
  cases hstep with
  | @trap cpu c user m hrunning hstep =>
      cases hstep with
      | trap _ _ hkernel => exact trap_matches hrunning hinv hsane hkernel
  | @tick cpu m hstep =>
      cases hstep with
      | tick _ hkernel =>
          have hbefore : Kern.Holds (fun e env => (w.due e).Matches env.envTf)
              { w.machine.kern with curenv := none } := hinv
          exact hbefore.schedYield (matches_sched _) hkernel

theorem Inv.of_reachable (hreach : Reachable Starts Step Sane w) : w.Inv := by
  refine hreach.invariant (P := Inv) ?_ fun _ _ _ hinv hsane hstep => hinv.step hsane hstep
  rintro w ⟨-, hdue⟩ e
  rw [hdue e]
  trivial

theorem regs_of_step {event : Event} (hstep : w.Step event w')
    (hrunning : w'.machine.cpuEnv event.cpu = some e) :
    w'.machine.regs event.cpu = popTf (w'.machine.kern.envs e).envTf := by
  have hleave : ∃ (m : Machine) (k : Kern), w'.machine = m.leave event.cpu k := by
    cases hstep with
    | trap _ hstep =>
        cases hstep with
        | trap => exact ⟨_, _, rfl⟩
    | tick hstep =>
        cases hstep with
        | tick => exact ⟨_, _, rfl⟩
  obtain ⟨m, k, hm⟩ := hleave
  rw [hm] at hrunning ⊢
  have hcur : k.curenv = some e := by
    simpa only [Machine.leave, update_self] using hrunning
  simp only [Machine.leave, hcur, update_self]

theorem dueAfter_breakpoint (halive : (w.machine.kern.envs c).envStatus ≠ .dying)
    (hcause : Cause.ofScause user.scause = .breakpoint) :
    w.dueAfter cpu c user c = .next user.regs.sepc := by
  rw [dueAfter, if_neg halive, hcause]
  exact update_self ..

theorem dueAfter_yield (halive : (w.machine.kern.envs c).envStatus ≠ .dying)
    (hyield : user.calls .yield) : w.dueAfter cpu c user c = .next (user.regs.sepc + 4) := by
  simp only [dueAfter, if_neg halive, hyield.1, Kern.syscall, hyield.2, update_self, dueCaller,
    if_pos hyield]

theorem exists_watched {m : Machine} (hreach : Reachable Machine.Boots Machine.Step (fun _ _ => True) m) :
    ∃ w, Reachable Starts Step (fun _ _ => True) w ∧ w.machine = m := by
  induction hreach with
  | @start m hboots => exact ⟨⟨m, fun _ => .unknown⟩, .start ⟨hboots, fun _ => rfl⟩, rfl⟩
  | @next m m' event _ _ hstep ih =>
      obtain ⟨w, hw, rfl⟩ := ih
      cases event with
      | trap cpu user =>
          have hrunning : ∃ c, w.machine.cpuEnv cpu = some c := by
            cases hstep with
            | trap hrunning => exact ⟨_, hrunning⟩
          obtain ⟨c, hrunning⟩ := hrunning
          exact ⟨_, hw.next trivial (.trap hrunning hstep), rfl⟩
      | tick cpu => exact ⟨_, hw.next trivial (.tick hstep), rfl⟩

end Watched

end ZynexOS
