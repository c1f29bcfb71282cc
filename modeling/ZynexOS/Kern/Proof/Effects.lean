import ZynexOS.Kern.Proof.SchedLemmas

/-!
# What a trap does to the table of environments

Before the scheduler runs, a trap changes the status of at most one environment.
-/

namespace ZynexOS

open Library

namespace Kern

variable {k k' mid : Kern} {c : Nat} {tf : Trapframe}

def core (k : Kern) (e : Nat) : EnvStatus × Option Nat × Word :=
  ((k.envs e).envStatus, (k.envs e).envLink, (k.envs e).envPgdir)

structure Quiet (k k' : Kern) : Prop where
  curenv : k'.curenv = k.curenv
  list : k'.envFreeList = k.envFreeList
  core : ∀ e, k'.core e = k.core e

theorem Quiet.refl (k : Kern) : Quiet k k := ⟨rfl, rfl, fun _ => rfl⟩

theorem Quiet.trans (hfirst : Quiet k mid) (hthen : Quiet mid k') : Quiet k k' where
  curenv := hthen.curenv.trans hfirst.curenv
  list := hthen.list.trans hfirst.list
  core e := (hthen.core e).trans (hfirst.core e)

theorem Quiet.status (hquiet : Quiet k k') (e : Nat) :
    (k'.envs e).envStatus = (k.envs e).envStatus := congrArg (·.1) (hquiet.core e)

theorem Quiet.pgdir (hquiet : Quiet k k') (e : Nat) : (k'.envs e).envPgdir = (k.envs e).envPgdir :=
  congrArg (·.2.2) (hquiet.core e)

theorem quiet_setEnv {e : Nat} {env env' : Env}
    (hsame : (env'.envStatus, env'.envLink, env'.envPgdir) = (env.envStatus, env.envLink, env.envPgdir)) :
    Quiet (k.setEnv e env) (k.setEnv e env') := by
  refine ⟨rfl, rfl, fun e' => ?_⟩
  unfold Kern.core
  by_cases he : e' = e
  · subst he
    rw [setEnv_envs_self, setEnv_envs_self]
    exact hsame
  · rw [setEnv_envs_of_ne k _ he, setEnv_envs_of_ne k _ he]

theorem quiet_edit {e : Nat} {env : Env}
    (hsame : (env.envStatus, env.envLink, env.envPgdir) = k.core e) : Quiet k (k.setEnv e env) := by
  refine ⟨rfl, rfl, fun e' => ?_⟩
  by_cases he : e' = e
  · subst he
    unfold Kern.core
    rw [setEnv_envs_self]
    exact hsame
  · unfold Kern.core
    rw [setEnv_envs_of_ne k _ he]

theorem quiet_frame (k : Kern) (vm : Vm) (e : Nat) (frame : Trapframe) :
    Quiet k ({ k with vm := vm }.setEnv e { k.envs e with envTf := frame }) := by
  have hedit : Quiet k (k.setEnv e { k.envs e with envTf := frame }) := quiet_edit rfl
  exact ⟨rfl, rfl, hedit.core⟩

inductive Effects (k : Kern) (c : Nat) (tf : Trapframe) (k' : Kern) : Prop where
  | quiet (hquiet : Quiet k k')
  | setStatus (e : Nat) (status : EnvStatus) (hcall : IsCall tf .envSetStatus)
      (hfound : k.envid2env (tf.a1.setWidth 32) true = .ok (some e))
      (harg : envStatusOf (tf.a2.setWidth 32).toNat = some status)
      (hold : (k.envs e).envStatus = .runnable ∨ (k.envs e).envStatus = .notRunnable)
      (hquiet : Quiet (k.setEnv e { k.envs e with envStatus := status }) k')
  | deliver (e : Nat) (hcall : IsCall tf .ipcTrySend)
      (hfound : k.envid2env (tf.a1.setWidth 32) false = .ok (some e))
      (hrecving : (k.envs e).envIpcRecving = true)
      (hquiet : Quiet (k.setEnv e { k.envs e with envStatus := .runnable }) k')
  | block (hcall : IsCall tf .ipcRecv)
      (hquiet : Quiet (k.setEnv c { k.envs c with envStatus := .notRunnable }) k')
  | fork (e : Nat) (pgdir : Word) (hcall : IsCall tf .exofork) (hhead : k.envFreeList = some e)
      (hquiet : Quiet { k.setEnv e { k.envs e with
        envStatus := .notRunnable, envPgdir := pgdir } with envFreeList := (k.envs e).envLink } k')
  | kill (e : Nat) (hcall : IsCall tf .envDestroy)
      (hfound : k.envid2env (tf.a1.setWidth 32) true = .ok (some e)) (hne : e ≠ c)
      (hrunning : (k.envs e).envStatus = .running)
      (hquiet : Quiet (k.setEnv e { k.envs e with envStatus := .dying }) k')
  | free (e : Nat)
      (hcall : e = c ∨ IsCall tf .envDestroy ∧ k.envid2env (tf.a1.setWidth 32) true = .ok (some e))
      (hstopped : e ≠ c → (k.envs e).envStatus ≠ .running) (hpgdir : (k.envs e).envPgdir ≠ 0)
      (hquiet : Quiet (k.freed c e) k')

theorem Effects.trans_quiet (heffects : Effects k c tf mid) (hquiet : Quiet mid k') :
    Effects k c tf k' := by
  cases heffects with
  | quiet h => exact .quiet (h.trans hquiet)
  | setStatus e status hcall hfound harg hold h =>
      exact .setStatus e status hcall hfound harg hold (h.trans hquiet)
  | deliver e hcall hfound hrecving h => exact .deliver e hcall hfound hrecving (h.trans hquiet)
  | block hcall h => exact .block hcall (h.trans hquiet)
  | fork e pgdir hcall hhead h => exact .fork e pgdir hcall hhead (h.trans hquiet)
  | kill e hcall hfound hne hrunning h =>
      exact .kill e hcall hfound hne hrunning (h.trans hquiet)
  | free e hcall hstopped hpgdir h => exact .free e hcall hstopped hpgdir (h.trans hquiet)

theorem quiet_vm (k : Kern) (vm : Vm) : Quiet k { k with vm := vm } := ⟨rfl, rfl, fun _ => rfl⟩

theorem effects_fork {e : Nat} (hcall : IsCall tf .exofork) {parentId : BitVec 32}
    (halloc : k.envAlloc parentId = .ok (.inl e, mid)) :
    Effects k c tf (mid.setEnv e (mid.childEntry c e)) := by
  obtain ⟨code, vm, hcode, -⟩ | ⟨e', pgdir, vm, he, hhead, -, rfl⟩ := envAlloc_eq halloc
  · cases hcode
  · cases he
    refine .fork e pgdir hcall hhead ⟨rfl, rfl, fun e' => ?_⟩
    unfold Kern.core childEntry Kern.setEnv
    by_cases he : e' = e
    · subst he
      simp
    · simp [he]

theorem Update.effects (hupdate : Update k c tf k') : Effects k c tf k' := by
  cases hupdate with
  | vm vm => exact .quiet (quiet_vm k vm)
  | setStatus e status hcall hfound harg hold =>
      exact .setStatus e status hcall hfound harg hold (.refl _)
  | setFrame e frame => exact .quiet (quiet_edit rfl)
  | setUpcall e func => exact .quiet (quiet_edit rfl)
  | deliver e vm value perm hcall hfound hrecving =>
      have hdeliver : Quiet (k.setEnv e { k.envs e with envStatus := .runnable })
          (k.setEnv e (ipcDeliver (k.envs e) (k.envs c).envId value perm)) := quiet_setEnv rfl
      exact .deliver e hcall hfound hrecving ⟨rfl, rfl, hdeliver.core⟩
  | wait hcall => exact .block hcall (.refl _)
  | receive hcall => exact .block hcall (quiet_setEnv rfl)
  | fork e mid hcall halloc => exact effects_fork hcall halloc
  | kill e hcall hfound hne hrunning => exact .kill e hcall hfound hne hrunning (.refl _)
  | free e vm hcall hstopped hpgdir => exact .free e hcall hstopped hpgdir (quiet_vm _ vm)

theorem effects_freed {tf : Trapframe} (hpgdir : (k.envs c).envPgdir ≠ 0) (vm : Vm) :
    Effects k c tf { k.freed c c with vm := vm } :=
  .free c (.inl rfl) (fun hne => absurd rfl hne) hpgdir (quiet_vm _ vm)

theorem trapDispatch_effects {dev : Int} {exit : TrapExit} (hcur : k.curenv = some c)
    (htf : (k.envs c).envTf = tf) (hdispatch : k.trapDispatch dev c = .ok (exit, k')) :
    Effects k c tf k' ∧ (exit = .run → Quiet k k') := by
  unfold Kern.trapDispatch at hdispatch
  dsimp only at hdispatch
  rw [htf] at hdispatch
  split at hdispatch
  · cases hdispatch
    exact ⟨.quiet (quiet_edit rfl), by nofun⟩
  · cases hdispatch
    exact ⟨.quiet (quiet_edit rfl), by nofun⟩
  · obtain ⟨rfl, hpgdir, vm, rfl⟩ | ⟨-, sp, vm, rfl⟩ := pageFaultHandler_cases hcur hdispatch
    · exact ⟨effects_freed hpgdir vm, by nofun⟩
    · exact ⟨.quiet (quiet_frame k vm c _), fun _ => quiet_frame k vm c _⟩
  · cases hdispatch
    exact ⟨.quiet (.refl k), by nofun⟩
  · next hcause =>
      obtain ⟨⟨result, mid⟩, hcall, hrest⟩ := bind_eq_ok.mp hdispatch
      have heffects := (syscall_update hcur hcause hcall).effects
      cases result with
      | resched =>
          cases pure_eq_ok.mp hrest
          exact ⟨heffects, by nofun⟩
      | ret value =>
          cases pure_eq_ok.mp hrest
          exact ⟨heffects.trans_quiet (quiet_edit rfl), by nofun⟩
  · obtain ⟨⟨gone, mid⟩, hdestroy, hrest⟩ := bind_eq_ok.mp hdispatch
    obtain ⟨rfl, hpgdir, vm, rfl⟩ := envDestroy_self hcur hdestroy
    cases pure_eq_ok.mp hrest
    exact ⟨effects_freed hpgdir vm, by nofun⟩

theorem trap_effects {cpu : Nat} {dev : Int} (hcur : k.curenv = some c)
    (htrap : k.trap cpu dev tf = .ok k') :
    ∃ mid, ((k.envs c).envStatus = .dying ∧ (k.envs c).envPgdir ≠ 0 ∧ Quiet (k.freed c c) mid ∨
      (k.envs c).envStatus ≠ .dying ∧
        Effects (k.setEnv c { k.envs c with envTf := tf }) c tf mid) ∧
      (mid.schedYield cpu = .ok k' ∨ ∃ e, mid.curenv = some e ∧ k' = mid.envRun cpu e ∧
        ((mid.envs e).envStatus = .running ∨ e = c ∧ Quiet k mid)) := by
  obtain ⟨hdying, mid, hfree, hyield⟩ | ⟨halive, exit, mid, hdispatch, hend⟩ := trap_cases hcur htrap
  · have hpgdir := pgdir_ne_zero_of_envFree hfree
    obtain ⟨vm, rfl⟩ := envFree_eq hfree
    refine ⟨_, .inl ⟨hdying, hpgdir, ?_⟩, .inl hyield⟩
    exact ⟨(if_pos rfl).symm, rfl, fun _ => rfl⟩
  · have hsaved : Quiet k (k.setEnv c { k.envs c with envTf := tf }) := quiet_edit rfl
    obtain ⟨heffects, hrun⟩ := trapDispatch_effects
      (k := k.setEnv c { k.envs c with envTf := tf }) hcur (by rw [setEnv_envs_self]) hdispatch
    refine ⟨mid, .inr ⟨halive, heffects⟩, ?_⟩
    obtain hyield | ⟨e, rfl, ⟨rfl, rfl⟩ | ⟨hmid, hrunning⟩⟩ := hend
    · exact .inl hyield
    · have hquiet := hsaved.trans (hrun rfl)
      exact .inr ⟨e, hquiet.curenv.trans hcur, rfl, .inr ⟨rfl, hquiet⟩⟩
    · exact .inr ⟨e, hmid, rfl, .inl hrunning⟩

end Kern

end ZynexOS
