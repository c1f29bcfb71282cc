import ZynexOS.Kern.Proof.Frames

/-! # The frames that a trap changes -/

namespace ZynexOS

open Library Function

namespace Kern

variable {k k' mid : Kern} {c : Nat} {but : Nat → Prop}

/-- The saved frames of all environments are kept but for those in `but`. No other environment comes to
life, the current one apart, and the table stays in its place. -/
structure Keeps (k k' : Kern) (but : Nat → Prop) : Prop where
  frames : ∀ e, ¬but e → (k'.envs e).envTf = (k.envs e).envTf
  live : ∀ e, ¬but e → (k'.envs e).envStatus ≠ .free →
    (k.envs e).envStatus ≠ .free ∨ k.curenv = some e
  addr : k'.envsAddr = k.envsAddr
  cur : k'.curenv = k.curenv ∨ k'.curenv = none

abbrev KeepsAll (k k' : Kern) : Prop := Keeps k k' fun _ => False

theorem Keeps.refl (k : Kern) : Keeps k k but := ⟨fun _ _ => rfl, fun _ _ => .inl, rfl, .inl rfl⟩

theorem Keeps.of_all (hall : KeepsAll k k') : Keeps k k' but :=
  ⟨fun e _ => hall.frames e id, fun e _ => hall.live e id, hall.addr, hall.cur⟩

theorem Keeps.trans (hfirst : Keeps k mid but) (hthen : Keeps mid k' but) : Keeps k k' but where
  frames e he := (hthen.frames e he).trans (hfirst.frames e he)
  live e he hlive := by
    obtain hmid | hcur := hthen.live e he hlive
    · exact hfirst.live e he hmid
    · obtain hsame | hnone := hfirst.cur
      · exact .inr (hsame.symm.trans hcur)
      · rw [hnone] at hcur
        cases hcur
  addr := hthen.addr.trans hfirst.addr
  cur := by
    obtain hcur | hcur := hthen.cur
    · rw [hcur]
      exact hfirst.cur
    · exact .inr hcur

theorem Keeps.of_vm (hvm : ∃ vm, k' = { k with vm := vm }) : Keeps k k' but := by
  obtain ⟨vm, rfl⟩ := hvm
  exact ⟨fun _ _ => rfl, fun _ _ => .inl, rfl, .inl rfl⟩

theorem keeps_setEnv {e : Nat} {env : Env} (htf : ¬but e → env.envTf = (k.envs e).envTf)
    (hlive : ¬but e → env.envStatus ≠ .free → (k.envs e).envStatus ≠ .free ∨ k.curenv = some e) :
    Keeps k (k.setEnv e env) but where
  frames e' hbut := by
    by_cases he : e' = e
    · subst he
      rw [setEnv_envs_self, htf hbut]
    · rw [setEnv_envs_of_ne _ _ he]
  live e' hbut := by
    by_cases he : e' = e
    · subst he
      rw [setEnv_envs_self]
      exact hlive hbut
    · rw [setEnv_envs_of_ne _ _ he]
      exact .inl
  addr := rfl
  cur := .inl rfl

theorem envFree_keeps {e : Nat} (hfree : k.envFree e = .ok k') : KeepsAll k k' := by
  obtain ⟨vm, rfl⟩ := envFree_eq hfree
  have hset : KeepsAll k ({ k with vm := vm }.setEnv e { k.envs e with
      envPgdir := 0, envStatus := .free, envLink := k.envFreeList }) :=
    (Keeps.of_vm ⟨vm, rfl⟩).trans (keeps_setEnv (fun _ => rfl) fun _ hlive => absurd rfl hlive)
  exact ⟨hset.frames, hset.live, rfl, .inl rfl⟩

theorem keeps_freed (k : Kern) (c e : Nat) (vm : Vm) : KeepsAll k { k.freed c e with vm := vm } := by
  have hset : KeepsAll k (k.setEnv e { k.envs e with
      envPgdir := 0, envStatus := .free, envLink := k.envFreeList }) :=
    keeps_setEnv (fun _ => rfl) fun _ hlive => absurd rfl hlive
  refine ⟨hset.frames, hset.live, rfl, ?_⟩
  by_cases he : e = c
  · exact .inr (if_pos he)
  · exact .inl (if_neg he)

theorem pageFaultHandler_keeps {exit : TrapExit} (hcur : k.curenv = some c)
    (hhandler : k.pageFaultHandler c = .ok (exit, k')) :
    Keeps k k' (· = c) ∧ (k'.envs c).envTf.tp = (k.envs c).envTf.tp := by
  obtain ⟨-, -, vm, rfl⟩ | ⟨-, sp, vm, rfl⟩ := pageFaultHandler_cases hcur hhandler
  · have hfreed := keeps_freed k c c vm
    exact ⟨.of_all hfreed, congrArg Trapframe.tp (hfreed.frames c id)⟩
  · refine ⟨(Keeps.of_vm ⟨vm, rfl⟩).trans (keeps_setEnv (absurd rfl) (absurd rfl)), ?_⟩
    rw [setEnv_envs_self]

theorem sysExofork_keeps {exit : SysExit} (hcur : k.curenv = some c)
    (hfork : k.sysExofork = .ok (exit, k')) :
    ∃ child, k.envFreeList = some child ∧ Keeps k k' (· = child) ∧
      (k'.envs child).envTf.tp = k.envAddr child ∧
      (child ≠ c → (k'.envs child).envTf = { (k.envs c).envTf with
        a0 := 0, sepc := (k.envs c).envTf.sepc + 4, tp := k.envAddr child }) := by
  have hrest := (cur_bind_eq_ok hcur).mp hfork
  obtain ⟨⟨result, mid⟩, halloc, hrest⟩ := bind_eq_ok.mp hrest
  obtain ⟨code, vm, rfl, rfl⟩ | ⟨child, pgdir, vm, rfl, hhead, -, rfl⟩ := envAlloc_eq halloc
  · exact absurd hrest throw_ne_ok
  · cases pure_eq_ok.mp hrest
    refine ⟨child, hhead, ⟨fun e he => ?_, fun e he => ?_, rfl, .inl rfl⟩, ?_, fun hne => ?_⟩
    · rw [setEnv_envs_of_ne _ _ he]
      exact congrArg Env.envTf (update_of_ne he ..)
    · rw [setEnv_envs_of_ne _ _ he]
      simp only [Kern.setEnv, update_of_ne he]
      exact .inl
    · rw [setEnv_envs_self]
      rfl
    · rw [setEnv_envs_self]
      simp only [Kern.setEnv, update_of_ne hne.symm]
      rfl

theorem sysIpcTrySend_keeps {envid : BitVec 32} {value srcva : Word} {perm : BitVec 32} {ret : Int}
    (hsend : k.sysIpcTrySend envid value srcva perm = .ok (ret, k')) :
    (ret < 0 ∧ KeepsAll k k') ∨
    ∃ target, ret = 0 ∧ k.envid2env envid false = .ok (some target) ∧
      (k.envs target).envIpcRecving = true ∧ Keeps k k' (· = target) ∧
      (k'.envs target).envTf =
        { (k.envs target).envTf with a0 := 0, sepc := (k.envs target).envTf.sepc + 4 } := by
  obtain ⟨hret, hvm⟩ | ⟨target, sender, rfl, hfound, hrecving, -, hend⟩ := sysIpcTrySend_cases hsend
  · exact .inl ⟨hret, .of_vm hvm⟩
  · obtain ⟨vm, perm', rfl⟩ : ∃ vm perm', k' = { k with vm := vm }.setEnv target
        (ipcDeliver (k.envs target) (k.envs sender).envId value perm') := by
      obtain ⟨-, rfl⟩ | ⟨-, pp, vm, -, rfl⟩ := hend
      · exact ⟨k.vm, 0, rfl⟩
      · exact ⟨vm, perm, rfl⟩
    refine .inr ⟨target, rfl, hfound, hrecving,
      (Keeps.of_vm ⟨vm, rfl⟩).trans (keeps_setEnv (absurd rfl) (absurd rfl)), ?_⟩
    rw [setEnv_envs_self]
    rfl

theorem sysEnvSetTrapframe_keeps {envid : BitVec 32} {addr : Word} {exit : SysExit}
    (hset : k.sysEnvSetTrapframe envid addr = .ok (exit, k')) :
    KeepsAll k k' ∨ ∃ target frame, k.envid2env envid true = .ok (some target) ∧
      readTrapframe k.vm addr = .ok frame ∧ k' = k.setEnv target { k.envs target with envTf := frame } := by
  obtain ⟨found, hfound, hrest⟩ := bind_eq_ok.mp hset
  cases found with
  | none =>
      cases pure_eq_ok.mp hrest
      exact .inl (.refl _)
  | some target =>
      obtain ⟨frame, hread, hrest⟩ := bind_eq_ok.mp hrest
      cases pure_eq_ok.mp hrest
      exact .inr ⟨target, frame, hfound, hread, rfl⟩

theorem Update.keepsAll {tf : Trapframe} (hcur : k.curenv = some c)
    (hfork : Sysno.ofWord tf.a0 ≠ some .exofork) (hsend : Sysno.ofWord tf.a0 ≠ some .ipcTrySend)
    (hset : Sysno.ofWord tf.a0 ≠ some .envSetTrapframe) (hupdate : Update k c tf k') :
    KeepsAll k k' := by
  have hself : ∀ env : Env, env.envTf = (k.envs c).envTf → KeepsAll k (k.setEnv c env) := fun env htf =>
    keeps_setEnv (fun _ => htf) fun _ _ => .inr hcur
  cases hupdate with
  | vm vm => exact .of_vm ⟨vm, rfl⟩
  | setStatus e status _ _ _ hold =>
      refine keeps_setEnv (fun _ => rfl) fun _ _ => .inl ?_
      obtain hold | hold := hold <;> rw [hold] <;> nofun
  | setFrame _ _ hcall => exact absurd hcall.2 hset
  | setUpcall e func => exact keeps_setEnv (fun _ => rfl) fun _ => .inl
  | deliver _ _ _ _ hcall => exact absurd hcall.2 hsend
  | wait => exact hself _ rfl
  | receive => exact hself _ rfl
  | fork _ _ hcall => exact absurd hcall.2 hfork
  | kill e _ _ _ hrunning =>
      exact keeps_setEnv (fun _ => rfl) fun _ _ => .inl (by rw [hrunning]; nofun)
  | free e vm => exact keeps_freed k c e vm

end Kern

namespace Machine

def tenIn (m : Machine) (scause tp : Word) : UserTrap where
  regs := { sepc := 0x800000, a0 := 10, tp := tp }
  status := 0x20
  stval := 0
  scause := scause
  dev := 0
  mem := m.kern.vm.mem

def tenRun (scause tp : Word) : Option (Kern × Machine × Machine) := do
  let k ← (Kern.boot Vm.small (pageKva 0) uenvs 0 [(Kern.smallImage, .user)]).toOption
  let running ← ((start k).exec (.tick 0)).toOption
  let last ← (running.exec (.trap 0 (running.tenIn scause tp))).toOption
  pure (k, running, last)

theorem steps_of_tenRun {scause tp : Word} {k : Kern} {running last : Machine}
    (hrun : tenRun scause tp = some (k, running, last)) (hcpu : running.cpuEnv 0 = some 0) :
    (start k).Boots ∧ (start k).Step (.tick 0) running ∧
      running.Step (.trap 0 (running.tenIn scause tp)) last := by
  unfold tenRun at hrun
  obtain ⟨k₀, hboot, hrest⟩ := Option.bind_eq_some_iff.mp hrun
  obtain ⟨running₀, htick, hrest⟩ := Option.bind_eq_some_iff.mp hrest
  obtain ⟨last₀, htrap, hrest⟩ := Option.bind_eq_some_iff.mp hrest
  cases hrest
  exact ⟨⟨Vm.small, pageKva 0, uenvs, 0, [(Kern.smallImage, .user)], k, by decide,
      eq_ok_of_toOption hboot, rfl⟩,
    step_of_exec_tick rfl (eq_ok_of_toOption htick),
    step_of_exec hcpu (show spp 0x20 = false by decide) (eq_ok_of_toOption htrap)⟩

end Machine

end ZynexOS
