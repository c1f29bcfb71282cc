import ZynexOS.Kern.EnvTable
import ZynexOS.Kern.Proof.Frames
import ZynexOS.Kern.Proof.Effects

/-! # The list of free environments -/

namespace ZynexOS

open Library

namespace Kern

variable {k k' : Kern} {l : List Nat}
variable {e : Nat}

structure FreeMembers (k : Kern) (l : List Nat) : Prop where
  chain : Chain (fun e => (k.envs e).envLink) k.envFreeList l
  nodup : l.Nodup
  status : ∀ e ∈ l, (k.envs e).envStatus = .free
  pgdir : ∀ e ∈ l, (k.envs e).envPgdir = 0

structure FreeEnvs (k : Kern) (l : List Nat) : Prop extends FreeMembers k l where
  mem_iff : ∀ e, e ∈ l ↔ e < nEnv ∧ (k.envs e).envStatus = .free

theorem FreeEnvs.agrees (hfree : FreeEnvs k l) : FreeListAgrees k :=
  ⟨l, hfree.chain, hfree.nodup, hfree.mem_iff⟩

theorem FreeMembers.congr (hfree : FreeMembers k l) (hlist : k'.envFreeList = k.envFreeList)
    (hsame : ∀ e, (k.envs e).envStatus = .free → k'.core e = k.core e) : FreeMembers k' l where
  chain := by
    rw [hlist]
    exact hfree.chain.congr fun e he => congrArg (·.2.1) (hsame e (hfree.status e he))
  nodup := hfree.nodup
  status e he := (congrArg (·.1) (hsame e (hfree.status e he))).trans (hfree.status e he)
  pgdir e he := (congrArg (·.2.2) (hsame e (hfree.status e he))).trans (hfree.pgdir e he)

theorem core_setEnv_of_ne (k : Kern) {e' : Nat} (env : Env) (hne : e' ≠ e) :
    (k.setEnv e env).core e' = k.core e' := by
  unfold Kern.core
  rw [setEnv_envs_of_ne k env hne]

theorem FreeMembers.setEnv (hfree : FreeMembers k l) (env : Env)
    (hold : (k.envs e).envStatus ≠ .free) : FreeMembers (k.setEnv e env) l := by
  refine hfree.congr rfl fun e' he' => core_setEnv_of_ne k env ?_
  rintro rfl
  exact hold he'

theorem FreeMembers.pop (hfree : FreeMembers k l) (hhead : k.envFreeList = some e)
    (env : Env) : ∃ l', l = e :: l' ∧
      FreeMembers { k.setEnv e env with envFreeList := (k.envs e).envLink } l' := by
  have hchain := hfree.chain
  rw [hhead] at hchain
  obtain ⟨l', rfl, hrest⟩ := hchain.exists_cons
  have hcore : ∀ e' ∈ l', (k.setEnv e env).core e' = k.core e' := by
    intro e' he'
    refine core_setEnv_of_ne k env ?_
    rintro rfl
    exact (List.nodup_cons.mp hfree.nodup).1 he'
  refine ⟨l', rfl, ?_, (List.nodup_cons.mp hfree.nodup).2, ?_, ?_⟩
  · exact hrest.congr fun e' he' => congrArg (·.2.1) (hcore e' he')
  · intro e' he'
    exact (congrArg (·.1) (hcore e' he')).trans (hfree.status e' (List.mem_cons_of_mem e he'))
  · intro e' he'
    exact (congrArg (·.2.2) (hcore e' he')).trans (hfree.pgdir e' (List.mem_cons_of_mem e he'))

theorem FreeMembers.push (hfree : FreeMembers k l) (hpgdir : (k.envs e).envPgdir ≠ 0)
    (c : Nat) : e ∉ l ∧ FreeMembers (k.freed c e) (e :: l) := by
  have hnot : e ∉ l := fun h => hpgdir (hfree.pgdir e h)
  have hself : (k.freed c e).core e = (.free, k.envFreeList, 0) := by
    unfold Kern.core freed
    dsimp only
    rw [setEnv_envs_self]
  have hcore : ∀ e' ∈ l, (k.freed c e).core e' = k.core e' := by
    intro e' he'
    refine core_setEnv_of_ne k _ ?_
    rintro rfl
    exact hnot he'
  refine ⟨hnot, ⟨rfl, ?_⟩, List.nodup_cons.mpr ⟨hnot, hfree.nodup⟩, ?_, ?_⟩
  · dsimp only
    rw [show ((k.freed c e).envs e).envLink = k.envFreeList from congrArg (·.2.1) hself]
    exact hfree.chain.congr fun e' he' => congrArg (·.2.1) (hcore e' he')
  · intro e' he'
    obtain rfl | he' := List.mem_cons.mp he'
    · exact congrArg (·.1) hself
    · exact (congrArg (·.1) (hcore e' he')).trans (hfree.status e' he')
  · intro e' he'
    obtain rfl | he' := List.mem_cons.mp he'
    · exact congrArg (·.2.2) hself
    · exact (congrArg (·.2.2) (hcore e' he')).trans (hfree.pgdir e' he')

structure KeepsFree (k k' : Kern) : Prop where
  list : k'.envFreeList = k.envFreeList
  status : ∀ e, (k'.envs e).envStatus = .free ↔ (k.envs e).envStatus = .free
  core : ∀ e, (k.envs e).envStatus = .free → k'.core e = k.core e

section

variable (hfree : FreeEnvs k l)
include hfree

theorem FreeEnvs.congr (hkeeps : KeepsFree k k') : FreeEnvs k' l where
  toFreeMembers := hfree.toFreeMembers.congr hkeeps.list hkeeps.core
  mem_iff e := by rw [hfree.mem_iff, hkeeps.status]

theorem FreeEnvs.setEnv {env : Env}
    (hold : (k.envs e).envStatus ≠ .free) (hnew : env.envStatus ≠ .free) :
    FreeEnvs (k.setEnv e env) l := by
  refine ⟨hfree.toFreeMembers.setEnv env hold, fun e' => ?_⟩
  by_cases he : e' = e
  · subst he
    rw [setEnv_envs_self, hfree.mem_iff]
    exact iff_of_false (fun h => hold h.2) fun h => hnew h.2
  · rw [setEnv_envs_of_ne k env he, hfree.mem_iff]

theorem FreeEnvs.pop (hhead : k.envFreeList = some e) (env : Env) (hnew : env.envStatus ≠ .free) :
    ∃ l', FreeEnvs { k.setEnv e env with envFreeList := (k.envs e).envLink } l' := by
  obtain ⟨l', rfl, hmembers⟩ := hfree.toFreeMembers.pop hhead env
  refine ⟨l', hmembers, fun e' => ?_⟩
  show e' ∈ l' ↔ e' < nEnv ∧ ((k.setEnv e env).envs e').envStatus = .free
  by_cases he : e' = e
  · subst he
    rw [setEnv_envs_self]
    exact iff_of_false (List.nodup_cons.mp hfree.nodup).1 fun h => hnew h.2
  · rw [setEnv_envs_of_ne k env he, ← hfree.mem_iff e', List.mem_cons]
    exact ⟨.inr, fun h => h.resolve_left he⟩

theorem FreeEnvs.envFree (he : e < nEnv) (hcall : k.envFree e = .ok k') : FreeEnvs k' (e :: l) := by
  obtain ⟨-, hmembers⟩ := hfree.toFreeMembers.push (pgdir_ne_zero_of_envFree hcall) e
  obtain ⟨vm, rfl⟩ := envFree_eq hcall
  refine ⟨hmembers.congr rfl fun _ _ => rfl, fun e' => ?_⟩
  rw [List.mem_cons]
  by_cases heq : e' = e
  · subst heq
    refine iff_of_true (.inl rfl) ⟨he, ?_⟩
    show ((Kern.setEnv { k with vm := vm } e' _).envs e').envStatus = .free
    rw [setEnv_envs_self]
  · show e' = e ∨ e' ∈ l ↔
      e' < nEnv ∧ ((Kern.setEnv { k with vm := vm } e _).envs e').envStatus = .free
    rw [setEnv_envs_of_ne { k with vm := vm } _ heq, ← hfree.mem_iff e']
    exact ⟨fun h => h.resolve_left heq, .inr⟩

theorem FreeEnvs.envDestroy {gone : Bool} (he : e < nEnv)
    (hcall : k.envDestroy e = .ok (gone, k')) : ∃ l', FreeEnvs k' l' := by
  unfold Kern.envDestroy at hcall
  split at hcall
  · next hrunning =>
      cases hcall
      refine ⟨l, hfree.setEnv ?_ (by nofun)⟩
      rw [hrunning.1]
      nofun
  · obtain ⟨mid, hmid, hrest⟩ := bind_eq_ok.mp hcall
    have hmid' := hfree.envFree he hmid
    split at hrest
    · cases pure_eq_ok.mp hrest
      exact ⟨_, hmid'.congr ⟨rfl, fun _ => Iff.rfl, fun _ _ => rfl⟩⟩
    · cases pure_eq_ok.mp hrest
      exact ⟨_, hmid'⟩

theorem FreeEnvs.envAlloc {parentId : BitVec 32} {result : Nat ⊕ Int}
    (hcall : k.envAlloc parentId = .ok (result, k')) :
    ∃ l', FreeEnvs k' l' ∧ ∀ e, result = .inl e → (k'.envs e).envStatus ≠ .free := by
  obtain ⟨code, vm, rfl, rfl⟩ | ⟨e, pgdir, vm, rfl, hhead, -, rfl⟩ := envAlloc_eq hcall
  · exact ⟨l, hfree.congr ⟨rfl, fun _ => Iff.rfl, fun _ _ => rfl⟩, by nofun⟩
  · have hvm : FreeEnvs { k with vm := vm } l :=
      hfree.congr ⟨rfl, fun _ => Iff.rfl, fun _ _ => rfl⟩
    refine (hvm.pop hhead _ (by nofun)).imp fun l' hl' => ⟨hl', ?_⟩
    rintro e' heq
    cases heq
    show ((Kern.setEnv { k with vm := vm } e _).envs e).envStatus ≠ .free
    rw [setEnv_envs_self]
    nofun

theorem FreeEnvs.sysExofork {exit : SysExit}
    (hcall : k.sysExofork = .ok (exit, k')) : ∃ l', FreeEnvs k' l' := by
  obtain ⟨c, -, hrest⟩ := bind_eq_ok.mp hcall
  obtain ⟨⟨result, mid⟩, halloc, hrest⟩ := bind_eq_ok.mp hrest
  obtain ⟨l', hmid, hchild⟩ := hfree.envAlloc halloc
  cases result with
  | inr code => cases hrest
  | inl e =>
      cases pure_eq_ok.mp hrest
      exact ⟨l', hmid.setEnv (hchild e rfl) (by nofun)⟩

theorem FreeEnvs.sysEnvSetStatus {envid status : BitVec 32} {exit : SysExit}
    (hsafe : StoresNoFree k (.setStatus envid status))
    (hcall : k.sysEnvSetStatus envid status = .ok (exit, k')) : FreeEnvs k' l := by
  unfold Kern.sysEnvSetStatus at hcall
  split at hcall
  · cases hcall
    exact hfree
  · next status' hstatus =>
      obtain ⟨found, hfound, hrest⟩ := bind_eq_ok.mp hcall
      cases found with
      | none =>
          cases pure_eq_ok.mp hrest
          exact hfree
      | some e =>
          dsimp only at hrest
          split at hrest
          · next hkind =>
              cases pure_eq_ok.mp hrest
              have hold : (k.envs e).envStatus ≠ .free := by
                obtain h | h := hkind <;> rw [h] <;> nofun
              refine hfree.setEnv hold ?_
              -- the status argument 0 is the one that means ENV_FREE
              rintro rfl
              have hzero : status = 0 := by
                unfold envStatusOf at hstatus
                split at hstatus
                · next h => exact BitVec.eq_of_toNat_eq h
                all_goals cases hstatus
              obtain ⟨h₁, h₂⟩ := hsafe hzero e hfound
              exact hkind.elim h₁ h₂
          · cases pure_eq_ok.mp hrest
            exact hfree

end

theorem envRun_free_iff (cpu : Nat) (hlive : (k.envs e).envStatus ≠ .free) (e' : Nat) :
    ((k.envRun cpu e).envs e').envStatus = .free ↔ (k.envs e').envStatus = .free := by
  obtain ⟨hcur, hrunning, hothers⟩ := envRun_status k cpu e
  by_cases he : e' = e
  · subst he
    rw [hrunning]
    exact iff_of_false nofun hlive
  · by_cases hkeeps : k.curenv ≠ some e' ∨ (k.envs e').envStatus ≠ .running
    · rw [hothers e' he hkeeps]
    · -- the environment that was running becomes runnable
      obtain ⟨hcur', hrun'⟩ := not_or.mp hkeeps
      rw [not_not] at hcur' hrun'
      have hnew : ((k.envRun cpu e).envs e').envStatus = .runnable := by
        unfold envRun
        simp [hcur', hrun', setEnv_envs_of_ne _ _ he]
      rw [hnew, hrun']
      exact iff_of_false nofun nofun

theorem keepsFree_envRun {cpu : Nat} (hlive : (k.envs e).envStatus ≠ .free) :
    KeepsFree k (k.envRun cpu e) where
  list := by
    unfold Kern.envRun
    split
    · rfl
    · dsimp only
      split <;> rfl
  status := envRun_free_iff cpu hlive
  core e' he' := by
    have hstatus := (envRun_free_iff cpu hlive e').mpr he'
    have hsame := envRun_same k cpu e e'
    unfold SchedSame at hsame
    unfold Kern.core
    rw [hstatus, he', hsame]

theorem keepsFree_schedHalt (hcall : k.schedHalt = .ok k') : KeepsFree k k' := by
  unfold Kern.schedHalt at hcall
  split at hcall
  · cases hcall
  · cases hcall
    exact ⟨rfl, fun _ => Iff.rfl, fun _ _ => rfl⟩

theorem keepsFree_schedYield {cpu : Nat} (hcall : k.schedYield cpu = .ok k') : KeepsFree k k' := by
  have hlive : ∀ {slots e}, k.findRunnable slots = some e → (k.envs e).envStatus ≠ .free := by
    intro slots e hfind
    rw [findRunnable_eq_some hfind]
    nofun
  unfold Kern.schedYield at hcall
  split at hcall
  · split at hcall
    · next hfind =>
        cases hcall
        exact keepsFree_envRun (hlive hfind)
    · exact keepsFree_schedHalt hcall
  · split at hcall
    · next hfind =>
        cases hcall
        exact keepsFree_envRun (hlive hfind)
    · split at hcall
      · next hfind =>
          cases hcall
          exact keepsFree_envRun (hlive hfind)
      · split at hcall
        · next hrunning =>
            cases hcall
            refine keepsFree_envRun ?_
            rw [hrunning]
            nofun
        · exact keepsFree_schedHalt hcall

theorem freeEnvs_ready (hready : EnvsReady k) : ∃ l, FreeEnvs k l := by
  obtain ⟨vm, kernPgdir, envsAddr, sstatus, rfl⟩ := hready
  have hchain := chain_range' (m := nEnv) 0 (Nat.zero_add nEnv)
  refine ⟨List.range' 0 nEnv, ⟨hchain, List.nodup_range', fun _ _ => rfl, fun _ _ => rfl⟩,
    fun e => ?_⟩
  rw [List.mem_range'_1, Nat.zero_add]
  exact ⟨fun h => ⟨h.2, rfl⟩, fun h => ⟨Nat.zero_le e, h.1⟩⟩

theorem freeEnvs_step {op : EnvOp} (hinv : ∃ l, FreeEnvs k l) (hsafe : StoresNoFree k op)
    (hstep : EnvStep k op k') : ∃ l, FreeEnvs k' l := by
  obtain ⟨l, hfree⟩ := hinv
  obtain ⟨htable, happly⟩ := hstep
  cases op with
  | enter cur vm =>
      cases pure_eq_ok.mp happly
      exact ⟨l, hfree.congr ⟨rfl, fun _ => Iff.rfl, fun _ _ => rfl⟩⟩
  | alloc parentId =>
      obtain ⟨⟨result, mid⟩, hcall, hrest⟩ := bind_eq_ok.mp happly
      cases pure_eq_ok.mp hrest
      obtain ⟨l', hl', -⟩ := hfree.envAlloc hcall
      exact ⟨l', hl'⟩
  | exofork =>
      obtain ⟨⟨exit, mid⟩, hcall, hrest⟩ := bind_eq_ok.mp happly
      cases pure_eq_ok.mp hrest
      exact hfree.sysExofork hcall
  | setStatus envid status =>
      obtain ⟨⟨exit, mid⟩, hcall, hrest⟩ := bind_eq_ok.mp happly
      cases pure_eq_ok.mp hrest
      exact ⟨l, hfree.sysEnvSetStatus hsafe hcall⟩
  | destroy e =>
      obtain ⟨⟨gone, mid⟩, hcall, hrest⟩ := bind_eq_ok.mp happly
      cases pure_eq_ok.mp hrest
      simp only [EnvOp.InTable] at htable
      exact hfree.envDestroy htable hcall
  | free e =>
      simp only [EnvOp.InTable] at htable
      exact ⟨e :: l, hfree.envFree htable happly⟩
  | yield cpu =>
      simp only [Kern.apply] at happly
      exact ⟨l, hfree.congr (keepsFree_schedYield happly)⟩

/-- In every run in which `sys_env_set_status` never stores `ENV_FREE`, the list of free environments
holds exactly the entries that are `ENV_FREE`, each once. -/
theorem freeListAgrees_of_reachable (hreach : Reachable EnvsReady EnvStep StoresNoFree k) :
    FreeListAgrees k := by
  have hinv : ∃ l, FreeEnvs k l :=
    hreach.invariant (P := fun k => ∃ l, FreeEnvs k l) (fun _ => freeEnvs_ready)
      fun _ _ _ => freeEnvs_step
  obtain ⟨l, hfree⟩ := hinv
  exact hfree.agrees

def smallTable : Kern :=
  Kern.envInit { vm := Vm.small, kernPgdir := pageKva 0, envsAddr := uenvs, envs := fun _ => {}
                 envFreeList := none, curenv := none, sstatus := 0 }

def statusRun (status : BitVec 32) : Except Panic Kern := do
  let first ← smallTable.apply (.alloc 0)
  let running ← first.apply (.enter (some 0) first.vm)
  let forked ← running.apply .exofork
  forked.apply (.setStatus 0x1001 status)

theorem reachable_of_statusRun {allowed : Kern → EnvOp → Prop} {status : BitVec 32} {last : Kern}
    (hrun : statusRun status = .ok last)
    (hother : ∀ k op, (∀ envid status, op ≠ .setStatus envid status) → allowed k op)
    (hset : ∀ k, allowed k (.setStatus 0x1001 status)) : Reachable EnvsReady EnvStep allowed last := by
  obtain ⟨first, hfirst, hrest⟩ := bind_eq_ok.mp hrun
  obtain ⟨running, hrunning, hrest⟩ := bind_eq_ok.mp hrest
  obtain ⟨forked, hforked, hlast⟩ := bind_eq_ok.mp hrest
  have hready : EnvsReady smallTable := ⟨_, _, _, _, rfl⟩
  have hstep₁ : EnvStep smallTable (.alloc 0) first := ⟨trivial, hfirst⟩
  have hstep₂ : EnvStep first (.enter (some 0) first.vm) running := ⟨trivial, hrunning⟩
  have hstep₃ : EnvStep running .exofork forked := ⟨trivial, hforked⟩
  have hstep₄ : EnvStep forked (.setStatus 0x1001 status) last := ⟨trivial, hlast⟩
  have hreach₁ : Reachable EnvsReady EnvStep allowed first :=
    .next (.start hready) (hother _ _ (by nofun)) hstep₁
  have hreach₂ : Reachable EnvsReady EnvStep allowed running :=
    .next hreach₁ (hother _ _ (by nofun)) hstep₂
  exact .next (.next hreach₂ (hother _ _ (by nofun)) hstep₃) (hset forked) hstep₄

/-- A child that is set to `ENV_FREE` is not on the list. -/
theorem set_free_leaves_list :
    ∃ k, Reachable EnvsReady EnvStep (fun _ _ => True) k ∧ ¬FreeListAgrees k := by
  have heval : ((statusRun 0).toOption.map fun k =>
      (k.envFreeList, decide ((k.envs 1).envStatus = .free), (List.range nEnv).all fun e =>
        e < 2 || ((k.envs e).envLink).all fun e' => decide (2 ≤ e' ∧ e' < nEnv))) =
        some (some 2, true, true) := by
    decide +kernel
  obtain ⟨k, hrun, hobs⟩ := exists_of_toOption_map heval
  simp only [Prod.mk.injEq, decide_eq_true_eq] at hobs
  obtain ⟨hhead, hfree, hlinks⟩ := hobs
  refine ⟨k, reachable_of_statusRun hrun (fun _ _ _ => trivial) fun _ => trivial, ?_⟩
  rintro ⟨l, hchain, -, hmem⟩
  -- the entries from 2 on are only linked to each other
  have hlow : ∀ e ∈ l, 2 ≤ e ∧ e < nEnv := by
    refine hchain.subset ?_ ?_
    · intro e he
      rw [hhead] at he
      cases he
      decide
    · rintro e e' ⟨hle, hlt⟩ hlink
      have hentry := List.all_eq_true.mp hlinks e (List.mem_range.mpr hlt)
      rw [hlink] at hentry
      simpa [Nat.not_lt.mpr hle] using hentry
  have hone := hlow 1 ((hmem 1).mpr ⟨by decide, hfree⟩)
  omega

/-- The same run with a child that is set to `ENV_RUNNABLE`. -/
theorem set_runnable_agrees : ∃ k, (k.envs 1).envStatus = .runnable ∧ FreeListAgrees k := by
  have heval : ((statusRun 2).toOption.map fun k => decide ((k.envs 1).envStatus = .runnable)) =
      some true := by
    decide +kernel
  obtain ⟨k, hrun, hobs⟩ := exists_of_toOption_map heval
  refine ⟨k, of_decide_eq_true hobs, freeListAgrees_of_reachable (reachable_of_statusRun hrun ?_ ?_)⟩
  · intro k op hop
    cases op with
    | setStatus envid status => exact absurd rfl (hop envid status)
    | _ => trivial
  · intro k hzero
    exact absurd hzero (by decide)

end Kern

end ZynexOS
