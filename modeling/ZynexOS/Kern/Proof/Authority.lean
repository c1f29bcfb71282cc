import ZynexOS.Kern.Proof.EnvIds
import ZynexOS.Kern.Proof.Exclusive

/-!
# Who can change an environment

A trap of one environment changes the entry of another only if that is its child, waits for a message,
or is free; the scheduler may then give the CPU to it.
-/

namespace ZynexOS

open Library

namespace Kern

variable {k k' : Kern} {c e : Nat} {tf : Trapframe}

def ListsFree (k : Kern) : Prop := ∀ e, k.envFreeList = some e → (k.envs e).envStatus = .free

theorem FreeMembers.listsFree {l : List Nat} (hfree : FreeMembers k l) : k.ListsFree := by
  intro e he
  have hchain := hfree.chain
  rw [he] at hchain
  obtain ⟨l', rfl, -⟩ := hchain.exists_cons
  exact hfree.status e List.mem_cons_self

def dispatched (cpu : Nat) (env : Env) : Env :=
  { env with envStatus := .running, envRuns := env.envRuns + 1, envCpunum := cpu }

theorem Apart.ne_of_found {id : BitVec 32} {e' : Nat} (h : k.Apart c e) (hcur : k.curenv = some c)
    (hfound : k.envid2env id true = .ok (some e')) : e ≠ e' := by
  rintro rfl
  obtain hnone | ⟨e', hsome, hself | ⟨-, hparent⟩⟩ := envid2env_checked hcur id
  · rw [hnone] at hfound
    cases hfound
  all_goals
    rw [hsome] at hfound
    cases hfound
  · exact h.ne hself
  · exact h.parent hparent

def Spared (k k' : Kern) (e : Nat) : Prop := k'.envs e = k.envs e ∧ k'.curenv ≠ some e

theorem spared_setEnv {e' : Nat} (env : Env) (hcur : k.curenv ≠ some e) (hne : e ≠ e') :
    k.Spared (k.setEnv e' env) e :=
  ⟨setEnv_envs_of_ne _ _ hne, hcur⟩

theorem spared_freed {e' : Nat} (vm : Vm) (hcur : k.curenv ≠ some e) (hne : e ≠ e') :
    k.Spared { k.freed c e' with vm := vm } e := by
  refine ⟨setEnv_envs_of_ne k _ hne, ?_⟩
  simp only [freed]
  split_ifs
  · exact (Option.some_ne_none e).symm
  · exact hcur

section

variable (hcur : k.curenv = some c) (hlist : k.ListsFree) (h : k.Apart c e)
include hcur h

theorem Apart.not_current : k.curenv ≠ some e := by
  rw [hcur]
  exact fun heq => h.ne (Option.some.inj heq).symm

include hlist

theorem Update.spares (hupdate : Update k c tf k') : k.Spared k' e := by
  have hother := h.not_current hcur
  cases hupdate with
  | vm vm => exact ⟨rfl, hother⟩
  | setStatus e' status _ hfound _ _ => exact spared_setEnv _ hother (h.ne_of_found hcur hfound)
  | setFrame e' frame _ hfound _ => exact spared_setEnv _ hother (h.ne_of_found hcur hfound)
  | setUpcall e' func hfound => exact spared_setEnv _ hother (h.ne_of_found hcur hfound)
  | deliver e' vm value perm _ _ hrecving =>
      refine ⟨setEnv_envs_of_ne _ _ ?_, hother⟩
      rintro rfl
      exact absurd hrecving (by simp [h.recving])
  | wait _ => exact spared_setEnv _ hother h.ne
  | receive _ _ _ => exact spared_setEnv _ hother h.ne
  | fork e' mid _ halloc =>
      obtain ⟨code, vm, hcode, -⟩ | ⟨e₁, pgdir, vm, hsame, hfirst, -, rfl⟩ := envAlloc_eq halloc
      · cases hcode
      · cases hsame
        have hne : e ≠ e' := by
          rintro rfl
          exact h.live (hlist e hfirst)
        exact ⟨(setEnv_envs_of_ne _ _ hne).trans (setEnv_envs_of_ne _ _ hne), hother⟩
  | kill e' _ hfound _ _ => exact spared_setEnv _ hother (h.ne_of_found hcur hfound)
  | free e' vm hcall _ _ =>
      refine spared_freed vm hother ?_
      obtain rfl | ⟨-, hfound⟩ := hcall
      · exact h.ne
      · exact h.ne_of_found hcur hfound

theorem trapDispatch_spares {dev : Int} {exit : TrapExit}
    (hdispatch : k.trapDispatch dev c = .ok (exit, k')) : k.Spared k' e := by
  have hother := h.not_current hcur
  cases hcause : Cause.ofScause (k.envs c).envTf.scause with
  | syscall =>
      obtain hcall | ⟨ret, mid, hcall, rfl⟩ := trapDispatch_syscall rfl hcause hdispatch
      · exact (syscall_update hcur hcause hcall).spares hcur hlist h
      · obtain ⟨hmid, hnot⟩ := (syscall_update hcur hcause hcall).spares hcur hlist h
        exact ⟨(setEnv_envs_of_ne _ _ h.ne).trans hmid, hnot⟩
  | pageFault =>
      simp only [trapDispatch, hcause] at hdispatch
      obtain ⟨-, -, vm, rfl⟩ | ⟨-, sp, vm, rfl⟩ := pageFaultHandler_cases hcur hdispatch
      · exact spared_freed vm hother h.ne
      · exact ⟨setEnv_envs_of_ne _ _ h.ne, hother⟩
  | other =>
      simp only [trapDispatch, hcause] at hdispatch
      obtain ⟨⟨gone, mid⟩, hdestroy, hrest⟩ := bind_eq_ok.mp hdispatch
      obtain ⟨rfl, -, vm, rfl⟩ := envDestroy_self hcur hdestroy
      cases pure_eq_ok.mp hrest
      exact spared_freed vm hother h.ne
  | breakpoint =>
      simp only [trapDispatch, hcause, Except.ok.injEq, Prod.mk.injEq] at hdispatch
      exact hdispatch.2 ▸ ⟨rfl, hother⟩
  | timer | interrupt =>
      simp only [trapDispatch, hcause, Except.ok.injEq, Prod.mk.injEq] at hdispatch
      exact hdispatch.2 ▸ spared_setEnv _ hother h.ne

end

theorem envRun_spares (k : Kern) (cpu e' : Nat) (hne : k.curenv ≠ some e) :
    (k.envRun cpu e').envs e = k.envs e ∨
      (k.envRun cpu e').curenv = some e ∧ (k.envRun cpu e').envs e = dispatched cpu (k.envs e) := by
  unfold envRun
  cases hcur : k.curenv with
  | none =>
      by_cases heq : e = e'
      · subst heq
        exact .inr ⟨rfl, by simp [dispatched]⟩
      · exact .inl (setEnv_envs_of_ne _ _ heq)
  | some c =>
      have hec : e ≠ c := by
        rintro rfl
        exact hne hcur
      dsimp only
      split <;> by_cases heq : e = e'
      · subst heq
        exact .inr ⟨rfl, by simp [dispatched, setEnv_envs_of_ne _ _ hec]⟩
      · exact .inl ((setEnv_envs_of_ne _ _ heq).trans (setEnv_envs_of_ne _ _ hec))
      · subst heq
        exact .inr ⟨rfl, by simp [dispatched]⟩
      · exact .inl (setEnv_envs_of_ne _ _ heq)

theorem schedYield_spares {cpu : Nat} (hne : k.curenv ≠ some e) (hyield : k.schedYield cpu = .ok k') :
    k'.envs e = k.envs e ∨ k'.curenv = some e ∧ k'.envs e = dispatched cpu (k.envs e) := by
  have hend : (∃ e', k' = k.envRun cpu e') ∨ k.schedHalt = .ok k' := by
    unfold schedYield at hyield
    split at hyield <;> split at hyield
    · exact .inl ⟨_, (Except.ok.inj hyield).symm⟩
    · exact .inr hyield
    · exact .inl ⟨_, (Except.ok.inj hyield).symm⟩
    · split at hyield
      · exact .inl ⟨_, (Except.ok.inj hyield).symm⟩
      · split at hyield
        · exact .inl ⟨_, (Except.ok.inj hyield).symm⟩
        · exact .inr hyield
  obtain ⟨e', rfl⟩ | hhalt := hend
  · exact envRun_spares k cpu e' hne
  · unfold schedHalt at hhalt
    split at hhalt
    · cases hhalt
    · cases hhalt
      exact .inl rfl

theorem Apart.setTf (h : k.Apart c e) (tf : Trapframe) :
    (k.setEnv c { k.envs c with envTf := tf }).Apart c e := by
  constructor <;> simp [setEnv_envs_of_ne _ _ h.ne, h.ne, h.live, h.parent, h.recving]

theorem ListsFree.setTf (hlist : k.ListsFree) (tf : Trapframe) :
    (k.setEnv c { k.envs c with envTf := tf }).ListsFree := by
  intro e he
  by_cases hec : e = c
  · rw [hec] at he ⊢
    simpa using hlist c he
  · rw [setEnv_envs_of_ne _ _ hec]
    exact hlist e he

theorem trap_spares {cpu : Nat} {dev : Int} (hcur : k.curenv = some c) (hlist : k.ListsFree)
    (h : k.Apart c e) (htrap : k.trap cpu dev tf = .ok k') :
    k'.envs e = k.envs e ∨ k'.curenv = some e ∧ k'.envs e = dispatched cpu (k.envs e) := by
  obtain ⟨-, mid, hfree, hyield⟩ | ⟨-, exit, mid, hdispatch, hend⟩ := trap_cases hcur htrap
  · obtain ⟨vm, hmid⟩ := envFree_eq hfree
    have hsame : mid.envs e = k.envs e := by
      rw [hmid]
      exact setEnv_envs_of_ne _ _ h.ne
    rw [← hsame]
    exact schedYield_spares (k := { mid with curenv := none }) (Option.some_ne_none e).symm hyield
  · obtain ⟨hmid, hnot⟩ := trapDispatch_spares (k := k.setEnv c { k.envs c with envTf := tf })
      hcur (hlist.setTf tf) (h.setTf tf) hdispatch
    rw [setEnv_envs_of_ne _ _ h.ne] at hmid
    rw [← hmid]
    obtain hyield | ⟨e', rfl, -⟩ := hend
    · exact schedYield_spares hnot hyield
    · exact envRun_spares mid cpu e' hnot

end Kern

namespace Machine

variable {m m' : Machine} {e : Nat}

theorem Placed.spares (hplaced : m.Placed) {event : Event}
    (hapart : ∀ c, m.cpuEnv event.cpu = some c → m.kern.Apart c e) (hstep : m.Step event m') :
    m'.kern.envs e = m.kern.envs e ∨ m'.cpuEnv event.cpu = some e ∧
      m'.kern.envs e = Kern.dispatched event.cpu (m.kern.envs e) := by
  cases hstep with
  | @trap cpu c user k hrunning hstatus hkernel =>
      obtain ⟨l, hfree⟩ := hplaced.free
      have happ := hapart c hrunning
      simp only [Event.cpu, leave_cpuEnv_self]
      exact Kern.trap_spares (k := m.enter cpu user) hrunning hfree.listsFree
        ⟨happ.ne, happ.live, happ.parent, happ.recving⟩ hkernel
  | @tick cpu k hidle hkernel =>
      simp only [Event.cpu, leave_cpuEnv_self]
      exact Kern.schedYield_spares (k := { m.kern with curenv := none })
        (Option.some_ne_none e).symm hkernel

theorem placed_of_reachable (hreach : Reachable Boots Step CarefulEvent m) : m.Placed := by
  refine hreach.invariant (P := Placed) (fun m => placed_start) ?_
  intro m event m' hplaced hcareful hstep
  exact (hplaced.step hcareful hstep).1

def forkRun : Option (Machine × Machine) := do
  let m ← bootScript Vm.small [(Kern.smallImage, .user), (Kern.smallImage, .user)] plainCall
    [fun _ => .tick 0]
  let m' ← m.tryStep plainCall (m.ecall 0 { a0 := 7 })
  pure (m, m')

end Machine

end ZynexOS
