import ZynexOS.Kern.Machine
import ZynexOS.Kern.Proof.Updates

/-!
# What a trap can do to an environment

The updates of a `struct Env` that the kernel makes while it handles a trap, listed once.
-/

namespace ZynexOS

open Library

namespace Kern

/-- `P` survives the updates made while CPU handles a trap of environment `c` with frame `tf` and
`sstatus`; `stored` says which frames `sys_env_set_trapframe` may be handed. -/
structure EnvRule (P : Nat → Env → Prop) (c : Nat) (tf : Trapframe) (sstatus : Word)
    (stored : Trapframe → Prop) : Prop where
  sched : ∀ {e env} (status : EnvStatus) (runs : BitVec 32) (cpunum : Nat), P e env →
    P e { env with envStatus := status, envRuns := runs, envCpunum := cpunum }
  free : ∀ {e env} (link : Option Nat), P e env →
    P e { env with envPgdir := 0, envStatus := .free, envLink := link }
  trapped : ∀ {env}, P c env → P c { env with envTf := tf }
  edited : ∀ {e env e' env'} (frame : Trapframe), P e env → P e' env' →
    frame.status = env'.envTf.status → P e { env with envTf := frame }
  stored : ∀ {e env} (frame : Trapframe), P e env → stored frame → P e { env with envTf := frame }
  alloc : Sysno.ofWord tf.a0 = some .exofork →
    ∀ {e env} (pgdir tp : Word) (id parent : BitVec 32), P e env → P e { env with
      envPgdir := pgdir, envId := id, envParentId := parent, envType := .user
      envStatus := .runnable, envRuns := 0
      envTf := { sp := ustacktop, status := sstatus ||| 0x20, tp := tp }
      envPgfaultUpcall := 0, envIpcRecving := false }
  fork : Sysno.ofWord tf.a0 = some .exofork →
    ∀ {e env} (parent : BitVec 32) (upcall : Word), P e env → P e { env with
      envStatus := .notRunnable, envParentId := parent, envIpcRecving := false
      envPgfaultUpcall := upcall }
  upcall : ∀ {e env} (func : Word), P e env → P e { env with envPgfaultUpcall := func }
  deliver : Sysno.ofWord tf.a0 = some .ipcTrySend →
    ∀ {e env} (sender : BitVec 32) (value : Word) (perm : BitVec 32), P e env →
      P e (ipcDeliver env sender value perm)
  receive : Sysno.ofWord tf.a0 = some .ipcRecv →
    ∀ {env}, P c env → env.envIpcRecving = false →
      (tf.a1 < utop → tf.a1.toNat % pgSize = 0) → P c { env with
      envIpcDstva := if tf.a1 < utop then tf.a1 else env.envIpcDstva
      envIpcRecving := true, envStatus := .notRunnable }

def Holds (P : Nat → Env → Prop) (k : Kern) : Prop := ∀ e, P e (k.envs e)

variable {P : Nat → Env → Prop} {k k' : Kern}

theorem Holds.setEnv (hholds : Holds P k) {e : Nat} {env : Env} (henv : P e env) :
    Holds P (k.setEnv e env) := by
  intro e'
  by_cases he : e' = e
  · rw [he, setEnv_envs_self]
    exact henv
  · rw [setEnv_envs_of_ne k env he]
    exact hholds e'

section Sched

variable (hsched : ∀ {e env} (status : EnvStatus) (runs : BitVec 32) (cpunum : Nat), P e env →
  P e { env with envStatus := status, envRuns := runs, envCpunum := cpunum })

include hsched

theorem Holds.envRun (hholds : Holds P k) (cpu e : Nat) : Holds P (k.envRun cpu e) := by
  unfold Kern.envRun
  cases hcur : k.curenv with
  | none => exact hholds.setEnv (hsched _ _ _ (hholds e))
  | some c =>
      dsimp only
      split
      · have hleft : Holds P (k.setEnv c { k.envs c with envStatus := .runnable }) :=
          hholds.setEnv (hsched _ _ _ (hholds c))
        exact hleft.setEnv (hsched _ _ _ (hleft e))
      · exact hholds.setEnv (hsched _ _ _ (hholds e))

omit hsched in
theorem Holds.schedHalt (hholds : Holds P k) (hhalt : k.schedHalt = .ok k') : Holds P k' := by
  unfold Kern.schedHalt at hhalt
  split at hhalt
  · cases hhalt
  · cases hhalt
    exact hholds

theorem Holds.schedYield (hholds : Holds P k) {cpu : Nat} (hyield : k.schedYield cpu = .ok k') :
    Holds P k' := by
  unfold Kern.schedYield at hyield
  split at hyield
  · split at hyield
    · cases hyield
      exact hholds.envRun hsched cpu _
    · exact hholds.schedHalt hyield
  · split at hyield
    · cases hyield
      exact hholds.envRun hsched cpu _
    · split at hyield
      · cases hyield
        exact hholds.envRun hsched cpu _
      · split at hyield
        · cases hyield
          exact hholds.envRun hsched cpu _
        · exact hholds.schedHalt hyield

end Sched

namespace EnvRule

variable {c : Nat} {tf : Trapframe} {sstatus : Word} {stored : Trapframe → Prop}

theorem status (hrule : EnvRule P c tf sstatus stored) {e : Nat} {env : Env} (status : EnvStatus)
    (henv : P e env) : P e { env with envStatus := status } :=
  hrule.sched status env.envRuns env.envCpunum henv

theorem envFree (hrule : EnvRule P c tf sstatus stored) (hholds : Holds P k) {e : Nat}
    (hfree : k.envFree e = .ok k') : Holds P k' := by
  obtain ⟨vm, rfl⟩ := envFree_eq hfree
  exact Holds.setEnv (k := { k with vm := vm }) hholds (hrule.free k.envFreeList (hholds e))

theorem freed (hrule : EnvRule P c tf sstatus stored) (hholds : Holds P k) (e : Nat) (vm : Vm) :
    Holds P { k.freed c e with vm := vm } :=
  hholds.setEnv (hrule.free k.envFreeList (hholds e))

theorem envAlloc (hrule : EnvRule P c tf sstatus stored) (hcall : IsCall tf .exofork)
    (hholds : Holds P k) (hstatus : k.sstatus = sstatus) {parentId : BitVec 32} {result : Nat ⊕ Int}
    (halloc : k.envAlloc parentId = .ok (result, k')) : Holds P k' := by
  obtain ⟨code, vm, -, rfl⟩ | ⟨e, pgdir, vm, -, -, -, rfl⟩ := envAlloc_eq halloc
  · exact hholds
  · subst hstatus
    exact Holds.setEnv (k := { k with vm := vm }) hholds
      (hrule.alloc hcall.2 pgdir (k.envAddr e) _ parentId (hholds e))

def StoresOnly (stored : Trapframe → Prop) (k : Kern) (no a2 : Word) : Prop :=
  Sysno.ofWord no = some .envSetTrapframe →
    ∀ frame, readTrapframe k.vm a2 = .ok frame → stored frame

section

variable (hrule : EnvRule P c tf sstatus stored) (hholds : Holds P k) (hstatus : k.sstatus = sstatus)
include hrule hholds hstatus

theorem update (hsafe : StoresOnly stored k tf.a0 tf.a2)
    (hupdate : Update k c tf k') : Holds P k' := by
  cases hupdate with
  | vm vm => exact hholds
  | setStatus e status => exact hholds.setEnv (hrule.status status (hholds e))
  | setFrame e frame hcall _ hread =>
      exact hholds.setEnv (hrule.stored frame (hholds e) (hsafe hcall.2 frame hread))
  | setUpcall e func => exact hholds.setEnv (hrule.upcall func (hholds e))
  | deliver e vm value perm hcall =>
      exact Holds.setEnv (k := { k with vm := vm }) hholds (hrule.deliver hcall.2 _ _ _ (hholds e))
  | wait => exact hholds.setEnv (hrule.status .notRunnable (hholds c))
  | receive hcall hfresh haligned =>
      exact hholds.setEnv (hrule.receive hcall.2 (hholds c) hfresh haligned)
  | fork e mid hcall halloc =>
      have hmid := hrule.envAlloc hcall hholds hstatus halloc
      exact hmid.setEnv (hrule.edited _ (hrule.fork hcall.2 _ _ (hmid e)) (hmid c) rfl)
  | kill e => exact hholds.setEnv (hrule.status .dying (hholds e))
  | free e vm => exact hrule.freed hholds e vm

theorem trapDispatch (hcur : k.curenv = some c) (htf : (k.envs c).envTf = tf)
    {dev : Int} (hsafe : Cause.ofScause tf.scause = .syscall → StoresOnly stored k tf.a0 tf.a2)
    {exit : TrapExit} (hdispatch : k.trapDispatch dev c = .ok (exit, k')) : Holds P k' := by
  unfold Kern.trapDispatch at hdispatch
  dsimp only at hdispatch
  rw [htf] at hdispatch
  split at hdispatch
  · cases hdispatch
    exact hholds.setEnv (hrule.edited _ (hholds c) (hholds c) (by rw [htf]))
  · cases hdispatch
    exact hholds.setEnv (hrule.edited _ (hholds c) (hholds c) (by rw [htf]))
  · obtain ⟨-, -, vm, rfl⟩ | ⟨-, sp, vm, rfl⟩ := pageFaultHandler_cases hcur hdispatch
    · exact hrule.freed hholds c vm
    · exact Holds.setEnv (k := { k with vm := vm }) hholds (hrule.edited _ (hholds c) (hholds c) rfl)
  · cases hdispatch
    exact hholds
  · next hcause =>
      obtain ⟨⟨result, mid⟩, hcall, hrest⟩ := bind_eq_ok.mp hdispatch
      have hmid := hrule.update hholds hstatus (hsafe hcause) (syscall_update hcur hcause hcall)
      cases result with
      | resched =>
          cases pure_eq_ok.mp hrest
          exact hmid
      | ret value =>
          cases pure_eq_ok.mp hrest
          exact hmid.setEnv (hrule.edited _ (hmid c) (hmid c) rfl)
  · obtain ⟨⟨gone, mid⟩, hdestroy, hrest⟩ := bind_eq_ok.mp hdispatch
    obtain ⟨rfl, -, vm, rfl⟩ := envDestroy_self hcur hdestroy
    cases pure_eq_ok.mp hrest
    exact hrule.freed hholds c vm

theorem trap (hcur : k.curenv = some c) {cpu : Nat} {dev : Int}
    (hsafe : Cause.ofScause tf.scause = .syscall → StoresOnly stored k tf.a0 tf.a2)
    (htrap : k.trap cpu dev tf = .ok k') : Holds P k' := by
  obtain ⟨-, mid, hfree, hyield⟩ | ⟨-, exit, mid, hdispatch, hend⟩ := trap_cases hcur htrap
  · have hmid := hrule.envFree hholds hfree
    exact Holds.schedYield (k := { mid with curenv := none }) hrule.sched hmid hyield
  · have hsaved : Holds P (k.setEnv c { k.envs c with envTf := tf }) :=
      hholds.setEnv (hrule.trapped (hholds c))
    have hmid : Holds P mid :=
      hrule.trapDispatch hsaved hstatus hcur (by rw [setEnv_envs_self]) hsafe hdispatch
    obtain hyield | ⟨e, rfl, -⟩ := hend
    · exact hmid.schedYield hrule.sched hyield
    · exact hmid.envRun hrule.sched cpu e

end

end EnvRule

theorem holds_boot {P : Nat → Env → Prop} {k : Kern} {vm : Vm} {kernPgdir envsAddr sstatus : Word}
    {programs : List (Image × EnvType)} (hzero : ∀ e link, P e { envLink := link })
    (hcreate : ∀ {e env} (pgdir tp entry : Word) (id : BitVec 32) (type : EnvType), P e env →
      P e { env with
        envPgdir := pgdir, envId := id, envParentId := 0, envType := type
        envStatus := .runnable, envRuns := 0
        envTf := { sepc := entry, sp := ustacktop, status := sstatus ||| 0x20, tp := tp }
        envPgfaultUpcall := 0, envIpcRecving := false })
    (hboot : Kern.boot vm kernPgdir envsAddr sstatus programs = .ok k) : Holds P k := by
  have hinv : Holds P k ∧ k.sstatus = sstatus := by
    refine foldlM_invariant (P := fun k => Holds P k ∧ k.sstatus = sstatus) ?_
      ⟨fun e => hzero e _, rfl⟩ hboot
    rintro k program k' - ⟨hholds, rfl⟩ hstep
    obtain ⟨e, pgdir, vm, -, rfl⟩ := envCreate_eq hstep
    refine ⟨?_, rfl⟩
    exact Holds.setEnv (k := { k with vm := vm }) hholds (hcreate _ _ _ _ _ (hholds e))
  exact hinv.1

end Kern

end ZynexOS
