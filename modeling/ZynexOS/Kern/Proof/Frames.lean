import ZynexOS.Library.Run
import ZynexOS.Kern.Proof.EnvRule

/-!
# Saved frames and the privilege they restore

The saved frames come from user-mode traps and `env_alloc`, except that `sys_env_set_trapframe` takes a
whole frame from the caller.
-/

namespace ZynexOS

open Library Function

namespace Kern

def UserFrame (_e : Nat) (env : Env) : Prop := spp env.envTf.status = false

theorem spp_or_spie {status : Word} (hstatus : spp status = false) : spp (status ||| 0x20) = false := by
  have hmask : (0x20 : Word) &&& sstatusSpp = 0#64 := by decide
  simp only [spp, ne_eq, decide_eq_false_iff_not, not_not] at hstatus ⊢
  rw [BitVec.and_comm, BitVec.and_or_distrib_left, BitVec.and_comm _ status, hstatus,
    BitVec.and_comm, hmask]
  rfl

theorem envRule_userFrame {c : Nat} {tf : Trapframe} {sstatus : Word} (htf : spp tf.status = false)
    (hstatus : spp sstatus = false) :
    EnvRule UserFrame c tf sstatus fun frame => spp frame.status = false where
  sched _ _ _ henv := henv
  free _ henv := henv
  trapped _ := htf
  edited frame _ henv' hframe := by
    unfold UserFrame at henv' ⊢
    rw [← hframe] at henv'
    exact henv'
  stored _ _ hframe := hframe
  alloc _ _ _ _ _ _ _ _ := spp_or_spie hstatus
  fork _ _ _ _ _ henv := henv
  upcall _ henv := henv
  deliver _ _ _ _ _ _ henv := henv
  receive _ _ henv _ _ := henv

theorem userFrame_boot {k : Kern} {vm : Vm} {kernPgdir envsAddr sstatus : Word}
    {programs : List (Image × EnvType)} (hstatus : spp sstatus = false)
    (hboot : Kern.boot vm kernPgdir envsAddr sstatus programs = .ok k) : Holds UserFrame k := by
  have hzero : spp 0 = false := by decide
  exact holds_boot (fun _ _ => hzero) (fun _ _ _ _ _ _ => spp_or_spie hstatus) hboot

end Kern

namespace Machine

def UserMode (m : Machine) : Prop :=
  ∀ cpu e, m.cpuEnv cpu = some e → spp (m.regs cpu).status = false

/-- The run condition: a frame that `sys_env_set_trapframe` is handed has `SSTATUS_SPP` clear. -/
def SafeEvent (m : Machine) : Event → Prop
  | .trap cpu trap => Cause.ofScause trap.scause = .syscall →
      Kern.EnvRule.StoresOnly (fun frame => spp frame.status = false) (m.enter cpu trap)
        trap.regs.a0 trap.regs.a2
  | .tick _ => True

theorem popTf_status (tf : Trapframe) : (popTf tf).status = tf.status := by
  unfold popTf
  split <;> rfl

theorem UserMode.leave {m : Machine} (hmode : m.UserMode) {k : Kern} (hframes : Kern.Holds Kern.UserFrame k)
    (cpu : Nat) : (m.leave cpu k).UserMode := by
  intro cpu' e hcpu
  unfold Machine.leave at hcpu ⊢
  dsimp only at hcpu ⊢
  by_cases hsame : cpu' = cpu
  · subst hsame
    rw [update_self] at hcpu
    rw [hcpu]
    simp only [update_self, popTf_status]
    exact hframes e
  · rw [update_of_ne hsame] at hcpu
    cases hcur : k.curenv with
    | none => exact hmode cpu' e hcpu
    | some c =>
        simp only [update_of_ne hsame]
        exact hmode cpu' e hcpu

theorem step_userMode {m m' : Machine} {event : Event}
    (hinv : Kern.Holds Kern.UserFrame m.kern ∧ m.UserMode) (hsafe : m.SafeEvent event)
    (hstep : m.Step event m') :
    Kern.Holds Kern.UserFrame m'.kern ∧ m'.UserMode := by
  obtain ⟨hframes, hmode⟩ := hinv
  cases hstep with
  | @trap cpu e trap k hrunning hstatus hkernel =>
      have hrule : Kern.EnvRule Kern.UserFrame e trap.frame trap.status _ :=
        Kern.envRule_userFrame hstatus hstatus
      have hk : Kern.Holds Kern.UserFrame k :=
        hrule.trap (k := m.enter cpu trap) hframes rfl hrunning hsafe hkernel
      exact ⟨hk, hmode.leave hk cpu⟩
  | @tick cpu k hidle hkernel =>
      have hk : Kern.Holds Kern.UserFrame k :=
        Kern.Holds.schedYield (k := { m.kern with curenv := none }) (fun _ _ _ henv => henv)
          hframes hkernel
      exact ⟨hk, hmode.leave hk cpu⟩

/-- In every run in which each frame handed to `sys_env_set_trapframe` has `SSTATUS_SPP` clear, no CPU
ever leaves the kernel for supervisor mode. -/
theorem userMode_of_reachable {m : Machine} (hreach : Reachable Boots Step SafeEvent m) :
    m.UserMode := by
  have hinv : Kern.Holds Kern.UserFrame m.kern ∧ m.UserMode := by
    refine hreach.invariant (P := fun m => Kern.Holds Kern.UserFrame m.kern ∧ m.UserMode) ?_ ?_
    · rintro m ⟨vm, kernPgdir, envsAddr, sstatus, programs, k, hstatus, hboot, rfl⟩
      exact ⟨Kern.userFrame_boot hstatus hboot, fun cpu e hcpu => by cases hcpu⟩
    · intro m event m' hinv hsafe hstep
      exact step_userMode hinv hsafe hstep
  exact hinv.2

theorem step_of_exec {m m' : Machine} {cpu e : Nat} {trap : UserTrap}
    (hrunning : m.cpuEnv cpu = some e) (hstatus : spp trap.status = false)
    (hexec : m.exec (.trap cpu trap) = .ok m') : m.Step (.trap cpu trap) m' := by
  obtain ⟨k, hkernel, hleave⟩ := bind_eq_ok.mp hexec
  exact pure_eq_ok.mp hleave ▸ .trap hrunning hstatus hkernel

theorem step_of_exec_tick {m m' : Machine} {cpu : Nat} (hidle : m.cpuEnv cpu = none)
    (hexec : m.exec (.tick cpu) = .ok m') : m.Step (.tick cpu) m' := by
  obtain ⟨k, hkernel, hleave⟩ := bind_eq_ok.mp hexec
  exact pure_eq_ok.mp hleave ▸ .tick hidle hkernel

end Machine

namespace Machine

def enters (m : Machine) : Event → Bool
  | .trap cpu user => (m.cpuEnv cpu).isSome && !spp user.status
  | .tick cpu => (m.cpuEnv cpu).isNone

def tryStep (check : Machine → Event → Bool) (m : Machine) (event : Event) : Option Machine :=
  if m.enters event && check m event then (m.exec event).toOption else none

theorem step_of_tryStep {check : Machine → Event → Bool} {m m' : Machine} {event : Event}
    (htry : m.tryStep check event = some m') : check m event = true ∧ m.Step event m' := by
  unfold tryStep at htry
  split at htry
  · next hboth =>
      obtain ⟨henters, hcheck⟩ := (Bool.and_eq_true ..).mp hboth
      refine ⟨hcheck, ?_⟩
      cases event with
      | trap cpu user =>
          obtain ⟨hsome, hstatus⟩ := (Bool.and_eq_true ..).mp henters
          obtain ⟨e, he⟩ := Option.isSome_iff_exists.mp hsome
          exact step_of_exec he (by simpa using hstatus) (eq_ok_of_toOption htry)
      | tick cpu => exact step_of_exec_tick (Option.isNone_iff_eq_none.mp henters) (eq_ok_of_toOption htry)
  · cases htry

def bootScript (vm : Vm) (programs : List (Kern.Image × EnvType))
    (check : Machine → Event → Bool) (script : List (Machine → Event)) : Option Machine := do
  let k ← (Kern.boot vm (pageKva 0) uenvs 0 programs).toOption
  script.foldlM (fun m event => m.tryStep check (event m)) (start k)

theorem reachable_of_bootScript {vm : Vm} {programs : List (Kern.Image × EnvType)}
    {check : Machine → Event → Bool} {script : List (Machine → Event)} {m : Machine}
    {allowed : Machine → Event → Prop}
    (hallowed : ∀ m event, check m event = true → allowed m event)
    (hrun : bootScript vm programs check script = some m) : Reachable Boots Step allowed m := by
  obtain ⟨k, hboot, hscript⟩ := Option.bind_eq_some_iff.mp hrun
  have hboots : Boots (start k) := ⟨vm, _, _, 0, programs, k, by decide, eq_ok_of_toOption hboot, rfl⟩
  refine (Reachable.start hboots).script ?_ hscript
  intro m event m' htry
  obtain ⟨hcheck, hstep⟩ := step_of_tryStep htry
  exact ⟨hallowed m event hcheck, hstep⟩

def ecall (m : Machine) (cpu : Nat) (regs : Trapframe) : Event :=
  .trap cpu
    { regs := regs, status := 0x20, stval := 0, scause := 8, dev := 0, mem := m.kern.vm.mem }

end Machine

def Vm.small : Vm where
  npages := 64
  mem := fun addr => if pageKva 0 ≤ addr ∧ addr < pageKva 64 then some 0 else none
  pages := fun pp => ⟨if pp + 1 < 64 then some (pp + 1) else none, 0⟩
  pageFreeList := some 1

def Kern.smallImage : Kern.Image := ⟨Kern.elfMagic, 0x800000, []⟩

namespace Machine

def setTrapframe (m : Machine) (status : Word) : UserTrap where
  regs := { sepc := 0x800000, a0 := 9, a1 := 0, a2 := ustacktop - 512 }
  status := 0x20
  stval := 0
  scause := 8
  dev := 0
  mem := fun addr =>
    if addr = ustacktop - 512 + 256 then some status
    else if ustacktop - 512 ≤ addr ∧ addr < ustacktop then some 0
    else m.kern.vm.mem addr

def frameRun (status : Word) : Except Panic (Machine × Machine × Machine) := do
  let k ← Kern.boot Vm.small (pageKva 0) uenvs 0 [(Kern.smallImage, .user)]
  let running ← (start k).exec (.tick 0)
  let last ← running.exec (.trap 0 (running.setTrapframe status))
  pure (start k, running, last)

theorem reachable_of_frameRun {allowed : Machine → Event → Prop} {status : Word}
    {first running last : Machine} (hrun : frameRun status = .ok (first, running, last))
    (hcpu : running.cpuEnv 0 = some 0) (htick : allowed first (.tick 0))
    (htrap : allowed running (.trap 0 (running.setTrapframe status))) :
    Reachable Boots Step allowed last := by
  obtain ⟨k, hboot, hrest⟩ := bind_eq_ok.mp hrun
  obtain ⟨mid, hmid, hrest⟩ := bind_eq_ok.mp hrest
  obtain ⟨final, hfinal, hrest⟩ := bind_eq_ok.mp hrest
  cases pure_eq_ok.mp hrest
  have hboots : Boots (start k) := ⟨_, _, _, 0, _, k, by decide, hboot, rfl⟩
  have hrunning : Reachable Boots Step allowed running :=
    .next (.start hboots) htick (step_of_exec_tick rfl hmid)
  exact .next hrunning htrap (step_of_exec hcpu (show spp 0x20 = false by decide) hfinal)

/-- An environment that stores a frame with `SSTATUS_SPP` set is resumed in supervisor mode. -/
theorem resumes_in_supervisor_mode :
    ∃ m, Reachable Boots Step (fun _ _ => True) m ∧ ¬m.UserMode := by
  have heval : ((frameRun 0x100).toOption.map fun run =>
      (run.2.1.cpuEnv 0, run.2.2.cpuEnv 0, spp (run.2.2.regs 0).status)) =
        some (some 0, some 0, true) := by
    decide +kernel
  obtain ⟨⟨first, running, last⟩, hrun, hobs⟩ := exists_of_toOption_map heval
  simp only [Prod.mk.injEq] at hobs
  refine ⟨last, reachable_of_frameRun hrun hobs.1 trivial trivial, fun hmode => ?_⟩
  have hspp := hmode 0 0 hobs.2.1
  rw [hobs.2.2] at hspp
  cases hspp

/-- The same run with a frame of user mode. -/
theorem userMode_of_user_frame : ∃ m : Machine, m.cpuEnv 0 = some 0 ∧ m.UserMode := by
  have heval : ((frameRun 0x20).toOption.map fun run =>
      (run.2.1.cpuEnv 0, run.2.2.cpuEnv 0,
        (Kern.readTrapframe (run.2.1.enter 0 (run.2.1.setTrapframe 0x20)).vm
          (ustacktop - 512)).toOption.map fun frame => spp frame.status)) =
        some (some 0, some 0, some false) := by
    decide +kernel
  obtain ⟨⟨first, running, last⟩, hrun, hobs⟩ := exists_of_toOption_map heval
  simp only [Prod.mk.injEq] at hobs
  refine ⟨last, hobs.2.1, userMode_of_reachable (reachable_of_frameRun hrun hobs.1 trivial ?_)⟩
  intro _ _ frame hread
  obtain ⟨frame', hread', hspp⟩ := exists_of_toOption_map hobs.2.2
  cases hread.symm.trans hread'
  exact hspp

end Machine

end ZynexOS
