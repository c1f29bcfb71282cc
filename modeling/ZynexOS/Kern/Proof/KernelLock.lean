import ZynexOS.Kern.KernelLock
import ZynexOS.Kern.Proof.Authority

/-! # What the kernel lock protects -/

namespace ZynexOS

open Library Function

theorem Machine.enters_congr {m m' : Machine} {event : Event}
    (hcpu : m'.cpuEnv event.cpu = m.cpuEnv event.cpu) : m'.enters event = m.enters event := by
  cases event with
  | trap cpu user => exact congrArg (fun env => env.isSome && !spp user.status) hcpu
  | tick cpu => exact congrArg Option.isNone hcpu

theorem Machine.step_of_enters {m m' : Machine} {event : Event} (henters : m.enters event = true)
    (hexec : m.exec event = .ok m') : m.Step event m' := by
  have htry : m.tryStep (fun _ _ => true) event = some m' := by
    simp [tryStep, henters, hexec, Except.toOption]
  exact (step_of_tryStep htry).2

theorem Machine.Step.cpuEnv_of_ne {m m' : Machine} {event : Event} (hstep : m.Step event m')
    {cpu : Nat} (hne : cpu ≠ event.cpu) : m'.cpuEnv cpu = m.cpuEnv cpu := by
  cases hstep with
  | trap => exact m.leave_cpuEnv_of_ne _ hne
  | tick => exact m.leave_cpuEnv_of_ne _ hne

theorem Machine.leave_regs (m : Machine) (cpu : Nat) (k : Kern) : (∀ e, k.curenv = some e →
    (m.leave cpu k).regs cpu = popTf (k.envs e).envTf) ∧
    ∀ cpu', cpu' ≠ cpu → (m.leave cpu k).regs cpu' = m.regs cpu' := by
  unfold leave
  cases hcur : k.curenv with
  | none => exact ⟨fun e he => absurd he.symm (Option.some_ne_none e), fun _ _ => rfl⟩
  | some e =>
      refine ⟨?_, fun cpu' hne => update_of_ne hne ..⟩
      rintro e ⟨⟩
      exact update_self ..

theorem Machine.Step.regs {m m' : Machine} {event : Event} (hstep : m.Step event m') :
    (∀ e, m'.cpuEnv event.cpu = some e → m'.regs event.cpu = popTf (m'.kern.envs e).envTf) ∧
      ∀ cpu, cpu ≠ event.cpu → m'.regs cpu = m.regs cpu := by
  cases hstep with
  | trap | tick =>
      simp only [Event.cpu, leave_cpuEnv_self]
      exact m.leave_regs _ _

namespace LockSys

variable {s s' : LockSys} {m m' : Machine} {status : CpuStatus} {cpu : Nat}
  {regs : Trapframe} {pc pc₀ : CpuPc} {user : UserTrap} {quiet : Prop}

def KeepsFrames (s : LockSys) (m' : Machine) : Prop :=
  ∀ cpu e, s.pc cpu = .pop e → (m'.kern.envs e).envTf = (s.machine.kern.envs e).envTf

/-- CPU `cpu`, whose `cpu_status` is `status`, is to handle `event`. -/
structure Handles (m : Machine) (status : CpuStatus) (cpu : Nat) (event : Event) : Prop where
  own : event.cpu = cpu
  enters : m.enters event = true
  awake : status ≠ .halted

/-- What CPU `cpu` knows at each place. Unless `quiet` holds, others may change the frame that it loads
without the lock. -/
def At (quiet : Prop) (m : Machine) (status : CpuStatus) (regs : Trapframe) (cpu : Nat) : CpuPc → Prop
  | .off | .boot _ | .await _ _ | .mpMain => m.cpuEnv cpu = none ∧ status ≠ .halted
  | .user => m.cpuEnv cpu ≠ none ∧ status ≠ .halted ∧ (quiet → regs = m.regs cpu)
  | .idle => m.cpuEnv cpu = none ∧ status = .halted
  | .trap event => event.cpu = cpu ∧ m.enters event = true ∧ (status = .halted ↔ event.spp = true)
  | .relock event => Handles m status cpu event ∧ event.spp = true
  | .test event | .lock event => Handles m status cpu event
  | .kernel event found => Handles m status cpu event ∧ found = m
  | .halt => m.cpuEnv cpu = none
  | .unlock => (status = .halted ↔ m.cpuEnv cpu = none) ∧
      ∀ e, m.cpuEnv cpu = some e → m.regs cpu = popTf (m.kern.envs e).envTf
  | .pop e => m.cpuEnv cpu = some e ∧ status ≠ .halted ∧
      (quiet → m.regs cpu = popTf (m.kern.envs e).envTf)
  | .dead _ => True

structure Inv (quiet : Prop) (s : LockSys) : Prop where
  locked : s.locked = s.holder.isSome
  inside : ∀ cpu, (s.pc cpu).inside = true ↔ s.holder = some cpu
  place : ∀ cpu, At quiet s.machine (s.cpuStatus cpu) (s.regs cpu) cpu (s.pc cpu)

theorem Handles.congr {event : Event} (h : Handles m status cpu event)
    (hcpu : m'.cpuEnv cpu = m.cpuEnv cpu) : Handles m' status cpu event := by
  obtain ⟨rfl, henters, hawake⟩ := h
  exact ⟨rfl, (Machine.enters_congr hcpu).trans henters, hawake⟩

theorem At.congr (h : At quiet m status regs cpu pc) (hout : pc.inside = false)
    (hcpu : m'.cpuEnv cpu = m.cpuEnv cpu) (hregs : m'.regs cpu = m.regs cpu)
    (hframe : quiet → ∀ e, pc = .pop e → (m'.kern.envs e).envTf = (m.kern.envs e).envTf) :
    At quiet m' status regs cpu pc := by
  cases pc with
  | off | mpMain | user | idle =>
      simp only [At, hcpu, hregs] at h ⊢
      exact h
  | trap event =>
      obtain ⟨rfl, henters, hspp⟩ := h
      exact ⟨rfl, (Machine.enters_congr hcpu).trans henters, hspp⟩
  | relock event => exact ⟨h.1.congr hcpu, h.2⟩
  | test event | lock event => exact Handles.congr h hcpu
  | pop e =>
      refine ⟨hcpu.trans h.1, h.2.1, fun hquiet => ?_⟩
      rw [hregs, hframe hquiet e rfl]
      exact h.2.2 hquiet
  | dead => trivial
  | boot | await | kernel | halt | unlock => cases hout

theorem spinLock_machine (s : LockSys) (cpu : Nat) (pc : CpuPc) :
    (s.spinLock cpu pc).machine = s.machine := by
  unfold spinLock
  split <;> rfl

theorem sbiBootAp_eq (s : LockSys) (ap : Nat) (hon : s.pc cpu ≠ .off) :
    (s.sbiBootAp ap).machine = s.machine ∧ (s.sbiBootAp ap).cpuStatus = s.cpuStatus ∧
      (s.sbiBootAp ap).pc cpu = s.pc cpu := by
  unfold sbiBootAp
  split
  · next hoff =>
      refine ⟨rfl, rfl, update_of_ne ?_ ..⟩
      rintro rfl
      exact hon hoff
  · exact ⟨rfl, rfl, rfl⟩

section

variable (h : s.Inv quiet)
include h

/-- CPU `cpu` goes to `pc`. If it changes the kernel's data, it has the lock. -/
theorem Inv.move (hpc : s'.pc = update s.pc cpu pc) (hlocked : s'.locked = s'.holder.isSome)
    (hself : pc.inside = true ↔ s'.holder = some cpu)
    (hother : ∀ cpu', cpu' ≠ cpu → (s'.holder = some cpu' ↔ s.holder = some cpu') ∧
      s'.cpuStatus cpu' = s.cpuStatus cpu' ∧ s'.regs cpu' = s.regs cpu')
    (hdata : s'.machine = s.machine ∨ s.holder = some cpu ∧ ∃ event, event.cpu = cpu ∧
      s.machine.Step event s'.machine ∧ (quiet → s.KeepsFrames s'.machine))
    (hat : At quiet s'.machine (s'.cpuStatus cpu) (s'.regs cpu) cpu pc) : s'.Inv quiet where
  locked := hlocked
  inside cpu' := by
    by_cases hne : cpu' = cpu
    · rw [hne, hpc, update_self]
      exact hself
    · rw [hpc, update_of_ne hne, (hother cpu' hne).1]
      exact h.inside cpu'
  place cpu' := by
    by_cases hne : cpu' = cpu
    · rw [hne, hpc, update_self]
      exact hat
    · rw [hpc, update_of_ne hne, (hother cpu' hne).2.1, (hother cpu' hne).2.2]
      obtain hsame | ⟨hheld, event, rfl, hstep, hframes⟩ := hdata
      · rw [hsame]
        exact h.place cpu'
      · have hout : (s.pc cpu').inside = false := by
          rw [Bool.eq_false_iff, ne_eq, h.inside, hheld]
          exact fun heq => hne (Option.some.inj heq).symm
        exact (h.place cpu').congr hout (hstep.cpuEnv_of_ne hne) (hstep.regs.2 cpu' hne)
          fun hquiet e he => hframes hquiet cpu' e he

theorem Inv.goto (hpc : s.pc cpu = pc₀) (hin : pc.inside = pc₀.inside)
    (hat : At quiet s.machine (s.cpuStatus cpu) (s.regs cpu) cpu pc) : (s.goto cpu pc).Inv quiet :=
  h.move rfl h.locked (hin ▸ hpc ▸ h.inside cpu) (fun _ _ => ⟨.rfl, rfl, rfl⟩) (.inl rfl) hat

theorem Inv.setStatus (hpc : s.pc cpu = pc₀) (hin : pc.inside = pc₀.inside)
    (hat : At quiet s.machine status (s.regs cpu) cpu pc) :
    ((s.setStatus cpu status).goto cpu pc).Inv quiet := by
  refine h.move rfl h.locked (hin ▸ hpc ▸ h.inside cpu)
    (fun _ hne => ⟨.rfl, update_of_ne hne .., rfl⟩) (.inl rfl) ?_
  rw [show ((s.setStatus cpu status).goto cpu pc).cpuStatus cpu = status from update_self ..]
  exact hat

theorem Inv.spinLock (hin : pc.inside = true)
    (hat : At quiet s.machine (s.cpuStatus cpu) (s.regs cpu) cpu pc) :
    (s.spinLock cpu pc).Inv quiet := by
  unfold LockSys.spinLock
  split
  · exact h
  · next hfree =>
      have hnone : s.holder = none := by simpa [h.locked] using hfree
      refine h.move rfl rfl (iff_of_true hin rfl) (fun cpu' hne => ⟨?_, rfl, rfl⟩) (.inl rfl) hat
      simp [LockSys.goto, hnone, hne.symm]

theorem Inv.spinUnlock (hheld : s.holder = some cpu) (hout : pc.inside = false)
    (hat : At quiet s.machine (s.cpuStatus cpu) (s.regs cpu) cpu pc) :
    (s.spinUnlock.goto cpu pc).Inv quiet := by
  refine h.move rfl rfl (by simp [LockSys.goto, LockSys.spinUnlock, hout])
    (fun cpu' hne => ⟨?_, rfl, rfl⟩) (.inl rfl) hat
  simp [LockSys.goto, LockSys.spinUnlock, hheld, hne.symm]

theorem Inv.sbiBootAp (ap : Nat) : (s.sbiBootAp ap).Inv quiet := by
  unfold LockSys.sbiBootAp
  split
  · next hoff =>
      have hat := h.place ap
      rw [hoff] at hat
      exact h.goto hoff rfl hat
  · exact h

theorem Inv.panic (hpc : s.pc cpu = pc₀) : (s.panic cpu pc₀.inside).Inv quiet :=
  h.move rfl h.locked (hpc ▸ h.inside cpu) (fun _ _ => ⟨.rfl, rfl, rfl⟩) (.inl rfl) trivial

theorem Inv.entry {event : Event} (hpc : s.pc event.cpu = .kernel event s.machine)
    (hentry : s.machine.Step event m) (hquiet : quiet → s.KeepsFrames m) :
    ({ s with machine := m }.goto event.cpu
      (if (m.cpuEnv event.cpu).isNone then .halt else .unlock)).Inv quiet := by
  have hheld := h.inside event.cpu
  have hat := h.place event.cpu
  rw [hpc] at hheld hat
  have hdata : s.holder = some event.cpu ∧ ∃ event', event'.cpu = event.cpu ∧
      s.machine.Step event' m ∧ (quiet → s.KeepsFrames m) :=
    ⟨hheld.mp rfl, event, rfl, hentry, hquiet⟩
  split
  · next hnone =>
      exact h.move rfl h.locked hheld (fun _ _ => ⟨.rfl, rfl, rfl⟩) (.inr hdata)
        (Option.isNone_iff_eq_none.mp hnone)
  · next hsome =>
      exact h.move rfl h.locked hheld (fun _ _ => ⟨.rfl, rfl, rfl⟩) (.inr hdata)
        ⟨iff_of_false hat.1.awake (mt Option.isNone_iff_eq_none.mpr hsome), hentry.regs.1⟩

/-- The kernel's data changes only by an entry of the CPU that has the lock, from the data that is
there. -/
theorem Inv.step (hstep : s.Step (cpu, user) s')
    (hquiet : ∀ event m', s.pc cpu = .kernel event s.machine → s.machine.Step event m' → quiet →
      s.KeepsFrames m') : s'.Inv quiet ∧ (s'.machine = s.machine ∨
    ∃ event, s.pc cpu = .kernel event s.machine ∧ s.machine.Step event s'.machine) := by
  have hat := h.place cpu
  have hheld := h.inside cpu
  unfold Step exec at hstep
  dsimp only at hstep
  generalize hpc : s.pc cpu = pc at hstep hat hheld ⊢
  cases pc with
  | off | dead => cases hstep
  | boot aps =>
      cases aps with
      | nil =>
          cases hstep
          exact ⟨h.goto hpc rfl ⟨⟨rfl, Option.isNone_iff_eq_none.mpr hat.1, hat.2⟩, rfl⟩, .inl rfl⟩
      | cons ap aps =>
          cases hstep
          have hon : s.pc cpu ≠ .off := by simp [hpc]
          obtain ⟨hmachine, hstatus, hsame⟩ := s.sbiBootAp_eq ap hon
          rw [← hmachine, ← hstatus] at hat
          exact ⟨(h.sbiBootAp ap).goto (hsame.trans hpc) rfl hat, .inl hmachine⟩
  | await ap aps =>
      dsimp only at hstep
      split at hstep <;> cases hstep
      · exact ⟨h.goto hpc rfl hat, .inl rfl⟩
      · exact ⟨h, .inl rfl⟩
  | mpMain =>
      cases hstep
      exact ⟨h.setStatus hpc rfl ⟨rfl, Option.isNone_iff_eq_none.mpr hat.1, nofun⟩, .inl rfl⟩
  | user =>
      dsimp only at hstep
      split at hstep <;> cases hstep
      next hspp =>
        have henters : s.machine.enters (.trap cpu user) = true := by
          simpa [Machine.enters, Option.isSome_iff_ne_none, hspp] using hat.1
        exact ⟨h.goto hpc rfl ⟨rfl, henters, iff_of_false hat.2.1 (by simpa [Event.spp] using hspp)⟩,
          .inl rfl⟩
  | idle =>
      cases hstep
      exact ⟨h.goto hpc rfl ⟨rfl, Option.isNone_iff_eq_none.mpr hat.1, iff_of_true hat.2 rfl⟩,
        .inl rfl⟩
  | trap event =>
      -- the status says halted exactly for a trap from the loop of `sched_halt`, so that one of the
      -- two calls of `lock_kernel` is made
      obtain ⟨hown, henters, hspp⟩ := hat
      dsimp only at hstep
      split at hstep
      · cases hstep
        exact ⟨h.goto hpc rfl trivial, .inl rfl⟩
      · split at hstep <;> cases hstep
        · next hhalted =>
            exact ⟨h.setStatus hpc rfl ⟨⟨hown, henters, nofun⟩, hspp.mp hhalted⟩, .inl rfl⟩
        · next hawake =>
            have hout : event.spp = false := Bool.eq_false_iff.mpr (mt hspp.mpr hawake)
            exact ⟨h.setStatus hpc hout ⟨hown, henters, nofun⟩, .inl rfl⟩
  | relock event =>
      cases hstep
      exact ⟨h.spinLock hat.2 hat.1, .inl (spinLock_machine ..)⟩
  | test event =>
      dsimp only at hstep
      split at hstep
      · next hspp =>
          cases hstep
          exact ⟨h.goto hpc hspp.symm ⟨hat, rfl⟩, .inl rfl⟩
      · next hspp =>
          have hout : (CpuPc.test event).inside = false := Bool.eq_false_iff.mpr hspp
          split at hstep <;> cases hstep
          · exact ⟨hout ▸ h.panic hpc, .inl rfl⟩
          · exact ⟨h.goto hpc hout.symm hat, .inl rfl⟩
  | lock event =>
      cases hstep
      exact ⟨h.spinLock rfl ⟨hat, rfl⟩, .inl (spinLock_machine ..)⟩
  | kernel event found =>
      obtain ⟨⟨rfl, henters, hawake⟩, rfl⟩ := hat
      dsimp only at hstep
      split at hstep <;> cases hstep
      · exact ⟨h.goto hpc rfl trivial, .inl rfl⟩
      · exact ⟨h.panic hpc, .inl rfl⟩
      · next m hexec =>
          have hentry := Machine.step_of_enters henters hexec
          exact ⟨h.entry hpc hentry (hquiet event m hpc hentry), .inr ⟨event, rfl, hentry⟩⟩
  | halt =>
      cases hstep
      exact ⟨h.setStatus hpc rfl ⟨iff_of_true rfl hat, fun e he => by cases hat.symm.trans he⟩,
        .inl rfl⟩
  | unlock =>
      cases hstep
      refine ⟨h.spinUnlock (hheld.mp rfl) ?_ ?_, .inl rfl⟩ <;> split
      · rfl
      · rfl
      · next hnone => exact ⟨hnone, hat.1.mpr hnone⟩
      · next e hsome => exact ⟨hsome, mt hat.1.mp (by simp [hsome]), fun _ => hat.2 e hsome⟩
  | pop e =>
      cases hstep
      refine ⟨h.move rfl h.locked hheld (fun _ hne => ⟨.rfl, rfl, update_of_ne hne ..⟩) (.inl rfl) ?_,
        .inl rfl⟩
      exact ⟨by simp [LockSys.goto, hat.1], hat.2.1,
        fun hq => (update_self ..).trans (hat.2.2 hq).symm⟩

end

theorem inv_start (hboots : s.Boots) : s.Inv quiet := by
  obtain ⟨m, ncpu, hartid, ⟨vm, kernPgdir, envsAddr, sstatus, programs, k, -, -, rfl⟩, rfl⟩ := hboots
  refine ⟨rfl, fun cpu => ?_, fun cpu => ?_⟩ <;> by_cases hcpu : cpu = hartid
  · simp [start, hcpu, CpuPc.inside]
  · simp [start, hcpu, CpuPc.inside, Ne.symm hcpu]
  · simp [start, hcpu, At, Machine.start]
  · simp [start, hcpu, At, Machine.start]

section

variable {allowed : Machine → Event → Prop}

theorem serial_start (hboots : s.Boots) :
    Reachable Machine.Boots Machine.Step allowed s.machine := by
  obtain ⟨m, ncpu, hartid, hm, rfl⟩ := hboots
  exact .start hm

theorem serial_step (hserial : Reachable Machine.Boots Machine.Step allowed s.machine)
    (hallowed : s.Enters allowed (cpu, user)) (hdata : s'.machine = s.machine ∨
      ∃ event, s.pc cpu = .kernel event s.machine ∧ s.machine.Step event s'.machine) :
    Reachable Machine.Boots Machine.Step allowed s'.machine := by
  obtain hsame | ⟨event, hpc, hentry⟩ := hdata
  · rwa [hsame]
  · exact hserial.next (hallowed event _ hpc) hentry

end

def ticksOnly (s : LockSys) (label : Nat × UserTrap) : Bool :=
  match s.pc label.1 with
  | .kernel (.tick cpu) found => (found.cpuEnv cpu).isNone
  | .kernel (.trap _ _) _ => false
  | _ => true

theorem undisturbed_of_ticksOnly (s : LockSys) (label : Nat × UserTrap)
    (hticks : s.ticksOnly label = true) : s.Undisturbed label := by
  have hentry : ∀ event found, s.pc label.1 = .kernel event found →
      ∃ cpu, event = .tick cpu ∧ found.cpuEnv cpu = none := by
    intro event found hpc
    rw [ticksOnly, hpc] at hticks
    cases event with
    | trap => cases hticks
    | tick cpu => exact ⟨cpu, rfl, Option.isNone_iff_eq_none.mp hticks⟩
  constructor
  · intro event found hpc
    obtain ⟨cpu, rfl, -⟩ := hentry event found hpc
    trivial
  · intro cpu e _ event found hpc c hc
    obtain ⟨cpu, rfl, hnone⟩ := hentry event found hpc
    cases hnone.symm.trans hc

def inUser (s : LockSys) (cpu : Nat) : Bool :=
  match s.pc cpu with
  | .user => true
  | _ => false

/-- CPU 0 starts CPU 1, which takes the lock after it; both have an environment in the end. -/
def twoCpus : Option LockSys := do
  let k ← (Kern.boot Vm.small (pageKva 0) uenvs 0
    [(Kern.smallImage, .user), (Kern.smallImage, .user)]).toOption
  ([0, 1, 0, 0, 1, 0, 0, 1, 1, 0].map fun cpu => (cpu, ⟨{}, 0, 0, 0, 0, fun _ => none⟩)).foldlM
    (fun s label => if s.ticksOnly label then s.exec label.1 label.2 else none)
    (start (.start k) 2 0)

theorem exists_twoCpus {allowed : LockSys → Nat × UserTrap → Prop}
    (hallowed : ∀ s label, s.ticksOnly label = true → allowed s label) :
    ∃ s, Reachable Boots Step allowed s ∧ s.pc 0 = .user ∧ s.holder = some 1 ∧
      s.machine.cpuEnv 0 = some 0 ∧ s.machine.cpuEnv 1 = some 1 := by
  have heval : (twoCpus.map fun s => (s.inUser 0, s.holder, s.machine.cpuEnv 0, s.machine.cpuEnv 1)) =
      some (true, some 1, some 0, some 1) := by
    decide +kernel
  obtain ⟨s, hrun, hobs⟩ := Option.map_eq_some_iff.mp heval
  simp only [Prod.mk.injEq] at hobs
  unfold twoCpus at hrun
  obtain ⟨k, hboot, hsteps⟩ := Option.bind_eq_some_iff.mp hrun
  have hboots : Boots (start (.start k) 2 0) :=
    ⟨_, 2, 0, ⟨_, _, _, 0, _, k, by decide, eq_ok_of_toOption hboot, rfl⟩, rfl⟩
  refine ⟨s, (Reachable.start hboots).events ?_ hsteps, ?_, hobs.2⟩
  · intro s label s' hstep
    split at hstep
    · next hticks => exact ⟨hallowed s label hticks, hstep⟩
    · cases hstep
  · have huser := hobs.1
    unfold inUser at huser
    split at huser
    · assumption
    · cases huser

end LockSys

end ZynexOS
