import ZynexOS.Kern.Proof.Frames

/-!
# What an IPC delivers

A send is compared with what was sent and with the `dstva` that was asked for.
-/

namespace ZynexOS

open Library

/-- A machine, with the `dstva` of the receive that each environment has pending. -/
structure Tracked where
  machine : Machine
  asked : Nat → Option Word

def Event.firstArg : Event → Option Word
  | .trap _ user => some user.regs.a1
  | .tick _ => none

namespace Tracked

def Starts (t : Tracked) : Prop := t.machine.Boots ∧ ∀ e, t.asked e = none

/-- A receive becomes pending with the argument of the call that issues it, and stays the same receive
until it is no longer pending. -/
def Step (t : Tracked) (event : Event) (t' : Tracked) : Prop :=
  t.machine.Step event t'.machine ∧ ∀ e, t'.asked e =
    if (t'.machine.kern.envs e).envIpcRecving then
      if (t.machine.kern.envs e).envIpcRecving then t.asked e else event.firstArg
    else none

def AskedFor (t : Tracked) : Prop :=
  ∀ e, (t.machine.kern.envs e).envIpcRecving = true →
    ∃ dstva, t.asked e = some dstva ∧
      (dstva < utop → (t.machine.kern.envs e).envIpcDstva = dstva)

end Tracked

namespace Kern

/-- How the receiving state of an entry may differ from `env₀` while `c` traps with `tf`: it is the
receive that was pending before, or the one that the call issues. -/
def RecvFrom (envs₀ : Nat → Env) (c : Nat) (tf : Trapframe) (e : Nat) (env : Env) : Prop :=
  (env.envIpcRecving = true →
    ((envs₀ e).envIpcRecving = true ∧ env.envIpcDstva = (envs₀ e).envIpcDstva) ∨
    ((envs₀ e).envIpcRecving = false ∧ e = c ∧ (tf.a1 < utop → env.envIpcDstva = tf.a1))) ∧
  (Sysno.ofWord tf.a0 = some .ipcRecv → env.envIpcRecving = false →
    (envs₀ e).envIpcRecving = false)

theorem envRule_recvFrom (envs₀ : Nat → Env) (c : Nat) (tf : Trapframe) (sstatus : Word) :
    EnvRule (RecvFrom envs₀ c tf) c tf sstatus fun _ => True where
  sched _ _ _ henv := henv
  free _ henv := henv
  trapped henv := henv
  edited _ henv _ _ := henv
  stored _ henv _ := henv
  alloc hno _ _ _ _ _ _ _ := ⟨nofun, fun hrecv => absurd (hno.symm.trans hrecv) (by decide)⟩
  fork hno _ _ _ _ _ := ⟨nofun, fun hrecv => absurd (hno.symm.trans hrecv) (by decide)⟩
  upcall _ henv := henv
  deliver hno _ _ _ _ _ _ := ⟨nofun, fun hrecv => absurd (hno.symm.trans hrecv) (by decide)⟩
  receive hno _ henv hidle _ :=
    ⟨fun _ => .inr ⟨henv.2 hno hidle, rfl, fun hbelow => if_pos hbelow⟩, fun _ h => nomatch h⟩

end Kern

namespace Tracked

theorem askedFor_start {t : Tracked} (hstart : t.Starts) : t.AskedFor := by
  obtain ⟨⟨vm, kernPgdir, envsAddr, sstatus, programs, k, -, hboot, hmachine⟩, -⟩ := hstart
  have hidle : Kern.Holds (fun _ env => env.envIpcRecving = false) k :=
    Kern.holds_boot (fun _ _ => rfl) (fun _ _ _ _ _ _ => rfl) hboot
  intro e hrecving
  rw [hmachine] at hrecving
  exact absurd hrecving (Bool.eq_false_iff.mp (hidle e))

theorem askedFor_step {t t' : Tracked} {event : Event} (hasked : t.AskedFor)
    (hstep : t.Step event t') : t'.AskedFor := by
  obtain ⟨machine', asked'⟩ := t'
  obtain ⟨hmachine, htrack⟩ := hstep
  dsimp only at hmachine htrack
  intro e hrecving
  have hnow := htrack e
  rw [if_pos hrecving] at hnow
  cases hmachine with
  | @trap cpu c user k hrunning hstatus hkernel =>
      have hrecv : Kern.Holds (Kern.RecvFrom t.machine.kern.envs c user.frame) k := by
        refine (Kern.envRule_recvFrom t.machine.kern.envs c user.frame user.status).trap
          (k := t.machine.enter cpu user) ?_ rfl hrunning ?_ hkernel
        · exact fun e => ⟨fun h => .inl ⟨h, rfl⟩, fun _ h => h⟩
        · exact fun _ _ _ _ => trivial
      obtain ⟨hbefore, hdstva⟩ | ⟨hbefore, rfl, hdstva⟩ := (hrecv e).1 hrecving
      · obtain ⟨dstva, hasked, hsame⟩ := hasked e hbefore
        rw [if_pos hbefore, hasked] at hnow
        exact ⟨dstva, hnow, fun hbelow => hdstva.trans (hsame hbelow)⟩
      · rw [if_neg (Bool.eq_false_iff.mp hbefore)] at hnow
        exact ⟨user.regs.a1, hnow, hdstva⟩
  | @tick cpu k hidle hkernel =>
      have hsame : Kern.Holds (fun e env => env.envIpcRecving = (t.machine.kern.envs e).envIpcRecving ∧
          env.envIpcDstva = (t.machine.kern.envs e).envIpcDstva) k :=
        Kern.Holds.schedYield (k := { t.machine.kern with curenv := none }) (fun _ _ _ henv => henv)
          (fun e => ⟨rfl, rfl⟩) hkernel
      have hbefore : (t.machine.kern.envs e).envIpcRecving = true := (hsame e).1 ▸ hrecving
      obtain ⟨dstva, hasked, hdstva⟩ := hasked e hbefore
      rw [if_pos hbefore, hasked] at hnow
      exact ⟨dstva, hnow, fun hbelow => (hsame e).2.trans (hdstva hbelow)⟩

end Tracked

namespace Kern

/-- Between `k` and `k'`, environment `c` sent `value`, `srcva` and `perm` to `e`, whose pending
receive was issued with `asked`, and `e` got what was sent and what was asked for. -/
def Delivered (k k' : Kern) (c e : Nat) (asked : Option Word) (value srcva : Word)
    (perm : BitVec 32) : Prop :=
  (k'.envs e).envIpcValue = value ∧ (k'.envs e).envIpcFrom = (k.envs c).envId ∧
  ((srcva < utop ∧ ∃ dstva, asked = some dstva ∧ dstva < utop ∧ (k'.envs e).envIpcPerm = perm ∧
      ∃ pp srcSlot slot mid, k.vm.pageLookup (k.envs c).envPgdir srcva = .ok (some (pp, srcSlot)) ∧
        k.vm.pgdirWalk (k.envs e).envPgdir dstva true = .ok (some slot, mid) ∧
        k'.vm.mem slot = some (Vm.newEntry pp perm)) ∨
    (¬(srcva < utop ∧ ∃ dstva, asked = some dstva ∧ dstva < utop) ∧
      (k'.envs e).envIpcPerm = 0 ∧ k'.vm = k.vm))

theorem SendsPage.unique {k : Kern} {c e : Nat} {srcva : Word} {perm : BitVec 32} {pp pp' : Nat}
    {vm vm' : Vm} (hsends : k.SendsPage c e srcva perm pp vm)
    (hsends' : k.SendsPage c e srcva perm pp' vm') : vm = vm' := by
  obtain ⟨slot, pte, hlookup, -⟩ := hsends.source
  obtain ⟨slot', pte', hlookup', -⟩ := hsends'.source
  rw [hlookup] at hlookup'
  cases hlookup'
  have hinsert := hsends.insert
  rw [hsends'.insert] at hinsert
  cases hinsert
  rfl

theorem narrow_eq_iff (value : Word) :
    (value.setWidth 32).setWidth 64 = value ↔ value.toNat < 2 ^ 32 := by
  constructor
  · intro hsame
    have hnat := congrArg BitVec.toNat hsame
    rw [BitVec.toNat_setWidth, BitVec.toNat_setWidth] at hnat
    omega
  · intro hlt
    apply BitVec.eq_of_toNat_eq
    rw [BitVec.toNat_setWidth, BitVec.toNat_setWidth]
    omega

theorem syscall_ipcTrySend {k k' : Kern} {dev : Int} {no a1 a2 a3 a4 a5 : Word}
    (hno : Sysno.ofWord no = some .ipcTrySend) {ret : Int}
    (hcall : k.syscall dev no a1 a2 a3 a4 a5 = .ok (.ret ret, k')) :
    k.sysIpcTrySend (a1.setWidth 32) ((a2.setWidth 32).setWidth 64) a3 (a4.setWidth 32)
      = .ok (ret, k') := by
  simp only [Kern.syscall, hno] at hcall
  obtain ⟨⟨code, mid⟩, hsend, hrest⟩ := bind_eq_ok.mp hcall
  simp only [pure_eq_ok, Prod.mk.injEq, SysExit.ret.injEq] at hrest
  rw [hsend, hrest.1, hrest.2]

theorem delivered_iff {k k' : Kern} {c e : Nat} {asked : Option Word}
    (hasked : (k.envs e).envIpcRecving = true →
      ∃ dstva, asked = some dstva ∧ (dstva < utop → (k.envs e).envIpcDstva = dstva))
    {dev : Int} {no a1 a2 a3 a4 a5 : Word} (hno : Sysno.ofWord no = some .ipcTrySend)
    (hcur : k.curenv = some c) (htarget : k.envid2env (a1.setWidth 32) false = .ok (some e))
    (hcall : k.syscall dev no a1 a2 a3 a4 a5 = .ok (.ret 0, k')) :
    Delivered k k' c e asked a2 a3 (a4.setWidth 32) ↔
      a2.toNat < 2 ^ 32 ∧ (¬a3 < utop ∨ (∃ dstva, asked = some dstva ∧ dstva < utop) ∨
        (a4.setWidth 32 = (0 : BitVec 32) ∧ ∃ pp, k.SendsPage c e a3 (a4.setWidth 32) pp k.vm)) := by
  rw [← narrow_eq_iff]
  obtain ⟨hret, -⟩ | ⟨e', c', -, htarget', hrecving, hcur', hsent⟩ :=
    sysIpcTrySend_cases (syscall_ipcTrySend hno hcall)
  · exact absurd hret (by decide)
  · obtain rfl : c' = c := Option.some.inj (hcur'.symm.trans hcur)
    obtain rfl : e' = e := by
      rw [htarget] at htarget'
      cases htarget'
      rfl
    unfold Delivered
    obtain ⟨habove, rfl⟩ | ⟨hbelow, pp, vm, hpage, rfl⟩ := hsent
    · simp [ipcDeliver, habove]
    · obtain ⟨dstva, rfl, hdstva⟩ := hasked hrecving
      by_cases hwanted : dstva < utop
      · -- the page goes where the receiver asked for it
        obtain ⟨srcSlot, pte, hlookup, -⟩ := hpage.source
        have hinsert := hpage.insert
        rw [hdstva hwanted] at hinsert
        obtain ⟨slot, mid, hwalk, hentry⟩ := Vm.pageInsert_eq_zero hinsert
        simp only [setEnv_envs_self, setEnv_vm]
        constructor
        · rintro ⟨hvalue, -, -⟩
          exact ⟨hvalue, .inr (.inl ⟨dstva, rfl, hwanted⟩)⟩
        · rintro ⟨hvalue, -⟩
          exact ⟨hvalue, rfl, .inl ⟨hbelow, dstva, rfl, hwanted, rfl, pp, srcSlot, slot, mid, hlookup,
            hwalk, hentry⟩⟩
      · -- the page goes to an address left over from an earlier receive
        simp only [setEnv_envs_self, setEnv_vm]
        constructor
        · rintro ⟨hvalue, -, ⟨-, dstva', hdstva', hbelow', -⟩ | ⟨-, hperm, hvm⟩⟩
          · cases hdstva'
            exact absurd hbelow' hwanted
          · exact ⟨hvalue, .inr (.inr ⟨hperm, pp, hvm ▸ hpage⟩)⟩
        · rintro ⟨hvalue, habove | ⟨dstva', hdstva', hbelow'⟩ | ⟨hperm, pp', hpage'⟩⟩
          · exact absurd hbelow habove
          · cases hdstva'
            exact absurd hbelow' hwanted
          · refine ⟨hvalue, rfl, .inr ⟨?_, hperm, hpage.unique hpage'⟩⟩
            rintro ⟨-, dstva', hdstva', hbelow'⟩
            cases hdstva'
            exact hwanted hbelow'

end Kern

namespace Tracked

structure Sends (t : Tracked) (cpu c e : Nat) (user : UserTrap) (k' : Kern) : Prop where
  running : t.machine.cpuEnv cpu = some c
  number : Sysno.ofWord user.regs.a0 = some .ipcTrySend
  target : (t.machine.inCall cpu c user).envid2env (user.regs.a1.setWidth 32) false = .ok (some e)
  call : (t.machine.inCall cpu c user).syscall user.dev user.regs.a0 user.regs.a1 user.regs.a2
    user.regs.a3 user.regs.a4 user.regs.a5 = .ok (.ret 0, k')

/-- After any history, a successful send delivers what was sent and what was asked for exactly when
its value fits 32 bits and it has no page, or the pending receive was issued with `dstva < UTOP`, or
the page has permission 0 and is already mapped at the address left over from an earlier receive. -/
theorem delivered_iff_of_reachable {t : Tracked}
    (hreach : Reachable Starts Step (fun _ _ => True) t) {cpu c e : Nat} {user : UserTrap} {k' : Kern}
    (hsends : t.Sends cpu c e user k') :
    Kern.Delivered (t.machine.inCall cpu c user) k' c e (t.asked e) user.regs.a2 user.regs.a3
        (user.regs.a4.setWidth 32) ↔
      user.regs.a2.toNat < 2 ^ 32 ∧
      (¬user.regs.a3 < utop ∨ (∃ dstva, t.asked e = some dstva ∧ dstva < utop) ∨
        (user.regs.a4.setWidth 32 = (0 : BitVec 32) ∧
          ∃ pp, (t.machine.inCall cpu c user).SendsPage c e user.regs.a3 (user.regs.a4.setWidth 32)
            pp (t.machine.inCall cpu c user).vm)) := by
  have hasked : t.AskedFor :=
    hreach.invariant (P := AskedFor) (fun t hstart => askedFor_start hstart)
      (fun t event t' hasked _ hstep => askedFor_step hasked hstep)
  refine Kern.delivered_iff ?_ hsends.number hsends.running hsends.target hsends.call
  -- saving the frame does not touch what the receiver asked for
  intro hrecving
  have hsame : ((t.machine.inCall cpu c user).envs e).envIpcRecving =
        (t.machine.kern.envs e).envIpcRecving ∧
      ((t.machine.inCall cpu c user).envs e).envIpcDstva = (t.machine.kern.envs e).envIpcDstva := by
    unfold Machine.inCall
    by_cases he : e = c
    · rw [he, Kern.setEnv_envs_self]
      exact ⟨rfl, rfl⟩
    · rw [Kern.setEnv_envs_of_ne _ _ he]
      exact ⟨rfl, rfl⟩
  rw [hsame.1] at hrecving
  rw [hsame.2]
  exact hasked e hrecving

def next (t : Tracked) (event : Event) (m : Machine) : Tracked where
  machine := m
  asked := fun e =>
    if (m.kern.envs e).envIpcRecving then
      if (t.machine.kern.envs e).envIpcRecving then t.asked e else event.firstArg
    else none

theorem step_next {t : Tracked} {event : Event} {m : Machine} (hstep : t.machine.Step event m) :
    t.Step event (t.next event m) := ⟨hstep, fun _ => rfl⟩

def ecall (m : Machine) (regs : Trapframe) : UserTrap where
  regs := regs
  status := 0x20
  stval := 0
  scause := 8
  dev := 0
  mem := m.kern.vm.mem

def recvCall (m : Machine) : UserTrap :=
  ecall m { sepc := 0x800000, a0 := 13, a1 := 0xffffffffffffffff }

def sendCall (m : Machine) (value : Word) : UserTrap :=
  ecall m { sepc := 0x800000, a0 := 12, a1 := 4096, a2 := value, a3 := 0xffffffffffffffff }

def recvRun : Except Panic (Machine × Machine × Machine) := do
  let k ← Kern.boot Vm.small (pageKva 0) uenvs 0 [(Kern.smallImage, .user), (Kern.smallImage, .user)]
  let running ← (Machine.start k).exec (.tick 0)
  let blocked ← running.exec (.trap 0 (recvCall running))
  pure (Machine.start k, running, blocked)

def arrives (m : Machine) (value found : Word) : Bool :=
  let user := sendCall m value
  let k := m.inCall 0 1 user
  (k.envid2env (user.regs.a1.setWidth 32) false).toOption = some (some 0) ∧
    ((k.syscall 0 user.regs.a0 user.regs.a1 user.regs.a2 user.regs.a3 user.regs.a4
      user.regs.a5).toOption.map fun result => (result.1, (result.2.envs 0).envIpcValue)) =
        some (.ret 0, found)

theorem recvRun_observed :
    (recvRun.toOption.map fun run => (run.2.1.cpuEnv 0, run.2.2.cpuEnv 0,
      arrives run.2.2 7 7, arrives run.2.2 0x100000007 7)) = some (some 0, some 1, true, true) := by
  decide +kernel

theorem sends_of_arrives {t : Tracked} {value found : Word} (hcpu : t.machine.cpuEnv 0 = some 1)
    (harrives : arrives t.machine value found = true) :
    ∃ k', t.Sends 0 1 0 (sendCall t.machine value) k' ∧ (k'.envs 0).envIpcValue = found := by
  simp only [arrives, decide_eq_true_eq] at harrives
  have htarget := eq_ok_of_toOption harrives.1
  obtain ⟨⟨exit, k'⟩, hcall, hobs⟩ := exists_of_toOption_map harrives.2
  simp only [Prod.mk.injEq] at hobs
  obtain ⟨rfl, hfound⟩ := hobs
  exact ⟨k', ⟨hcpu, show Sysno.ofWord 12 = some .ipcTrySend by decide, htarget, hcall⟩, hfound⟩

theorem exists_blocked :
    ∃ t : Tracked, Reachable Starts Step (fun _ _ => True) t ∧
      (∃ k', t.Sends 0 1 0 (sendCall t.machine 7) k' ∧ (k'.envs 0).envIpcValue = 7) ∧
      ∃ k', t.Sends 0 1 0 (sendCall t.machine 0x100000007) k' ∧ (k'.envs 0).envIpcValue = 7 := by
  obtain ⟨⟨first, running, blocked⟩, hrun, hobs⟩ := exists_of_toOption_map recvRun_observed
  simp only [Prod.mk.injEq] at hobs
  obtain ⟨hcpu, hcpu', hsmall, hlarge⟩ := hobs
  obtain ⟨k, hboot, hrest⟩ := bind_eq_ok.mp hrun
  obtain ⟨mid, hmid, hrest⟩ := bind_eq_ok.mp hrest
  obtain ⟨mid', hmid', hrest⟩ := bind_eq_ok.mp hrest
  cases pure_eq_ok.mp hrest
  have hstart : Starts ⟨Machine.start k, fun _ => none⟩ :=
    ⟨⟨_, _, _, 0, _, k, by decide, hboot, rfl⟩, fun _ => rfl⟩
  have hrunning : Reachable Starts Step (fun _ _ => True)
      (next ⟨Machine.start k, fun _ => none⟩ (.tick 0) running) :=
    .next (.start hstart) trivial (step_next (Machine.step_of_exec_tick rfl hmid))
  have hblocked := hrunning.next trivial
    (step_next (Machine.step_of_exec hcpu (show spp 0x20 = false by decide) hmid'))
  exact ⟨_, hblocked, sends_of_arrives hcpu' hsmall, sends_of_arrives hcpu' hlarge⟩

/-- The value 2³² + 7 arrives as 7. -/
theorem truncated_value_delivered :
    ∃ (t : Tracked) (user : UserTrap) (k' : Kern), Reachable Starts Step (fun _ _ => True) t ∧
      t.Sends 0 1 0 user k' ∧
      ¬Kern.Delivered (t.machine.inCall 0 1 user) k' 1 0 (t.asked 0) user.regs.a2 user.regs.a3
        (user.regs.a4.setWidth 32) := by
  obtain ⟨t, hreach, -, k', hsends, hfound⟩ := exists_blocked
  refine ⟨t, _, k', hreach, hsends, fun hdelivered => ?_⟩
  have hvalue := hdelivered.1
  rw [hfound] at hvalue
  exact absurd hvalue (show (7 : Word) ≠ 0x100000007 by decide)

/-- The value 7 arrives. -/
theorem small_value_delivered :
    ∃ (t : Tracked) (user : UserTrap) (k' : Kern), t.Sends 0 1 0 user k' ∧
      Kern.Delivered (t.machine.inCall 0 1 user) k' 1 0 (t.asked 0) 7 user.regs.a3 0 := by
  obtain ⟨t, hreach, ⟨k', hsends, -⟩, -⟩ := exists_blocked
  refine ⟨t, _, k', hsends, ?_⟩
  exact (delivered_iff_of_reachable hreach hsends).mpr
    ⟨show (7 : Word).toNat < 2 ^ 32 by decide,
      .inl (show ¬(0xffffffffffffffff : Word) < utop by decide)⟩

end Tracked

end ZynexOS
