import ZynexOS.Kern.Proof.EnvLemmas

/-! # What a trap can do -/

namespace ZynexOS

open Library

namespace Kern

variable {k k' : Kern} {c : Nat} {tf : Trapframe} {exit : SysExit}

def freed (k : Kern) (c e : Nat) : Kern :=
  { k.setEnv e { k.envs e with envPgdir := 0, envStatus := .free, envLink := k.envFreeList } with
    envFreeList := some e, curenv := if e = c then none else k.curenv }

def childEntry (k : Kern) (c e : Nat) : Env :=
  { k.envs e with
    envStatus := .notRunnable
    envParentId := (k.envs c).envId
    envIpcRecving := false
    envTf := { (k.envs c).envTf with a0 := 0, sepc := (k.envs c).envTf.sepc + 4, tp := k.envAddr e }
    envPgfaultUpcall := (k.envs c).envPgfaultUpcall }

inductive Update (k : Kern) (c : Nat) (tf : Trapframe) : Kern → Prop where
  | vm (vm : Vm) : Update k c tf { k with vm := vm }
  | setStatus (e : Nat) (status : EnvStatus) (hcall : IsCall tf .envSetStatus)
      (hfound : k.envid2env (tf.a1.setWidth 32) true = .ok (some e))
      (harg : envStatusOf (tf.a2.setWidth 32).toNat = some status)
      (hold : (k.envs e).envStatus = .runnable ∨ (k.envs e).envStatus = .notRunnable) :
      Update k c tf (k.setEnv e { k.envs e with envStatus := status })
  | setFrame (e : Nat) (frame : Trapframe) (hcall : IsCall tf .envSetTrapframe)
      (hfound : k.envid2env (tf.a1.setWidth 32) true = .ok (some e))
      (hread : readTrapframe k.vm tf.a2 = .ok frame) :
      Update k c tf (k.setEnv e { k.envs e with envTf := frame })
  | setUpcall (e : Nat) (func : Word)
      (hfound : k.envid2env (tf.a1.setWidth 32) true = .ok (some e)) :
      Update k c tf (k.setEnv e { k.envs e with envPgfaultUpcall := func })
  | deliver (e : Nat) (vm : Vm) (value : Word) (perm : BitVec 32) (hcall : IsCall tf .ipcTrySend)
      (hfound : k.envid2env (tf.a1.setWidth 32) false = .ok (some e))
      (hrecving : (k.envs e).envIpcRecving = true) :
      Update k c tf ({ k with vm := vm }.setEnv e
        (ipcDeliver (k.envs e) (k.envs c).envId value perm))
  | wait (hcall : IsCall tf .ipcRecv) :
      Update k c tf (k.setEnv c { k.envs c with envStatus := .notRunnable })
  | receive (hcall : IsCall tf .ipcRecv) (hfresh : (k.envs c).envIpcRecving = false)
      (haligned : tf.a1 < utop → tf.a1.toNat % pgSize = 0) :
      Update k c tf (k.setEnv c { k.envs c with
        envIpcDstva := if tf.a1 < utop then tf.a1 else (k.envs c).envIpcDstva
        envIpcRecving := true, envStatus := .notRunnable })
  | fork (e : Nat) (mid : Kern) (hcall : IsCall tf .exofork)
      (halloc : k.envAlloc (k.envs c).envParentId = .ok (.inl e, mid)) :
      Update k c tf (mid.setEnv e (mid.childEntry c e))
  | kill (e : Nat) (hcall : IsCall tf .envDestroy)
      (hfound : k.envid2env (tf.a1.setWidth 32) true = .ok (some e)) (hne : e ≠ c)
      (hrunning : (k.envs e).envStatus = .running) :
      Update k c tf (k.setEnv e { k.envs e with envStatus := .dying })
  | free (e : Nat) (vm : Vm)
      (hcall : e = c ∨ IsCall tf .envDestroy ∧ k.envid2env (tf.a1.setWidth 32) true = .ok (some e))
      (hstopped : e ≠ c → (k.envs e).envStatus ≠ .running) (hpgdir : (k.envs e).envPgdir ≠ 0) :
      Update k c tf { k.freed c e with vm := vm }

theorem Update.refl (k : Kern) (c : Nat) (tf : Trapframe) : Update k c tf k := .vm k.vm

theorem envDestroy_freed {e : Nat} {gone : Bool} (hcur : k.curenv = some c)
    (hdestroy : k.envDestroy e = .ok (gone, k')) :
    (e ≠ c ∧ (k.envs e).envStatus = .running ∧
      k' = k.setEnv e { k.envs e with envStatus := .dying }) ∨
    ((e ≠ c → (k.envs e).envStatus ≠ .running) ∧ (k.envs e).envPgdir ≠ 0 ∧ (gone = true ↔ e = c) ∧
      ∃ vm, k' = { k.freed c e with vm := vm }) := by
  unfold Kern.envDestroy at hdestroy
  split at hdestroy
  · next hrunning =>
      cases hdestroy
      refine .inl ⟨?_, hrunning.1, rfl⟩
      rintro rfl
      exact hrunning.2 hcur
  · next hstopped =>
      obtain ⟨mid, hfree, hrest⟩ := bind_eq_ok.mp hdestroy
      have hpgdir := pgdir_ne_zero_of_envFree hfree
      have hstopped' : e ≠ c → (k.envs e).envStatus ≠ .running := by
        intro hne hrun
        refine hstopped ⟨hrun, ?_⟩
        rw [hcur]
        exact fun h => hne (Option.some.inj h).symm
      obtain ⟨vm, rfl⟩ := envFree_eq hfree
      refine .inr ⟨hstopped', hpgdir, ?_⟩
      split at hrest
      · next hsame =>
          have he : e = c := (Option.some.inj (hcur.symm.trans hsame)).symm
          cases pure_eq_ok.mp hrest
          exact ⟨iff_of_true rfl he, vm, by rw [freed, if_pos he]; rfl⟩
      · next hother =>
          have he : e ≠ c := by
            rintro rfl
            exact hother hcur
          cases pure_eq_ok.mp hrest
          exact ⟨iff_of_false nofun he, vm, by rw [freed, if_neg he]; rfl⟩

theorem envDestroy_self {gone : Bool} (hcur : k.curenv = some c)
    (hdestroy : k.envDestroy c = .ok (gone, k')) :
    gone = true ∧ (k.envs c).envPgdir ≠ 0 ∧ ∃ vm, k' = { k.freed c c with vm := vm } := by
  obtain ⟨hne, -, -⟩ | ⟨-, hpgdir, hgone, hfreed⟩ := envDestroy_freed hcur hdestroy
  · exact absurd rfl hne
  · exact ⟨hgone.mpr rfl, hpgdir, hfreed⟩

theorem userMemAssert_self {va len : Word} {perm : BitVec 32} {gone : Bool} (hcur : k.curenv = some c)
    (hassert : k.userMemAssert c va len perm = .ok (gone, k')) :
    (gone = false ∧ k' = k) ∨
      gone = true ∧ (k.envs c).envPgdir ≠ 0 ∧ ∃ vm, k' = { k.freed c c with vm := vm } := by
  obtain h | hdestroy := userMemAssert_cases hassert
  · exact .inl h
  · exact .inr (envDestroy_self hcur hdestroy)

section Calls

variable (hcur : k.curenv = some c) (hcause : Cause.ofScause tf.scause = .syscall)

include hcur

theorem sysCputs_update {s len : Word} (hrun : k.sysCputs s len = .ok (exit, k')) : Update k c tf k' := by
  have hrest := (cur_bind_eq_ok hcur).mp hrun
  obtain ⟨⟨gone, mid⟩, hassert, hrest⟩ := bind_eq_ok.mp hrest
  have hend : mid = k' := by
    cases gone <;> exact (Prod.mk.inj (pure_eq_ok.mp hrest)).2
  obtain ⟨-, hsame⟩ | ⟨-, hpgdir, vm, hfreed⟩ := userMemAssert_self hcur hassert
  · rw [← hend, hsame]
    exact .refl ..
  · rw [← hend, hfreed]
    exact .free c vm (.inl rfl) (fun hne => absurd rfl hne) hpgdir

theorem sysEnvDestroy_update (hcall : IsCall tf .envDestroy)
    (hrun : k.sysEnvDestroy (tf.a1.setWidth 32) = .ok (exit, k')) : Update k c tf k' := by
  obtain ⟨found, hfound, hrest⟩ := bind_eq_ok.mp hrun
  cases found with
  | none =>
      cases pure_eq_ok.mp hrest
      exact .refl ..
  | some e =>
      obtain ⟨⟨gone, mid⟩, hmid, hrest⟩ := bind_eq_ok.mp hrest
      have hend : mid = k' := by
        cases gone <;> exact (Prod.mk.inj (pure_eq_ok.mp hrest)).2
      subst hend
      obtain ⟨hne, hrunning, rfl⟩ | ⟨hstopped, hpgdir, -, vm, rfl⟩ := envDestroy_freed hcur hmid
      · exact .kill e hcall hfound hne hrunning
      · exact .free e vm (.inr ⟨hcall, hfound⟩) hstopped hpgdir

theorem sysExofork_update (hcall : IsCall tf .exofork) (hrun : k.sysExofork = .ok (exit, k')) :
    Update k c tf k' := by
  have hrest := (cur_bind_eq_ok hcur).mp hrun
  obtain ⟨⟨result, mid⟩, halloc, hrest⟩ := bind_eq_ok.mp hrest
  cases result with
  | inr code => exact absurd hrest throw_ne_ok
  | inl e =>
      cases pure_eq_ok.mp hrest
      exact .fork e mid hcall halloc

theorem sysIpcRecv_update (hcall : IsCall tf .ipcRecv)
    (hrun : k.sysIpcRecv tf.a1 = .ok (exit, k')) : Update k c tf k' := by
  have hrest := (cur_bind_eq_ok hcur).mp hrun
  dsimp only at hrest
  split at hrest
  · cases pure_eq_ok.mp hrest
    exact .wait hcall
  · next hrecving =>
      have hfresh := Update.receive hcall (Bool.eq_false_iff.mpr hrecving)
      split at hrest
      · next hbelow =>
          split at hrest
          · cases pure_eq_ok.mp hrest
            exact .refl ..
          · next haligned =>
              cases pure_eq_ok.mp hrest
              simpa only [if_pos hbelow] using hfresh fun _ => not_not.mp haligned
      · next habove =>
          cases pure_eq_ok.mp hrest
          simpa only [if_neg habove] using hfresh fun hbelow => absurd hbelow habove

theorem sysIpcTrySend_update {value srcva : Word} {perm : BitVec 32} {ret : Int}
    (hcall : IsCall tf .ipcTrySend)
    (hrun : k.sysIpcTrySend (tf.a1.setWidth 32) value srcva perm = .ok (ret, k')) :
    Update k c tf k' := by
  obtain ⟨-, vm, rfl⟩ | ⟨e, c', -, hfound, hrecving, hcur', hend⟩ := sysIpcTrySend_cases hrun
  · exact .vm vm
  · obtain rfl : c' = c := Option.some.inj (hcur'.symm.trans hcur)
    obtain ⟨-, rfl⟩ | ⟨-, pp, vm, -, rfl⟩ := hend
    · exact .deliver e k.vm value 0 hcall hfound hrecving
    · exact .deliver e vm value perm hcall hfound hrecving

omit hcur

theorem sysEnvSetStatus_update (hcall : IsCall tf .envSetStatus)
    (hrun : k.sysEnvSetStatus (tf.a1.setWidth 32) (tf.a2.setWidth 32) = .ok (exit, k')) :
    Update k c tf k' := by
  unfold Kern.sysEnvSetStatus at hrun
  split at hrun
  · cases hrun
    exact .refl ..
  · next status harg =>
      obtain ⟨found, hfound, hrest⟩ := bind_eq_ok.mp hrun
      cases found with
      | none =>
          cases pure_eq_ok.mp hrest
          exact .refl ..
      | some e =>
          dsimp only at hrest
          split at hrest
          · next hold =>
              cases pure_eq_ok.mp hrest
              exact .setStatus e status hcall hfound harg hold
          · cases pure_eq_ok.mp hrest
            exact .refl ..

theorem sysEnvSetTrapframe_update (hcall : IsCall tf .envSetTrapframe)
    (hrun : k.sysEnvSetTrapframe (tf.a1.setWidth 32) tf.a2 = .ok (exit, k')) : Update k c tf k' := by
  obtain ⟨found, hfound, hrest⟩ := bind_eq_ok.mp hrun
  cases found with
  | none =>
      cases pure_eq_ok.mp hrest
      exact .refl ..
  | some e =>
      obtain ⟨frame, hread, hrest⟩ := bind_eq_ok.mp hrest
      cases pure_eq_ok.mp hrest
      exact .setFrame e frame hcall hfound hread

theorem sysEnvSetPgfaultUpcall_update {func : Word}
    (hrun : k.sysEnvSetPgfaultUpcall (tf.a1.setWidth 32) func = .ok (exit, k')) :
    Update k c tf k' := by
  obtain ⟨found, hfound, hrest⟩ := bind_eq_ok.mp hrun
  cases found with
  | none =>
      cases pure_eq_ok.mp hrest
      exact .refl ..
  | some e =>
      dsimp only at hrest
      split at hrest
      · cases pure_eq_ok.mp hrest
        exact .refl ..
      · cases pure_eq_ok.mp hrest
        exact .setUpcall e func hfound

theorem returns_update {result : Except Panic (Int × Kern)}
    (hresult : ∀ ret mid, result = .ok (ret, mid) → Update k c tf mid)
    (hrun : Kern.returns result = .ok (exit, k')) : Update k c tf k' := by
  obtain ⟨⟨ret, mid⟩, hmid, hrest⟩ := bind_eq_ok.mp hrun
  cases pure_eq_ok.mp hrest
  exact hresult _ _ hmid

theorem returns_vm {result : Except Panic (Int × Kern)}
    (hresult : ∀ ret mid, result = .ok (ret, mid) → ∃ vm, mid = { k with vm := vm })
    (hrun : Kern.returns result = .ok (exit, k')) : Update k c tf k' := by
  refine returns_update (fun ret mid hmid => ?_) hrun
  obtain ⟨vm, rfl⟩ := hresult ret mid hmid
  exact .vm vm

include hcur hcause

theorem syscall_update {dev : Int} {a3 a4 a5 : Word}
    (hrun : k.syscall dev tf.a0 tf.a1 tf.a2 a3 a4 a5 = .ok (exit, k')) : Update k c tf k' := by
  unfold Kern.syscall at hrun
  split at hrun
  · cases hrun
    exact .refl ..
  · exact sysCputs_update hcur hrun
  · -- getenvid
    obtain ⟨c', -, hrest⟩ := bind_eq_ok.mp hrun
    cases pure_eq_ok.mp hrest
    exact .refl ..
  · next hno => exact sysEnvDestroy_update hcur ⟨hcause, hno⟩ hrun
  · -- yield
    cases hrun
    exact .refl ..
  · next hno => exact sysExofork_update hcur ⟨hcause, hno⟩ hrun
  · next hno => exact sysEnvSetStatus_update ⟨hcause, hno⟩ hrun
  · exact returns_vm (fun _ _ => sysPageAlloc_envs) hrun
  · exact returns_vm (fun _ _ => sysPageMap_envs) hrun
  · exact returns_vm (fun _ _ => sysPageUnmap_envs) hrun
  · next hno => exact sysEnvSetTrapframe_update ⟨hcause, hno⟩ hrun
  · exact sysEnvSetPgfaultUpcall_update hrun
  · next hno =>
      exact returns_update (fun _ _ => sysIpcTrySend_update hcur ⟨hcause, hno⟩) hrun
  · next hno =>
      obtain ⟨⟨result, mid⟩, hrecv, hrest⟩ := bind_eq_ok.mp hrun
      have hend : mid = k' := by
        cases result <;> exact (Prod.mk.inj (pure_eq_ok.mp hrest)).2
      exact hend ▸ sysIpcRecv_update hcur ⟨hcause, hno⟩ hrecv
  · exact returns_vm (fun _ _ => sysPageClearDirty_envs) hrun
  · -- uvpt_pte
    obtain ⟨c', -, hrest⟩ := bind_eq_ok.mp hrun
    obtain ⟨found, -, hrest⟩ := bind_eq_ok.mp hrest
    cases found with
    | none =>
        cases pure_eq_ok.mp hrest
        exact .refl ..
    | some slot =>
        obtain ⟨pte, -, hrest⟩ := bind_eq_ok.mp hrest
        cases pure_eq_ok.mp hrest
        exact .refl ..
  · exact returns_vm (fun _ _ => copySharedLoop_envs) hrun
  all_goals
    cases hrun
    exact .refl ..

end Calls

theorem pageFaultHandler_cases {exit : TrapExit} (hcur : k.curenv = some c)
    (hhandler : k.pageFaultHandler c = .ok (exit, k')) :
    (exit = .resched ∧ (k.envs c).envPgdir ≠ 0 ∧ ∃ vm, k' = { k.freed c c with vm := vm }) ∨
    exit = .run ∧ ∃ sp vm, k' = { k with vm := vm }.setEnv c { k.envs c with
      envTf := { (k.envs c).envTf with
        sp := sp, sepc := (k.envs c).envPgfaultUpcall, origA0 := 0 } } := by
  unfold Kern.pageFaultHandler at hhandler
  dsimp only at hhandler
  split at hhandler
  · obtain ⟨⟨gone, mid⟩, hdestroy, hrest⟩ := bind_eq_ok.mp hhandler
    cases pure_eq_ok.mp hrest
    exact .inl ⟨rfl, (envDestroy_self hcur hdestroy).2⟩
  · obtain ⟨⟨gone, mid⟩, hassert, hrest⟩ := bind_eq_ok.mp hhandler
    obtain ⟨rfl, rfl⟩ | ⟨rfl, hfreed⟩ := userMemAssert_self hcur hassert
    · obtain ⟨⟨sp, vm⟩, hpush, hrest⟩ := bind_eq_ok.mp hrest
      obtain ⟨⟨gone, last⟩, hassert, hrest⟩ := bind_eq_ok.mp hrest
      obtain ⟨rfl, rfl⟩ | ⟨rfl, hpgdir, vm', rfl⟩ :=
        userMemAssert_self (k := { mid with vm := vm }) hcur hassert
      · cases pure_eq_ok.mp hrest
        exact .inr ⟨rfl, sp, vm, rfl⟩
      · cases pure_eq_ok.mp hrest
        exact .inl ⟨rfl, hpgdir, vm', rfl⟩
    · cases pure_eq_ok.mp hrest
      exact .inl ⟨rfl, hfreed⟩

theorem trap_cases {cpu : Nat} {dev : Int} (hcur : k.curenv = some c)
    (htrap : k.trap cpu dev tf = .ok k') :
    ((k.envs c).envStatus = .dying ∧
      ∃ mid, k.envFree c = .ok mid ∧ { mid with curenv := none }.schedYield cpu = .ok k') ∨
    (k.envs c).envStatus ≠ .dying ∧ ∃ exit mid,
      (k.setEnv c { k.envs c with envTf := tf }).trapDispatch dev c = .ok (exit, mid) ∧
      (mid.schedYield cpu = .ok k' ∨ ∃ e, k' = mid.envRun cpu e ∧
        (exit = .run ∧ e = c ∨ mid.curenv = some e ∧ (mid.envs e).envStatus = .running)) := by
  have hrest := (cur_bind_eq_ok hcur).mp htrap
  dsimp only at hrest
  split at hrest
  · next hdying =>
      obtain ⟨mid, hfree, hyield⟩ := bind_eq_ok.mp hrest
      exact .inl ⟨hdying, mid, hfree, hyield⟩
  · next halive =>
      obtain ⟨⟨exit, mid⟩, hdispatch, hrest⟩ := bind_eq_ok.mp hrest
      refine .inr ⟨halive, exit, mid, hdispatch, ?_⟩
      cases exit with
      | run => exact .inr ⟨c, (pure_eq_ok.mp hrest).symm, .inl ⟨rfl, rfl⟩⟩
      | resched => exact .inl hrest
      | back =>
          dsimp only at hrest
          split at hrest
          · exact .inl hrest
          · next e hmid =>
              split at hrest
              · next hrunning => exact .inr ⟨e, (pure_eq_ok.mp hrest).symm, .inr ⟨hmid, hrunning⟩⟩
              · exact .inl hrest

end Kern

end ZynexOS
