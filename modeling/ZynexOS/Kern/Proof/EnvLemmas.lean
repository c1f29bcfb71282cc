import ZynexOS.Kern.Trap
import ZynexOS.Kern.Proof.PageMap

/-! # What the kernel's functions do to `envs[]` -/

namespace ZynexOS

open Library

namespace Kern

variable {k k' : Kern}
variable {e : Nat} {envid perm : BitVec 32} {va srcva : Word} {ret : Int}

@[simp] theorem setEnv_vm (k : Kern) (e : Nat) (env : Env) : (k.setEnv e env).vm = k.vm := rfl
@[simp] theorem setEnv_curenv (k : Kern) (e : Nat) (env : Env) :
    (k.setEnv e env).curenv = k.curenv := rfl
@[simp] theorem setEnv_sstatus (k : Kern) (e : Nat) (env : Env) :
    (k.setEnv e env).sstatus = k.sstatus := rfl
@[simp] theorem setEnv_envs_self (k : Kern) (e : Nat) (env : Env) :
    (k.setEnv e env).envs e = env := by
  simp [setEnv]

theorem setEnv_envs_of_ne (k : Kern) {e' : Nat} (env : Env) (hne : e' ≠ e) :
    (k.setEnv e env).envs e' = k.envs e' := by
  simp [setEnv, hne]

theorem cur_eq_ok {c : Nat} : k.cur = .ok c ↔ k.curenv = some c := by
  unfold cur
  cases hcur : k.curenv <;> simp

theorem cur_bind_eq_ok {α : Type} {c : Nat} {f : Nat → Except Panic α} {x : α}
    (hcur : k.curenv = some c) : k.cur >>= f = .ok x ↔ f c = .ok x := by
  rw [cur_eq_ok.mpr hcur, ok_bind]

theorem envid2env_live {checkperm : Bool} (hfound : k.envid2env envid checkperm = .ok (some e)) :
    (k.envs e).envStatus ≠ .free ∨ k.curenv = some e := by
  unfold envid2env at hfound
  split at hfound
  · obtain ⟨c, hcur, hrest⟩ := bind_eq_ok.mp hfound
    cases pure_eq_ok.mp hrest
    exact .inr (cur_eq_ok.mp hcur)
  · dsimp only at hfound
    split at hfound
    · cases hfound
    · next hlive =>
        have hlive' := (not_or.mp hlive).1
        split at hfound
        · obtain ⟨c, -, hrest⟩ := bind_eq_ok.mp hfound
          split at hrest
          · cases hrest
          · cases pure_eq_ok.mp hrest
            exact .inl hlive'
        · cases hfound
          exact .inl hlive'

theorem sysPageAlloc_envs
    (hcall : k.sysPageAlloc envid va perm = .ok (ret, k')) : ∃ vm, k' = { k with vm := vm } := by
  obtain ⟨found, henv, hrest⟩ := bind_eq_ok.mp hcall
  cases found with
  | none =>
      cases pure_eq_ok.mp hrest
      exact ⟨k.vm, rfl⟩
  | some e =>
      dsimp only at hrest
      split at hrest
      · cases pure_eq_ok.mp hrest
        exact ⟨k.vm, rfl⟩
      · split at hrest
        · cases pure_eq_ok.mp hrest
          exact ⟨k.vm, rfl⟩
        · obtain ⟨⟨pp, vm⟩, halloc, hrest⟩ := bind_eq_ok.mp hrest
          obtain ⟨⟨code, vm'⟩, hinsert, hrest⟩ := bind_eq_ok.mp hrest
          dsimp only at hrest
          split at hrest
          · cases pp with
            | none => exact absurd hrest throw_ne_ok
            | some pp =>
                obtain ⟨vm'', hfree, hrest⟩ := bind_eq_ok.mp hrest
                cases pure_eq_ok.mp hrest
                exact ⟨vm'', rfl⟩
          · cases pure_eq_ok.mp hrest
            exact ⟨vm', rfl⟩

theorem sysPageMap_envs {srcenvid dstenvid : BitVec 32} {dstva : Word}
    (hcall : k.sysPageMap srcenvid srcva dstenvid dstva perm = .ok (ret, k')) :
    ∃ vm, k' = { k with vm := vm } := by
  obtain ⟨-, rfl⟩ | ⟨-, rfl, -⟩ | ⟨dst, srcPte, vm', -, -, rfl⟩ := sysPageMap_cases hcall
  · exact ⟨k'.vm, rfl⟩
  · exact ⟨k'.vm, rfl⟩
  · exact ⟨vm', rfl⟩

theorem sysPageUnmap_envs
    (hcall : k.sysPageUnmap envid va = .ok (ret, k')) : ∃ vm, k' = { k with vm := vm } := by
  obtain ⟨found, henv, hrest⟩ := bind_eq_ok.mp hcall
  cases found with
  | none =>
      cases pure_eq_ok.mp hrest
      exact ⟨k.vm, rfl⟩
  | some e =>
      dsimp only at hrest
      split at hrest
      · cases pure_eq_ok.mp hrest
        exact ⟨k.vm, rfl⟩
      · obtain ⟨vm, hremove, hrest⟩ := bind_eq_ok.mp hrest
        cases pure_eq_ok.mp hrest
        exact ⟨vm, rfl⟩

theorem sysPageClearDirty_envs {srcenv dstenv : BitVec 32} {dstva : Word}
    (hcall : k.sysPageClearDirty srcenv srcva dstenv dstva = .ok (ret, k')) :
    ∃ vm, k' = { k with vm := vm } := by
  unfold sysPageClearDirty at hcall
  split at hcall
  · exact absurd hcall throw_ne_ok
  · obtain ⟨c, hcur, hrest⟩ := bind_eq_ok.mp hcall
    obtain ⟨found, hwalk, hrest⟩ := bind_eq_ok.mp hrest
    cases found with
    | none => exact absurd hrest throw_ne_ok
    | some slot =>
        obtain ⟨pte, hload, hrest⟩ := bind_eq_ok.mp hrest
        exact sysPageMap_envs hrest

theorem copySharedLoop_envs {child : BitVec 32} {pgs : List Nat}
    (hcall : k.copySharedLoop child pgs = .ok (ret, k')) : ∃ vm, k' = { k with vm := vm } := by
  induction pgs generalizing k with
  | nil =>
      simp only [copySharedLoop, pure_eq_ok, Prod.mk.injEq] at hcall
      exact ⟨k.vm, hcall.2.symm⟩
  | cons i pgs ih =>
      obtain ⟨c, hcur, hrest⟩ := bind_eq_ok.mp hcall
      obtain ⟨found, hwalk, hrest⟩ := bind_eq_ok.mp hrest
      cases found with
      | none => exact ih hrest
      | some slot =>
          obtain ⟨pte, hload, hrest⟩ := bind_eq_ok.mp hrest
          dsimp only at hrest
          split at hrest
          · exact ih hrest
          · obtain ⟨⟨code, mid⟩, hmap, hrest⟩ := bind_eq_ok.mp hrest
            obtain ⟨vm, rfl⟩ := sysPageMap_envs hmap
            dsimp only at hrest
            split at hrest
            · cases pure_eq_ok.mp hrest
              exact ⟨vm, rfl⟩
            · obtain ⟨vm', rfl⟩ := ih hrest
              exact ⟨vm', rfl⟩

theorem envFree_eq (hfree : k.envFree e = .ok k') :
    ∃ vm, k' = { { k with vm := vm }.setEnv e { k.envs e with
      envPgdir := 0, envStatus := .free, envLink := k.envFreeList } with envFreeList := some e } := by
  obtain ⟨vm, huser, hrest⟩ := bind_eq_ok.mp hfree
  obtain ⟨pa, hpa, hrest⟩ := bind_eq_ok.mp hrest
  obtain ⟨vm', hdrop, hrest⟩ := bind_eq_ok.mp hrest
  exact ⟨vm', (pure_eq_ok.mp hrest).symm⟩

theorem pgdir_ne_zero_of_envFree (hfree : k.envFree e = .ok k') : (k.envs e).envPgdir ≠ 0 := by
  intro hzero
  obtain ⟨vm, huser, hrest⟩ := bind_eq_ok.mp hfree
  obtain ⟨pa, hpa, hrest⟩ := bind_eq_ok.mp hrest
  unfold Vm.paddr at hpa
  rw [hzero, if_pos (by decide)] at hpa
  cases hpa

theorem userMemAssert_cases {len : Word} {gone : Bool}
    (hassert : k.userMemAssert e va len perm = .ok (gone, k')) :
    (gone = false ∧ k' = k) ∨ k.envDestroy e = .ok (gone, k') := by
  obtain ⟨result, hcheck, hrest⟩ := bind_eq_ok.mp hassert
  cases result with
  | none =>
      cases pure_eq_ok.mp hrest
      exact .inl ⟨rfl, rfl⟩
  | some addr => exact .inr hrest

theorem envAlloc_eq {parentId : BitVec 32} {result : Nat ⊕ Int}
    (halloc : k.envAlloc parentId = .ok (result, k')) :
    (∃ code vm, result = .inr code ∧ k' = { k with vm := vm }) ∨
    ∃ e pgdir vm, result = .inl e ∧ k.envFreeList = some e ∧
      k.envSetupVm = .ok (some pgdir, vm) ∧
      k' = { { k with vm := vm }.setEnv e { k.envs e with
        envPgdir := pgdir
        envId := nextEnvId (k.envs e).envId e
        envParentId := parentId
        envType := .user
        envStatus := .runnable
        envRuns := 0
        envTf := { sp := ustacktop, status := k.sstatus ||| 0x20, tp := k.envAddr e }
        envPgfaultUpcall := 0
        envIpcRecving := false } with envFreeList := (k.envs e).envLink } := by
  unfold envAlloc at halloc
  split at halloc
  · simp only [Except.ok.injEq, Prod.mk.injEq] at halloc
    exact .inl ⟨-eNoFreeEnv, k.vm, halloc.1.symm, halloc.2.symm⟩
  · next e hlist =>
      obtain ⟨⟨found, vm⟩, hsetup, hrest⟩ := bind_eq_ok.mp halloc
      cases found with
      | none =>
          cases pure_eq_ok.mp hrest
          exact .inl ⟨-eNoMem, vm, rfl, rfl⟩
      | some pgdir =>
          cases pure_eq_ok.mp hrest
          exact .inr ⟨e, pgdir, vm, rfl, hlist, hsetup, rfl⟩

theorem regionAllocLoop_eq {n : Nat}
    (hloop : k.regionAllocLoop e va n = .ok k') : ∃ vm, k' = { k with vm := vm } := by
  induction n generalizing k va with
  | zero =>
      rw [regionAllocLoop, Except.ok.injEq] at hloop
      exact ⟨k.vm, hloop.symm⟩
  | succ n ih =>
      obtain ⟨⟨found, vm⟩, halloc, hrest⟩ := bind_eq_ok.mp hloop
      cases found with
      | none => exact absurd hrest throw_ne_ok
      | some pp =>
          obtain ⟨⟨ret, vm'⟩, hinsert, hrest⟩ := bind_eq_ok.mp hrest
          dsimp only at hrest
          split at hrest
          · exact absurd hrest throw_ne_ok
          · obtain ⟨pde, hload, hrest⟩ := bind_eq_ok.mp hrest
            obtain ⟨vm'', hstore, hrest⟩ := bind_eq_ok.mp hrest
            obtain ⟨last, rfl⟩ := ih hrest
            exact ⟨last, rfl⟩

theorem loadSegment_eq {ph : Proghdr} (hload : loadSegment e k ph = .ok k') :
    ∃ vm, k' = { k with vm := vm } := by
  unfold loadSegment at hload
  split at hload
  · split at hload
    · exact absurd hload throw_ne_ok
    · exact regionAllocLoop_eq hload
  · exact ⟨k.vm, (pure_eq_ok.mp hload).symm⟩

theorem loadIcode_eq {image : Image} (hload : k.loadIcode e image = .ok k') :
    ∃ vm, k' = { k with vm := vm }.setEnv e { k.envs e with
      envTf := { (k.envs e).envTf with sepc := image.eEntry } } := by
  unfold loadIcode at hload
  split at hload
  · exact absurd hload throw_ne_ok
  · obtain ⟨mid, hsegments, hrest⟩ := bind_eq_ok.mp hload
    obtain ⟨vm, rfl⟩ : ∃ vm, mid = { k with vm := vm } := by
      refine foldlM_invariant (P := fun s => ∃ vm, s = { k with vm := vm }) ?_ ⟨k.vm, rfl⟩ hsegments
      rintro s ph s' - ⟨vm, rfl⟩ hstep
      obtain ⟨vm', rfl⟩ := loadSegment_eq hstep
      exact ⟨vm', rfl⟩
    obtain ⟨⟨pp, vm'⟩, halloc, hrest⟩ := bind_eq_ok.mp hrest
    obtain ⟨⟨ret, vm''⟩, hinsert, hrest⟩ := bind_eq_ok.mp hrest
    exact ⟨vm'', (pure_eq_ok.mp hrest).symm⟩

theorem envCreate_eq {image : Image} {type : EnvType} (hcreate : k.envCreate image type = .ok k') :
    ∃ e pgdir vm, k.envFreeList = some e ∧
      k' = { { k with vm := vm }.setEnv e { k.envs e with
        envPgdir := pgdir
        envId := nextEnvId (k.envs e).envId e
        envParentId := 0
        envType := type
        envStatus := .runnable
        envRuns := 0
        envTf :=
          { sepc := image.eEntry, sp := ustacktop, status := k.sstatus ||| 0x20, tp := k.envAddr e }
        envPgfaultUpcall := 0
        envIpcRecving := false } with envFreeList := (k.envs e).envLink } := by
  obtain ⟨⟨result, mid⟩, halloc, hrest⟩ := bind_eq_ok.mp hcreate
  obtain ⟨code, vm, rfl, -⟩ | ⟨e, pgdir, vm, rfl, hlist, -, rfl⟩ := envAlloc_eq halloc
  · exact absurd hrest throw_ne_ok
  · obtain ⟨last, hload, hrest⟩ := bind_eq_ok.mp hrest
    obtain ⟨vm', rfl⟩ := loadIcode_eq hload
    dsimp only at hrest
    split at hrest
    · obtain ⟨vm'', hcopy, hrest⟩ := bind_eq_ok.mp hrest
      refine ⟨e, pgdir, vm'', hlist, ?_⟩
      rw [← pure_eq_ok.mp hrest]
      simp [setEnv]
    · refine ⟨e, pgdir, vm', hlist, ?_⟩
      rw [← pure_eq_ok.mp hrest]
      simp [setEnv]

structure SendsPage (k : Kern) (c e : Nat) (srcva : Word) (perm : BitVec 32) (pp : Nat) (vm : Vm) :
    Prop where
  aligned : srcva.toNat % pgSize = 0
  checked : permOk perm = true
  source : ∃ slot pte, k.vm.pageLookup (k.envs c).envPgdir srcva = .ok (some (pp, slot)) ∧
    k.vm.load slot = .ok pte ∧ widens perm pte = false
  insert : k.vm.pageInsert (k.envs e).envPgdir (some pp) (k.envs e).envIpcDstva perm = .ok (0, vm)

theorem ipcSendPage_cases {c : Nat} {vm : Vm}
    (hsend : k.ipcSendPage c e srcva perm = .ok (ret, vm)) :
    ret < 0 ∨ ret = 0 ∧ ∃ pp, k.SendsPage c e srcva perm pp vm := by
  unfold ipcSendPage at hsend
  split at hsend
  · cases pure_eq_ok.mp hsend
    exact .inl (by decide)
  · next haligned =>
      split at hsend
      · cases pure_eq_ok.mp hsend
        exact .inl (by decide)
      · next hperm =>
          obtain ⟨found, hlookup, hrest⟩ := bind_eq_ok.mp hsend
          cases found with
          | none =>
              cases pure_eq_ok.mp hrest
              exact .inl (by decide)
          | some found =>
              obtain ⟨pp, slot⟩ := found
              obtain ⟨pte, hload, hrest⟩ := bind_eq_ok.mp hrest
              split at hrest
              · cases pure_eq_ok.mp hrest
                exact .inl (by decide)
              · next hwidens =>
                  obtain ⟨⟨code, vm'⟩, hinsert, hrest⟩ := bind_eq_ok.mp hrest
                  dsimp only at hrest
                  split at hrest
                  · cases pure_eq_ok.mp hrest
                    exact .inl (by decide)
                  · next hcode =>
                      cases pure_eq_ok.mp hrest
                      obtain rfl | rfl := Vm.pageInsert_ret hinsert
                      · exact .inr ⟨rfl, pp, not_not.mp haligned, not_not.mp hperm,
                          ⟨slot, pte, hlookup, hload, Bool.eq_false_iff.mpr hwidens⟩, hinsert⟩
                      · exact absurd (by decide) hcode

theorem sysIpcTrySend_cases {value : Word}
    (hcall : k.sysIpcTrySend envid value srcva perm = .ok (ret, k')) :
    (ret < 0 ∧ ∃ vm, k' = { k with vm := vm }) ∨
    ∃ e c, ret = 0 ∧ k.envid2env envid false = .ok (some e) ∧ (k.envs e).envIpcRecving = true ∧
      k.curenv = some c ∧
      ((¬srcva < utop ∧ k' = k.setEnv e (ipcDeliver (k.envs e) (k.envs c).envId value 0)) ∨
        (srcva < utop ∧ ∃ pp vm, k.SendsPage c e srcva perm pp vm ∧
          k' = { k with vm := vm }.setEnv e
            (ipcDeliver (k.envs e) (k.envs c).envId value perm))) := by
  obtain ⟨found, henv, hrest⟩ := bind_eq_ok.mp hcall
  cases found with
  | none =>
      cases pure_eq_ok.mp hrest
      exact .inl ⟨by decide, k.vm, rfl⟩
  | some e =>
      dsimp only at hrest
      split at hrest
      · cases pure_eq_ok.mp hrest
        exact .inl ⟨by decide, k.vm, rfl⟩
      · next hrecving =>
          obtain ⟨c, hcur, hrest⟩ := bind_eq_ok.mp hrest
          split at hrest
          · next hbelow =>
              obtain ⟨⟨code, vm⟩, hsend, hrest⟩ := bind_eq_ok.mp hrest
              dsimp only at hrest
              obtain hcode | ⟨rfl, pp, hpage⟩ := ipcSendPage_cases hsend
              · rw [if_pos hcode, pure_eq_ok, Prod.mk.injEq] at hrest
                exact .inl ⟨hrest.1 ▸ hcode, vm, hrest.2.symm⟩
              · rw [if_neg (by decide), pure_eq_ok, Prod.mk.injEq] at hrest
                exact .inr ⟨e, c, hrest.1.symm, henv, not_not.mp hrecving, cur_eq_ok.mp hcur,
                  .inr ⟨hbelow, pp, vm, hpage, hrest.2.symm⟩⟩
          · next habove =>
              cases pure_eq_ok.mp hrest
              exact .inr ⟨e, c, rfl, henv, not_not.mp hrecving, cur_eq_ok.mp hcur,
                .inl ⟨habove, rfl⟩⟩

end Kern

end ZynexOS
