import ZynexOS.Kern.Proof.PmapLemmas
import ZynexOS.Kern.Proof.Entries

/-!
# `sys_page_map` and the access it grants

A bit of `perm` from 10 on becomes part of the physical page number.
-/

namespace ZynexOS

open Library

/-- `dstPte` grants no more than `srcPte`: the same physical page, flags a system call may set, and
write access only if the source had it. -/
structure Narrows (srcPte dstPte : Word) : Prop where
  phys : ptePhy dstPte = ptePhy srcPte
  flags : flagBits dstPte &&& ~~~pteSyscall = 0
  write : dstPte &&& pteW ≠ 0 → srcPte &&& pteW ≠ 0

theorem narrows_newEntry_iff {srcPte : Word} {perm : BitVec 32} (hperm : permOk perm)
    (hwidens : widens perm srcPte = false) :
    Narrows srcPte (Vm.newEntry (pgnum (ptePhy srcPte)) perm) ↔ InRam (ptePhy srcPte) := by
  have hpp := pgnum_lt (ptePhy srcPte)
  constructor
  · intro hnarrows
    have hphys := hnarrows.phys
    rw [ptePhy_newEntry hpp hperm] at hphys
    exact page2pa_pgnum_ptePhy.mp hphys
  · intro hram
    refine ⟨?_, ?_, ?_⟩
    · rw [ptePhy_newEntry hpp hperm, page2pa_pgnum_ptePhy.mpr hram]
    · rw [flagBits_newEntry hpp hperm]
      exact entryFlags_and_pteSyscall hperm
    · intro hwrite hnone
      have hasked := newEntry_and_pteW hperm hwrite
      simp only [widens, hnone, and_true, ne_eq, decide_eq_false_iff_not, not_not] at hwidens
      exact hasked hwidens

namespace Kern

/-- The request gets past the checks of `sys_page_map`: `srcva` maps the entry `srcPte`, and the page
goes into the address space of `dst`. -/
structure Requests (k : Kern) (srcenvid : BitVec 32) (srcva : Word) (dstenvid : BitVec 32)
    (dstva : Word) (perm : BitVec 32) (dst : Nat) (srcPte : Word) : Prop where
  dest : k.envid2env dstenvid true = .ok (some dst)
  srcvaOk : vaOk srcva = true
  dstvaOk : vaOk dstva = true
  source : ∃ src slot, k.envid2env srcenvid true = .ok (some src) ∧
    k.vm.pageLookup (k.envs src).envPgdir srcva = .ok (some (pgnum (ptePhy srcPte), slot)) ∧
    k.vm.load slot = .ok srcPte
  access : widens perm srcPte = false

/-- The environments exist, but the addresses, the source mapping or the write permission do not
allow the request. -/
def Refuses (k : Kern) (srcenvid : BitVec 32) (srcva : Word) (dstenvid : BitVec 32) (dstva : Word)
    (perm : BitVec 32) : Prop :=
  ∃ src dst, k.envid2env srcenvid true = .ok (some src) ∧ k.envid2env dstenvid true = .ok (some dst) ∧
    (vaOk srcva = false ∨ vaOk dstva = false ∨
      k.vm.pageLookup (k.envs src).envPgdir srcva = .ok none ∨
      ∃ pp slot srcPte, k.vm.pageLookup (k.envs src).envPgdir srcva = .ok (some (pp, slot)) ∧
        k.vm.load slot = .ok srcPte ∧ widens perm srcPte = true)

variable {k k' : Kern} {srcenvid dstenvid : BitVec 32} {srcva dstva : Word} {perm : BitVec 32}

theorem sysPageMap_cases {ret : Int}
    (hcall : k.sysPageMap srcenvid srcva dstenvid dstva perm = .ok (ret, k')) :
    (ret = -eBadEnv ∧ k' = k) ∨
    (ret = -eInval ∧ k' = k ∧ k.Refuses srcenvid srcva dstenvid dstva perm) ∨
    ∃ dst srcPte vm', k.Requests srcenvid srcva dstenvid dstva perm dst srcPte ∧
      k.vm.pageInsert (k.envs dst).envPgdir (some (pgnum (ptePhy srcPte))) dstva perm
        = .ok (ret, vm') ∧ k' = { k with vm := vm' } := by
  obtain ⟨found, hsrc, hrest⟩ := bind_eq_ok.mp hcall
  cases found with
  | none =>
      cases pure_eq_ok.mp hrest
      exact .inl ⟨rfl, rfl⟩
  | some src =>
      obtain ⟨found, hdst, hrest⟩ := bind_eq_ok.mp hrest
      cases found with
      | none =>
          cases pure_eq_ok.mp hrest
          exact .inl ⟨rfl, rfl⟩
      | some dst =>
          dsimp only at hrest
          by_cases hsrcva : vaOk srcva
          · by_cases hdstva : vaOk dstva
            · rw [if_neg (not_not.mpr hsrcva), if_neg (not_not.mpr hdstva)] at hrest
              obtain ⟨found, hlookup, hrest⟩ := bind_eq_ok.mp hrest
              cases found with
              | none =>
                  cases pure_eq_ok.mp hrest
                  exact .inr (.inl ⟨rfl, rfl, src, dst, hsrc, hdst,
                    .inr (.inr (.inl hlookup))⟩)
              | some found =>
                  obtain ⟨pp, slot⟩ := found
                  obtain ⟨srcPte, hload, hrest⟩ := bind_eq_ok.mp hrest
                  cases hwidens : widens perm srcPte with
                  | true =>
                      simp only [hwidens, if_true, pure_eq_ok, Prod.mk.injEq] at hrest
                      exact .inr (.inl ⟨hrest.1.symm, hrest.2.symm, src, dst, hsrc, hdst,
                        .inr (.inr (.inr ⟨pp, slot, srcPte, hlookup, hload, hwidens⟩))⟩)
                  | false =>
                      simp only [hwidens, Bool.false_eq_true, if_false] at hrest
                      obtain ⟨⟨code, vm'⟩, hinsert, hrest⟩ := bind_eq_ok.mp hrest
                      cases pure_eq_ok.mp hrest
                      obtain ⟨-, pte, hpte, -, -, rfl⟩ := Vm.pageLookup_eq_some.mp hlookup
                      obtain rfl : pte = srcPte := Except.ok.inj (hpte.symm.trans hload)
                      exact .inr (.inr ⟨dst, pte, vm', ⟨hdst, hsrcva, hdstva,
                        ⟨src, slot, hsrc, hlookup, hload⟩, hwidens⟩, hinsert, rfl⟩)
            · rw [if_neg (not_not.mpr hsrcva), if_pos hdstva, pure_eq_ok, Prod.mk.injEq] at hrest
              exact .inr (.inl ⟨hrest.1.symm, hrest.2.symm, src, dst, hsrc, hdst,
                .inr (.inl (by simpa using hdstva))⟩)
          · rw [if_pos hsrcva, pure_eq_ok, Prod.mk.injEq] at hrest
            exact .inr (.inl ⟨hrest.1.symm, hrest.2.symm, src, dst, hsrc, hdst,
              .inl (by simpa using hsrcva)⟩)

theorem sysPageMap_of_requests {dst : Nat} {srcPte : Word} {ret : Int} {vm' : Vm}
    (hrequest : k.Requests srcenvid srcva dstenvid dstva perm dst srcPte)
    (hinsert : k.vm.pageInsert (k.envs dst).envPgdir (some (pgnum (ptePhy srcPte))) dstva perm
      = .ok (ret, vm')) :
    k.sysPageMap srcenvid srcva dstenvid dstva perm = .ok (ret, { k with vm := vm' }) := by
  obtain ⟨src, slot, hsrc, hlookup, hload⟩ := hrequest.source
  simp [sysPageMap, hsrc, hrequest.dest, hrequest.srcvaOk, hrequest.dstvaOk, hlookup, hload,
    hrequest.access, hinsert, pure, Except.pure]

theorem sysPageMap_of_refuses (hrefuses : k.Refuses srcenvid srcva dstenvid dstva perm) :
    k.sysPageMap srcenvid srcva dstenvid dstva perm = .ok (-eInval, k) := by
  obtain ⟨src, dst, hsrc, hdst, hreason⟩ := hrefuses
  simp only [sysPageMap, hsrc, hdst, ok_bind]
  by_cases hsrcva : vaOk srcva
  · by_cases hdstva : vaOk dstva
    · rw [if_neg (not_not.mpr hsrcva), if_neg (not_not.mpr hdstva)]
      obtain hbad | hbad | hnone | ⟨pp, slot, srcPte, hlookup, hload, hwidens⟩ := hreason
      · simp [hsrcva] at hbad
      · simp [hdstva] at hbad
      · rw [hnone]
        rfl
      · simp only [hlookup, hload, hwidens, ok_bind, if_true]
        rfl
    · rw [if_neg (not_not.mpr hsrcva), if_pos hdstva]
      rfl
  · rw [if_pos hsrcva]
    rfl

def MapsAs (k : Kern) (envid : BitVec 32) (va pte : Word) : Prop :=
  ∃ e slot, k.envid2env envid true = .ok (some e) ∧
    k.vm.pgdirWalkThrough (k.envs e).envPgdir va = .ok (some slot) ∧ k.vm.mem slot = some pte

def Installs (k : Kern) (envid : BitVec 32) (va : Word) (k' : Kern) (pte : Word) : Prop :=
  ∃ e slot mid, k.envid2env envid true = .ok (some e) ∧
    k.vm.pgdirWalk (k.envs e).envPgdir va true = .ok (some slot, mid) ∧ k'.vm.mem slot = some pte

def MapNarrows (k : Kern) (srcenvid : BitVec 32) (srcva : Word) (dstenvid : BitVec 32)
    (dstva : Word) (perm : BitVec 32) : Prop :=
  (∀ k', k.sysPageMap srcenvid srcva dstenvid dstva perm = .ok (0, k') →
    ∃ srcPte dstPte, k.MapsAs srcenvid srcva srcPte ∧ k.Installs dstenvid dstva k' dstPte ∧
      Narrows srcPte dstPte) ∧
  (permOk perm = false → k.sysPageMap srcenvid srcva dstenvid dstva perm = .ok (-eInval, k))

theorem Requests.mapsAs {dst : Nat} {srcPte : Word}
    (hrequest : k.Requests srcenvid srcva dstenvid dstva perm dst srcPte) :
    k.MapsAs srcenvid srcva srcPte := by
  obtain ⟨src, slot, hsrc, hlookup, hload⟩ := hrequest.source
  exact ⟨src, slot, hsrc, (Vm.pageLookup_eq_some.mp hlookup).1, Vm.load_eq_ok.mp hload⟩

theorem MapsAs.unique {envid : BitVec 32} {va pte pte' : Word} (hmaps : k.MapsAs envid va pte)
    (hmaps' : k.MapsAs envid va pte') : pte = pte' := by
  obtain ⟨e, slot, henv, hwalk, hmem⟩ := hmaps
  obtain ⟨e', slot', henv', hwalk', hmem'⟩ := hmaps'
  rw [henv] at henv'
  cases henv'
  rw [hwalk] at hwalk'
  cases hwalk'
  rw [hmem] at hmem'
  exact Option.some.inj hmem'

theorem Installs.unique {envid : BitVec 32} {va pte pte' : Word}
    (hinstalls : k.Installs envid va k' pte) (hinstalls' : k.Installs envid va k' pte') :
    pte = pte' := by
  obtain ⟨e, slot, mid, henv, hwalk, hmem⟩ := hinstalls
  obtain ⟨e', slot', mid', henv', hwalk', hmem'⟩ := hinstalls'
  rw [henv] at henv'
  cases henv'
  rw [hwalk] at hwalk'
  cases hwalk'
  rw [hmem] at hmem'
  exact Option.some.inj hmem'

theorem Requests.installs {dst : Nat} {srcPte : Word} {vm' : Vm}
    (hrequest : k.Requests srcenvid srcva dstenvid dstva perm dst srcPte)
    (hinsert : k.vm.pageInsert (k.envs dst).envPgdir (some (pgnum (ptePhy srcPte))) dstva perm
      = .ok (0, vm')) :
    k.Installs dstenvid dstva { k with vm := vm' } (Vm.newEntry (pgnum (ptePhy srcPte)) perm) := by
  obtain ⟨slot, mid, hwalk, hmem⟩ := Vm.pageInsert_eq_zero hinsert
  exact ⟨dst, slot, mid, hrequest.dest, hwalk, hmem⟩

/-- `sys_page_map` narrows access exactly when `perm` has no bit outside `PTE_SYSCALL` and the page
it maps, if it maps one, is one of the pages `page2pa` covers; a `perm` with another bit is harmless
only where the call is refused for a different reason. -/
theorem mapNarrows_iff (k : Kern) (srcenvid : BitVec 32) (srcva : Word) (dstenvid : BitVec 32)
    (dstva : Word) (perm : BitVec 32) :
    k.MapNarrows srcenvid srcva dstenvid dstva perm ↔
      (permOk perm = true ∧ ∀ dst srcPte,
        k.Requests srcenvid srcva dstenvid dstva perm dst srcPte →
        (∃ vm', k.vm.pageInsert (k.envs dst).envPgdir (some (pgnum (ptePhy srcPte))) dstva perm
          = .ok (0, vm')) → InRam (ptePhy srcPte)) ∨
      (permOk perm = false ∧ k.Refuses srcenvid srcva dstenvid dstva perm) := by
  constructor
  · rintro ⟨hnarrows, hinval⟩
    cases hperm : permOk perm with
    | true =>
        refine .inl ⟨rfl, ?_⟩
        rintro dst srcPte hrequest ⟨vm', hinsert⟩
        obtain ⟨srcPte', dstPte, hsrc, hdst, hnarrow⟩ :=
          hnarrows _ (sysPageMap_of_requests hrequest hinsert)
        obtain rfl := hsrc.unique hrequest.mapsAs
        obtain rfl := hdst.unique (hrequest.installs hinsert)
        exact (narrows_newEntry_iff hperm hrequest.access).mp hnarrow
    | false =>
        refine .inr ⟨rfl, ?_⟩
        obtain ⟨hret, -⟩ | ⟨-, -, hrefuses⟩ | ⟨dst, srcPte, vm', -, hinsert, -⟩ :=
          sysPageMap_cases (hinval hperm)
        · simp [eInval, eBadEnv] at hret
        · exact hrefuses
        · obtain hret | hret := Vm.pageInsert_ret hinsert <;> simp [eInval, eNoMem] at hret
  · rintro (⟨hperm, hram⟩ | ⟨hperm, hrefuses⟩)
    · refine ⟨?_, fun hbad => absurd (hperm.symm.trans hbad) (by decide)⟩
      intro k' hcall
      obtain ⟨hret, -⟩ | ⟨hret, -⟩ | ⟨dst, srcPte, vm', hrequest, hinsert, rfl⟩ :=
        sysPageMap_cases hcall
      · simp [eBadEnv] at hret
      · simp [eInval] at hret
      · refine ⟨srcPte, _, hrequest.mapsAs, hrequest.installs hinsert, ?_⟩
        exact (narrows_newEntry_iff hperm hrequest.access).mpr (hram dst srcPte hrequest ⟨vm', hinsert⟩)
    · have hcall := sysPageMap_of_refuses hrefuses
      refine ⟨fun k' hzero => ?_, fun _ => hcall⟩
      rw [hcall] at hzero
      simp [eInval] at hzero

def oneMapping (flags : Word) : Kern where
  vm := Vm.ofEntries
    [(entryAddr (pageKva 1) 0, pdeEntry (page2pa 2) ||| pteV),
     (entryAddr (pageKva 2) 0, pdeEntry (page2pa 3) ||| pteV),
     (entryAddr (pageKva 3) 0, pdeEntry (page2pa 4) ||| pteV),
     (entryAddr (pageKva 4) 1, pteEntry (page2pa 8) ||| flags)]
  kernPgdir := pageKva 0
  envsAddr := uenvs
  envs := fun e =>
    if e = 0 then { envId := 4096, envStatus := .running, envPgdir := pageKva 1 } else {}
  envFreeList := some 1
  curenv := some 0
  sstatus := 0

/-- With bit 10 of `perm` set, the environment maps page 9, which it was never given. -/
theorem sysPageMap_grants_other_page :
    (((oneMapping 0x17).sysPageMap 0 0x1000 0 0x2000 0x407).toOption.map fun result =>
      (result.1, result.2.vm.mem (entryAddr (pageKva 4) 2))) =
        some (0, some (pteEntry (page2pa 9) ||| 0x7)) ∧
    ¬(oneMapping 0x17).MapNarrows 0 0x1000 0 0x2000 0x407 := by
  have hresult : (((oneMapping 0x17).sysPageMap 0 0x1000 0 0x2000 0x407).toOption.map fun result =>
      (result.1, result.2.vm.mem (entryAddr (pageKva 4) 2))) =
        some (0, some (pteEntry (page2pa 9) ||| 0x7)) := by
    decide +kernel
  refine ⟨hresult, ?_⟩
  intro hnarrows
  rw [hnarrows.2 (by decide)] at hresult
  simp [Except.toOption, eInval] at hresult

end Kern

end ZynexOS
