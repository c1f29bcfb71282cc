import ZynexOS.Library.Outcome
import ZynexOS.Kern.Proof.LayoutLemmas

/-!
# What a successful step of `pmap.c` says

One lemma per function, in every state, well formed or not.
-/

namespace ZynexOS

open Library

namespace Vm

variable {vm vm' : Vm}
variable {addr word pgdir va : Word} {pp : Nat} {perm : BitVec 32}

theorem load_eq_ok : vm.load addr = .ok word ↔ vm.mem addr = some word := by
  unfold load
  cases hmem : vm.mem addr <;> simp

theorem store_eq_ok :
    vm.store addr word = .ok vm' ↔
      (vm.mem addr).isSome ∧ vm' = { vm with mem := Function.update vm.mem addr (some word) } := by
  unfold store
  cases hmem : vm.mem addr <;> simp [eq_comm]

theorem mem_store_self (hstore : vm.store addr word = .ok vm') :
    vm'.mem addr = some word := by
  rw [store_eq_ok] at hstore
  rw [hstore.2]
  exact Function.update_self addr (some word) vm.mem

theorem kaddr_eq_ok {pa kva : Word} :
    vm.kaddr pa = .ok kva ↔ pgnum pa < vm.npages ∧ kva = pa + kernbase := by
  unfold kaddr
  by_cases hbound : vm.npages ≤ pgnum pa
  · simp [hbound, Nat.not_lt.mpr hbound]
  · simp [hbound, Nat.lt_of_not_le hbound, eq_comm]

theorem pa2page_eq_ok {pa : Word} :
    vm.pa2page pa = .ok pp ↔ pgnum pa < vm.npages ∧ pp = pgnum pa := by
  unfold pa2page
  by_cases hbound : vm.npages ≤ pgnum pa
  · simp [hbound, Nat.not_lt.mpr hbound]
  · simp [hbound, Nat.lt_of_not_le hbound, eq_comm]

theorem pageLookup_eq_some {slot : Word} :
    vm.pageLookup pgdir va = .ok (some (pp, slot)) ↔
      vm.pgdirWalkThrough pgdir va = .ok (some slot) ∧
        ∃ pte, vm.load slot = .ok pte ∧ pte ≠ 0 ∧ pgnum (ptePhy pte) < vm.npages ∧
          pp = pgnum (ptePhy pte) := by
  unfold pageLookup
  constructor
  · intro hlookup
    obtain ⟨found, hwalk, hrest⟩ := bind_eq_ok.mp hlookup
    cases found with
    | none => simp [pure_eq_ok] at hrest
    | some entrySlot =>
        obtain ⟨pte, hload, hrest⟩ := bind_eq_ok.mp hrest
        by_cases hzero : pte = 0
        · simp [hzero, pure_eq_ok] at hrest
        · rw [if_neg hzero] at hrest
          obtain ⟨page, hpage, hresult⟩ := bind_eq_ok.mp hrest
          simp only [pure_eq_ok, Option.some.injEq, Prod.mk.injEq] at hresult
          obtain ⟨rfl, rfl⟩ := hresult
          obtain ⟨hbound, hpp⟩ := pa2page_eq_ok.mp hpage
          exact ⟨hwalk, pte, hload, hzero, hbound, hpp⟩
  · rintro ⟨hwalk, pte, hload, hzero, hbound, rfl⟩
    have hpage : vm.pa2page (ptePhy pte) = .ok (pgnum (ptePhy pte)) :=
      pa2page_eq_ok.mpr ⟨hbound, rfl⟩
    simp only [hwalk, ok_bind, hload, hpage, if_neg hzero]
    rfl

theorem mem_takeHead (pp : Nat) : (vm.takeHead pp).mem = vm.mem := by
  unfold takeHead
  split_ifs <;> rfl

theorem mem_writeEntry {slot : Word} (hwrite : vm.writeEntry pgdir va slot pp perm = .ok vm') :
    vm'.mem slot = some (newEntry pp perm) := by
  obtain ⟨pte, hload, hrest⟩ := bind_eq_ok.mp hwrite
  split_ifs at hrest with hzero hother
  · exact mem_store_self hrest
  · obtain ⟨removed, hremoved, hstore⟩ := bind_eq_ok.mp hrest
    exact mem_store_self hstore
  · exact mem_store_self hrest

theorem pageInsert_ret {pp : Option Nat} {ret : Int}
    (hinsert : vm.pageInsert pgdir pp va perm = .ok (ret, vm')) : ret = 0 ∨ ret = -eNoMem := by
  obtain ⟨⟨found, mid⟩, hwalk, hrest⟩ := bind_eq_ok.mp hinsert
  cases found with
  | none =>
      cases pure_eq_ok.mp hrest
      exact .inr rfl
  | some slot =>
      cases pp with
      | none => exact absurd hrest throw_ne_ok
      | some pp =>
          obtain ⟨last, hwrite, hresult⟩ := bind_eq_ok.mp hrest
          cases pure_eq_ok.mp hresult
          exact .inl rfl

theorem pageInsert_eq_zero (hinsert : vm.pageInsert pgdir (some pp) va perm = .ok (0, vm')) :
    ∃ slot mid, vm.pgdirWalk pgdir va true = .ok (some slot, mid) ∧
      vm'.mem slot = some (newEntry pp perm) := by
  obtain ⟨⟨found, mid⟩, hwalk, hrest⟩ := bind_eq_ok.mp hinsert
  cases found with
  | none => simp [pure_eq_ok, eNoMem] at hrest
  | some slot =>
      obtain ⟨last, hwrite, hresult⟩ := bind_eq_ok.mp hrest
      simp only [pure_eq_ok, Prod.mk.injEq, true_and] at hresult
      refine ⟨slot, mid, hwalk, ?_⟩
      rw [← hresult, mem_takeHead, mem_writeEntry hwrite]

def ofEntries (words : List (Word × Word)) : Vm where
  npages := 64
  mem := fun addr =>
    match words.lookup addr with
    | some word => some word
    | none => if pageKva 0 ≤ addr ∧ addr < pageKva 64 then some 0 else none
  pages := fun _ => ⟨none, 1⟩
  pageFreeList := none

end Vm

end ZynexOS
