import ZynexOS.Kern.Proof.PageMap

/-!
# `user_mem_check` against its specification

The code visits one address of each page, in the page table of `curenv`; one that is not mapped is
judged by the entry of an earlier one, and one common bit with `perm | PTE_V` is enough.
-/

namespace ZynexOS

open Library

namespace Vm

variable {n : Nat} {addr : Word} {result : Option Word}

def Grants (vm : Vm) (pgdir perm va : Word) : Prop :=
  ∃ slot pte, vm.pgdirWalkThrough pgdir va = .ok (some slot) ∧ vm.mem slot = some pte ∧
    pte &&& (perm ||| pteV) = perm ||| pteV

def visited (va : Word) (j : Nat) : Word :=
  if j = 0 then va else roundup va pgSize + BitVec.ofNat 64 (j * pgSize)

def Fails (vm : Vm) (pgdir perm va : Word) : Prop :=
  ∃ pp slot pte, vm.pageLookup pgdir va = .ok (some (pp, slot)) ∧ vm.load slot = .ok pte ∧
    pte &&& (perm ||| pteV) = 0

def Passes (vm : Vm) (pgdir perm va : Word) : Prop :=
  vm.pageLookup pgdir va = .ok none ∨
    ∃ pp slot pte, vm.pageLookup pgdir va = .ok (some (pp, slot)) ∧ vm.load slot = .ok pte ∧
      pte &&& (perm ||| pteV) ≠ 0

def Maps (vm : Vm) (pgdir va : Word) : Prop := ∃ found, vm.pageLookup pgdir va = .ok (some found)

theorem visited_succ (va : Word) (j : Nat) :
    visited va (j + 1) = roundup (visited va j) pgSize + BitVec.ofNat 64 pgSize := by
  unfold visited
  by_cases hj : j = 0
  · simp [hj]
  · have haligned : (roundup va pgSize + BitVec.ofNat 64 (j * pgSize)).toNat % 4096 = 0 := by
      have hmod := roundup_toNat_mod va
      rw [BitVec.toNat_add, BitVec.toNat_ofNat]
      rw [pgSize] at hmod ⊢
      omega
    rw [if_neg hj, if_neg (Nat.succ_ne_zero j), roundup_of_aligned haligned, BitVec.add_assoc,
      ← BitVec.ofNat_add, Nat.succ_mul]

variable {vm : Vm} {pgdir perm : Word}

theorem userMemCheckLoop_of_passes {slot pte : Word}
    (hslot : vm.load slot = .ok pte) (hpte : pte &&& (perm ||| pteV) ≠ 0)
    (hpasses : vm.Passes pgdir perm addr) :
    ∃ slot' pte', vm.load slot' = .ok pte' ∧ pte' &&& (perm ||| pteV) ≠ 0 ∧
      vm.userMemCheckLoop pgdir perm (n + 1) addr (some slot) =
        vm.userMemCheckLoop pgdir perm n (roundup addr pgSize + BitVec.ofNat 64 pgSize)
          (some slot') := by
  obtain hnone | ⟨pp, found, pte', hlookup, hload, hbit⟩ := hpasses
  · refine ⟨slot, pte, hslot, hpte, ?_⟩
    simp only [userMemCheckLoop, hnone, ok_bind, hslot, if_neg hpte]
  · refine ⟨found, pte', hload, hbit, ?_⟩
    simp only [userMemCheckLoop, hlookup, ok_bind, hload, if_neg hbit]

theorem userMemCheckLoop_of_fails {store : Option Word} (hfails : vm.Fails pgdir perm addr) :
    vm.userMemCheckLoop pgdir perm (n + 1) addr store = .ok (some addr) := by
  obtain ⟨pp, slot, pte, hlookup, hload, hbit⟩ := hfails
  simp only [userMemCheckLoop, hlookup, ok_bind, hload, if_pos hbit]
  rfl

theorem passes_or_fails_of_loop {store : Option Word}
    (hloop : vm.userMemCheckLoop pgdir perm (n + 1) addr store = .ok result) :
    vm.Passes pgdir perm addr ∨ vm.Fails pgdir perm addr := by
  obtain ⟨found, hlookup, hrest⟩ := bind_eq_ok.mp hloop
  cases found with
  | none => exact .inl (.inl hlookup)
  | some found =>
      obtain ⟨pp, slot⟩ := found
      obtain ⟨pte, hload, -⟩ := bind_eq_ok.mp hrest
      by_cases hbit : pte &&& (perm ||| pteV) = 0
      · exact .inr ⟨pp, slot, pte, hlookup, hload, hbit⟩
      · exact .inl (.inr ⟨pp, slot, pte, hlookup, hload, hbit⟩)

theorem not_passes_of_fails (hfails : vm.Fails pgdir perm addr) :
    ¬vm.Passes pgdir perm addr := by
  obtain ⟨pp, slot, pte, hlookup, hload, hbit⟩ := hfails
  rintro (hnone | ⟨pp', slot', pte', hlookup', hload', hbit'⟩)
  · rw [hlookup] at hnone
    cases hnone
  · rw [hlookup] at hlookup'
    cases hlookup'
    rw [hload] at hload'
    cases hload'
    exact hbit' hbit

theorem userMemCheckLoop_visited {va : Word} (j : Nat)
    {slot pte : Word} (hslot : vm.load slot = .ok pte) (hpte : pte &&& (perm ||| pteV) ≠ 0) :
    vm.userMemCheckLoop pgdir perm n (visited va j) (some slot) = .ok result ↔
      (result = none ∧ ∀ i < n, vm.Passes pgdir perm (visited va (j + i))) ∨
      ∃ i < n, result = some (visited va (j + i)) ∧ vm.Fails pgdir perm (visited va (j + i)) ∧
        ∀ i' < i, vm.Passes pgdir perm (visited va (j + i')) := by
  induction n generalizing j slot pte with
  | zero =>
      rw [userMemCheckLoop, pure_eq_ok]
      simp [eq_comm]
  | succ n ih =>
      have hshift : ∀ i, j + 1 + i = j + (i + 1) := fun i => by omega
      simp only [Nat.forall_lt_succ_left, Nat.exists_lt_succ_left, Nat.add_zero]
      by_cases hpasses : vm.Passes pgdir perm (visited va j)
      · -- the address passes: the rest of the loop decides
        have hfails : ¬vm.Fails pgdir perm (visited va j) := fun h => not_passes_of_fails h hpasses
        obtain ⟨slot', pte', hload, hbit, hloop⟩ :=
          userMemCheckLoop_of_passes (n := n) hslot hpte hpasses
        rw [hloop, ← visited_succ, ih (j + 1) hload hbit]
        simp only [hshift, hpasses, hfails, false_and, and_false, false_or, true_and]
      · constructor
        · intro hloop
          obtain h | hfails := passes_or_fails_of_loop hloop
          · exact absurd h hpasses
          · rw [userMemCheckLoop_of_fails hfails, Except.ok.injEq] at hloop
            exact .inr (.inl ⟨hloop.symm, hfails, fun i hi => absurd hi (Nat.not_lt_zero i)⟩)
        · rintro (⟨-, h, -⟩ | ⟨hresult, hfails, -⟩ | ⟨i, hi, -, -, h, -⟩)
          · exact absurd h hpasses
          · rw [userMemCheckLoop_of_fails hfails, hresult]
          · exact absurd h hpasses

def Accepts (vm : Vm) (pgdir perm va : Word) (n : Nat) : Prop :=
  ∀ j < n, vm.Passes pgdir perm (visited va j)

def Reports (vm : Vm) (pgdir perm va : Word) (n : Nat) (addr : Word) : Prop :=
  ∃ j < n, addr = visited va j ∧ vm.Fails pgdir perm (visited va j) ∧
    ∀ i < j, vm.Passes pgdir perm (visited va i)

theorem userMemCheckLoop_eq_ok {va : Word} :
    vm.userMemCheckLoop pgdir perm (n + 1) va none = .ok result ↔
      (vm.pageLookup pgdir va = .ok none ∧ result = some va) ∨
      (vm.Maps pgdir va ∧ ((result = none ∧ vm.Accepts pgdir perm va (n + 1)) ∨
        ∃ addr, result = some addr ∧ vm.Reports pgdir perm va (n + 1) addr)) := by
  cases hlookup : vm.pageLookup pgdir va with
  | error panic => simp [userMemCheckLoop, hlookup, Maps, Bind.bind, Except.bind]
  | ok found =>
      cases found with
      | none =>
          simp only [userMemCheckLoop, hlookup, ok_bind, pure_eq_ok, Maps]
          simp [eq_comm]
      | some found =>
          obtain ⟨pp, slot⟩ := found
          have hmaps : vm.Maps pgdir va := ⟨(pp, slot), hlookup⟩
          simp only [hmaps, true_and, Except.ok.injEq, reduceCtorEq, false_and, false_or]
          have hvisited : ∀ store, vm.userMemCheckLoop pgdir perm (n + 1) va store =
              vm.userMemCheckLoop pgdir perm (n + 1) (visited va 0) (some slot) := by
            intro store
            simp only [userMemCheckLoop, visited, if_true, hlookup, ok_bind]
          have hreports : (∃ addr, result = some addr ∧ vm.Reports pgdir perm va (n + 1) addr) ↔
              ∃ j < n + 1, result = some (visited va j) ∧ vm.Fails pgdir perm (visited va j) ∧
                ∀ i < j, vm.Passes pgdir perm (visited va i) := by
            constructor
            · rintro ⟨addr, rfl, j, hj, rfl, hrest⟩
              exact ⟨j, hj, rfl, hrest⟩
            · rintro ⟨j, hj, hresult, hrest⟩
              exact ⟨_, hresult, j, hj, rfl, hrest⟩
          obtain ⟨-, pte, hload, -⟩ := pageLookup_eq_some.mp hlookup
          rw [hvisited, hreports]
          by_cases hbit : pte &&& (perm ||| pteV) = 0
          · -- `va` fails, so the loop stops at once
            have hfails : vm.Fails pgdir perm (visited va 0) := ⟨pp, slot, pte, hlookup, hload, hbit⟩
            have hnot := not_passes_of_fails hfails
            rw [userMemCheckLoop_of_fails hfails, Except.ok.injEq]
            constructor
            · intro hresult
              exact .inr ⟨0, Nat.succ_pos n, hresult.symm, hfails,
                fun i hi => absurd hi (Nat.not_lt_zero i)⟩
            · rintro (⟨-, haccepts⟩ | ⟨j, -, hresult, -, hbefore⟩)
              · exact absurd (haccepts 0 (Nat.succ_pos n)) hnot
              · cases j with
                | zero => exact hresult.symm
                | succ j => exact absurd (hbefore 0 (Nat.succ_pos j)) hnot
          · rw [userMemCheckLoop_visited 0 hload hbit]
            simp only [Nat.zero_add, Accepts]

end Vm

namespace Kern

/-- The bytes of `[va, va + len)` that `env` may not access with `perm`. The end of the range is not
reduced modulo the word size. -/
def faults (k : Kern) (env : Nat) (va len : Word) (perm : BitVec 32) : Set Nat :=
  {x | va.toNat ≤ x ∧ x < va.toNat + len.toNat ∧
    ¬(x < ulim.toNat ∧ k.vm.Grants (k.envs env).envPgdir (perm.signExtend 64) (BitVec.ofNat 64 x))}

/-- `user_mem_check` returns 0 exactly when there is no fault, and otherwise reports the first. -/
def MemCheckExact (k : Kern) (env : Nat) (va len : Word) (perm : BitVec 32) : Prop :=
  (k.userMemCheck env va len perm = .ok none ↔ k.faults env va len perm = ∅) ∧
  ((k.faults env va len perm).Nonempty → ∃ addr : Word,
    IsLeast (k.faults env va len perm) addr.toNat ∧
      k.userMemCheck env va len perm = .ok (some addr))

variable {k : Kern} {env : Nat} {va len : Word} {perm : BitVec 32}

theorem memCheckExact_iff_outcome :
    k.MemCheckExact env va len perm ↔
      (k.faults env va len perm = ∅ ∧ k.userMemCheck env va len perm = .ok none) ∨
      ∃ addr : Word, IsLeast (k.faults env va len perm) addr.toNat ∧
        k.userMemCheck env va len perm = .ok (some addr) := by
  constructor
  · rintro ⟨haccept, hreport⟩
    obtain hempty | hnonempty := (k.faults env va len perm).eq_empty_or_nonempty
    · exact .inl ⟨hempty, haccept.mpr hempty⟩
    · exact .inr (hreport hnonempty)
  · rintro (⟨hempty, hcheck⟩ | ⟨addr, hleast, hcheck⟩)
    · refine ⟨by simp [hempty, hcheck], fun hnonempty => ?_⟩
      exact absurd hempty hnonempty.ne_empty
    · have hnonempty : (k.faults env va len perm).Nonempty := ⟨_, hleast.1⟩
      refine ⟨?_, fun _ => ⟨addr, hleast, hcheck⟩⟩
      simp [hcheck, hnonempty.ne_empty]

theorem userMemCheck_eq_ok {result : Option Word} :
    k.userMemCheck env va len perm = .ok result ↔
      (ulim < roundup (va + len) pgSize ∧ result = some va) ∨
      (¬ulim < roundup (va + len) pgSize ∧ ∃ c, k.curenv = some c ∧
        k.vm.userMemCheckLoop (k.envs c).envPgdir (perm.signExtend 64)
          (Vm.userMemCheckIters len) va none = .ok result) := by
  unfold userMemCheck
  by_cases hlimit : ulim < roundup (va + len) pgSize
  · rw [if_pos hlimit, pure_eq_ok]
    simp [hlimit, eq_comm]
  · rw [if_neg hlimit, bind_eq_ok]
    cases hcur : k.curenv <;> simp [cur, hcur, hlimit]

end Kern

end ZynexOS
