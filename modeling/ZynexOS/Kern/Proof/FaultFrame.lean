import ZynexOS.Kern.FaultFrame
import ZynexOS.Kern.Proof.Effects
import ZynexOS.Kern.Proof.PageWords
import ZynexOS.Kern.Proof.UserMemCheck

/-!
# The frame of a page fault and the exception stack

The check before the frame is pushed looks at one entry, and accepts it for any one of three bits.
-/

namespace ZynexOS

open Library

section Push

variable {vm vm' : Vm} {sp sp' : Word} {words : List Word}

theorem sub_ofNat_inj {a b : Nat} (ha : a < 2 ^ 64) (hb : b < 2 ^ 64)
    (hsame : sp - BitVec.ofNat 64 a = sp - BitVec.ofNat 64 b) : a = b := by
  have hword := (BitVec.sub_right_inj sp).mp hsame
  have hnat := congrArg BitVec.toNat hword
  rwa [BitVec.toNat_ofNat, BitVec.toNat_ofNat, Nat.mod_eq_of_lt ha, Nat.mod_eq_of_lt hb] at hnat

theorem foldlM_push (hlen : 8 * words.length < 2 ^ 64)
    (hpush : words.foldlM Kern.push (sp, vm) = .ok (sp', vm')) :
    sp' = sp - BitVec.ofNat 64 (8 * words.length) ∧
      (∀ i word, words[i]? = some word →
        vm'.mem (sp - BitVec.ofNat 64 (8 * (i + 1))) = some word) ∧
      ∀ addr, (∀ i < words.length, addr ≠ sp - BitVec.ofNat 64 (8 * (i + 1))) →
        vm'.mem addr = vm.mem addr := by
  induction words generalizing sp vm with
  | nil =>
      cases pure_eq_ok.mp hpush
      exact ⟨by simp, by simp, fun _ _ => rfl⟩
  | cons word words ih =>
      rw [List.foldlM_cons, bind_eq_ok] at hpush
      obtain ⟨⟨sp₁, vm₁⟩, hfirst, hrest⟩ := hpush
      obtain ⟨vm₂, hstore, hpair⟩ := bind_eq_ok.mp hfirst
      obtain ⟨rfl, rfl⟩ := Prod.mk.inj (pure_eq_ok.mp hpair)
      obtain ⟨-, rfl⟩ := Vm.store_eq_ok.mp hstore
      rw [List.length_cons] at hlen
      obtain ⟨hsp, hwords, hframe⟩ := ih (by omega) hrest
      have hshift : ∀ n, sp - 8 - BitVec.ofNat 64 (8 * n) = sp - BitVec.ofNat 64 (8 * (n + 1)) := by
        intro n
        rw [Nat.mul_add, BitVec.ofNat_add, BitVec.sub_sub, BitVec.add_comm]
        rfl
      simp only [hshift] at hsp hwords hframe
      refine ⟨hsp, fun i w hw => ?_, fun addr hne => ?_⟩
      · cases i with
        | zero =>
            cases hw
            rw [hframe _ fun i hi hsame => ?_]
            · exact Function.update_self ..
            · have := sub_ofNat_inj (by omega) (by omega) hsame
              omega
        | succ i => exact hwords i w hw
      · rw [hframe addr fun i hi => hne (i + 1) (by simpa using hi)]
        exact Function.update_of_ne (hne 0 (by simp)) _ _

end Push

namespace Kern

variable {k k' : Kern} {c : Nat} {vm vm' : Vm} {tf : Trapframe} {sp : Word}

theorem mem_pushed {sp addr : Word} {n : Nat} :
    addr ∈ pushed sp n ↔ ∃ i < n, addr = sp - BitVec.ofNat 64 (8 * (i + 1)) := by
  simp [pushed, eq_comm]

theorem pushFaultFrame_stores (hpush : pushFaultFrame vm tf = .ok (sp, vm')) {addr : Word}
    (haddr : addr ∉ frameStores tf) : vm'.mem addr = vm.mem addr := by
  unfold pushFaultFrame at hpush
  unfold frameStores at haddr
  split at hpush
  · next hnested =>
    rw [if_pos (show OnUxstack tf.sp from hnested), mem_pushed] at haddr
    exact (foldlM_push (by simp [faultFrame]) hpush).2.2 addr fun i hi heq => haddr ⟨i, hi, heq⟩
  · next hnested =>
    rw [if_neg (show ¬OnUxstack tf.sp from hnested), mem_pushed] at haddr
    exact (foldlM_push (by simp [faultFrame]) hpush).2.2 addr fun i hi heq => haddr ⟨i, hi, heq⟩

theorem pageFaultHandler_eq (hcur : k.curenv = some c) :
    k.pageFaultHandler c = (do
      match ← k.faultExit c with
      | .destroys =>
          let (_, k) ← k.envDestroy c
          pure (.resched, k)
      | .frame _ =>
          let env := k.envs c
          let (sp, vm) ← pushFaultFrame k.vm env.envTf
          match ← { k with vm := vm }.userMemAssert c env.envPgfaultUpcall 4
              ((pteU ||| pteW ||| pteX ||| pteR).setWidth 32) with
          | (true, k) => pure (.resched, k)
          | (false, k) =>
              pure (.run, k.setEnv c { k.envs c with
                envTf := { env.envTf with sp := sp, sepc := env.envPgfaultUpcall, origA0 := 0 } })) := by
  unfold pageFaultHandler faultExit userMemAssert
  dsimp only
  split
  · rfl
  · cases hcheck : k.userMemCheck c (uxstacktop - 4) 4 (pteW.setWidth 32 ||| pteU.setWidth 32) with
    | error panic => rfl
    | ok result =>
        cases result with
        | none => rfl
        | some addr =>
            simp only [ok_bind]
            cases hdestroy : k.envDestroy c with
            | error panic => rfl
            | ok pair =>
                obtain ⟨gone, k'⟩ := pair
                obtain ⟨rfl, -⟩ := envDestroy_self hcur hdestroy
                rfl

def FrameOwned (k : Kern) (c : Nat) : Prop :=
  ∃ exit, k.faultExit c = .ok exit ∧ ∀ stores, exit = .frame stores →
    ∀ addr ∈ stores, ∀ i < 8, OnUxstack (addr + BitVec.ofNat 64 i) ∧
      k.vm.Grants (k.envs c).envPgdir (pteU ||| pteW) (addr + BitVec.ofNat 64 i)

def HasRoom (sp : Word) : Prop :=
  OnUxstack sp → uxstacktop - BitVec.ofNat 64 pgSize + BitVec.ofNat 64 (8 * 36) ≤ sp

instance (sp : Word) : Decidable (HasRoom sp) := inferInstanceAs (Decidable (_ → _))

theorem onUxstack_iff {addr : Word} :
    OnUxstack addr ↔ 0xfffffbffeffff000 ≤ addr.toNat ∧ addr.toNat < 0xfffffbfff0000000 := by
  have hlow : (uxstacktop - BitVec.ofNat 64 pgSize).toNat = 0xfffffbffeffff000 := by decide
  have hhigh : uxstacktop.toNat = 0xfffffbfff0000000 := rfl
  rw [OnUxstack, BitVec.le_def, BitVec.lt_def, hlow, hhigh]

theorem vpn_uxstack {addr : Word} (haddr : OnUxstack addr) : vpn addr = vpn (uxstacktop - 4) := by
  obtain ⟨hlow, hhigh⟩ := onUxstack_iff.mp haddr
  have htop : (uxstacktop - 4).toNat = 0xfffffbffeffffffc := by decide
  apply BitVec.eq_of_toNat_eq
  rw [vpn_toNat, vpn_toNat, htop]
  omega

theorem grants_uxstack {pgdir perm addr : Word} (haddr : OnUxstack addr) :
    vm.Grants pgdir perm addr ↔ vm.Grants pgdir perm (uxstacktop - 4) := by
  unfold Vm.Grants
  rw [Vm.pgdirWalkThrough_congr (vpn_uxstack haddr)]

theorem pushed_toNat {start : Word} {i j : Nat} (hi : i < 36) (hj : j < 8)
    (hstart : 0xfffffbffeffff000 ≤ start.toNat) :
    (start - BitVec.ofNat 64 (8 * (i + 1)) + BitVec.ofNat 64 j).toNat =
      start.toNat - 8 * (i + 1) + j := by
  have hlt := start.isLt
  rw [BitVec.toNat_add, BitVec.toNat_sub, BitVec.toNat_ofNat, BitVec.toNat_ofNat]
  omega

theorem hasRoom_iff {sp : Word} (hsp : OnUxstack sp) :
    HasRoom sp ↔ 0xfffffbffeffff000 + 288 ≤ sp.toNat := by
  have hlow : (uxstacktop - BitVec.ofNat 64 pgSize + BitVec.ofNat 64 (8 * 36)).toNat =
      0xfffffbffeffff000 + 288 := by decide
  rw [HasRoom, forall_prop_of_true hsp, BitVec.le_def, hlow]

theorem frameStores_onUxstack {tf : Trapframe} :
    (∀ addr ∈ frameStores tf, ∀ j < 8, OnUxstack (addr + BitVec.ofNat 64 j)) ↔ HasRoom tf.sp := by
  unfold frameStores
  by_cases hsp : OnUxstack tf.sp
  · rw [if_pos hsp, hasRoom_iff hsp]
    obtain ⟨hlow, hhigh⟩ := onUxstack_iff.mp hsp
    constructor
    · intro hall
      have hlast := hall _ (mem_pushed.mpr ⟨35, by decide, rfl⟩) 0 (by decide)
      rw [onUxstack_iff, pushed_toNat (by decide) (by decide) hlow] at hlast
      omega
    · intro hroom addr haddr j hj
      obtain ⟨i, hi, rfl⟩ := mem_pushed.mp haddr
      rw [onUxstack_iff, pushed_toNat hi hj hlow]
      omega
  · rw [if_neg hsp]
    refine iff_of_true ?_ fun hon => absurd hon hsp
    intro addr haddr j hj
    obtain ⟨i, hi, rfl⟩ := mem_pushed.mp haddr
    have htop : uxstacktop.toNat = 0xfffffbfff0000000 := rfl
    rw [onUxstack_iff, pushed_toNat (by omega) hj (by rw [htop]; decide), htop]
    omega

theorem exists_mem_frameStores (tf : Trapframe) : ∃ addr, addr ∈ frameStores tf := by
  unfold frameStores
  split_ifs
  · exact ⟨_, mem_pushed.mpr ⟨0, by decide, rfl⟩⟩
  · exact ⟨_, mem_pushed.mpr ⟨0, by decide, rfl⟩⟩

theorem uxstackCheck_eq_ok (hcur : k.curenv = some c) {result : Option Word} :
    k.userMemCheck c (uxstacktop - 4) 4 (pteW.setWidth 32 ||| pteU.setWidth 32) = .ok result ↔
      (result = some (uxstacktop - 4) ∧
        (k.vm.pageLookup (k.envs c).envPgdir (uxstacktop - 4) = .ok none ∨
          k.vm.Fails (k.envs c).envPgdir (pteU ||| pteW) (uxstacktop - 4))) ∨
      (result = none ∧ k.vm.Maps (k.envs c).envPgdir (uxstacktop - 4) ∧
        k.vm.Passes (k.envs c).envPgdir (pteU ||| pteW) (uxstacktop - 4)) := by
  have hperm : (pteW.setWidth 32 ||| pteU.setWidth 32 : BitVec 32).signExtend 64 = pteU ||| pteW := by
    decide
  have hulim : ¬ulim < roundup (uxstacktop - 4 + 4) pgSize := by decide
  have hiters : Vm.userMemCheckIters 4 = 0 + 1 := by decide
  rw [userMemCheck_eq_ok]
  simp only [hulim, false_and, not_false_eq_true, true_and, false_or, hcur, Option.some.injEq,
    exists_eq_left', hperm, hiters, Vm.userMemCheckLoop_eq_ok]
  have haccepts : k.vm.Accepts (k.envs c).envPgdir (pteU ||| pteW) (uxstacktop - 4) (0 + 1) ↔
      k.vm.Passes (k.envs c).envPgdir (pteU ||| pteW) (uxstacktop - 4) := by
    unfold Vm.Accepts
    rw [Nat.forall_lt_succ_left]
    exact and_iff_left fun j hj => absurd hj (Nat.not_lt_zero j)
  have hreports : ∀ addr, k.vm.Reports (k.envs c).envPgdir (pteU ||| pteW) (uxstacktop - 4) (0 + 1) addr ↔
      addr = uxstacktop - 4 ∧ k.vm.Fails (k.envs c).envPgdir (pteU ||| pteW) (uxstacktop - 4) := by
    intro addr
    constructor
    · rintro ⟨j, hj, haddr, hfails, -⟩
      obtain rfl : j = 0 := by omega
      exact ⟨haddr, hfails⟩
    · rintro ⟨haddr, hfails⟩
      exact ⟨0, Nat.one_pos, haddr, hfails, fun i hi => absurd hi (Nat.not_lt_zero i)⟩
  rw [haccepts]
  simp only [hreports]
  constructor
  · rintro (⟨hnone, hresult⟩ | ⟨hmaps, ⟨hresult, hpasses⟩ | ⟨addr, hresult, rfl, hfails⟩⟩)
    · exact .inl ⟨hresult, .inl hnone⟩
    · exact .inr ⟨hresult, hmaps, hpasses⟩
    · exact .inl ⟨hresult, .inr hfails⟩
  · rintro (⟨hresult, hnone | hfails⟩ | ⟨hresult, hmaps, hpasses⟩)
    · exact .inl ⟨hnone, hresult⟩
    · obtain ⟨pp, slot, pte, hlookup, -⟩ := id hfails
      exact .inr ⟨⟨_, hlookup⟩, .inr ⟨_, hresult, rfl, hfails⟩⟩
    · exact .inr ⟨hmaps, .inl ⟨hresult, hpasses⟩⟩

theorem passes_of_grants {pgdir perm va : Word} (hmaps : vm.Maps pgdir va)
    (hgrants : vm.Grants pgdir perm va) : vm.Passes pgdir perm va := by
  obtain ⟨⟨pp, slot⟩, hlookup⟩ := hmaps
  obtain ⟨slot', pte, hwalk, hmem, hbits⟩ := hgrants
  obtain ⟨found, hwalk', hrest⟩ := bind_eq_ok.mp hlookup
  obtain rfl : some slot' = found := Except.ok.inj (hwalk.symm.trans hwalk')
  obtain ⟨pte', hload, hrest⟩ := bind_eq_ok.mp hrest
  have hload' : vm.load slot' = .ok pte := by rw [Vm.load, hmem]
  obtain rfl : pte = pte' := Except.ok.inj (hload'.symm.trans hload)
  split_ifs at hrest
  · cases pure_eq_ok.mp hrest
  · obtain ⟨pp', -, hrest⟩ := bind_eq_ok.mp hrest
    cases pure_eq_ok.mp hrest
    refine .inr ⟨pp, slot, pte, hlookup, hload, ?_⟩
    rw [hbits]
    intro hzero
    have hvalid : (perm ||| pteV) &&& pteV ≠ 0 := or_pteV_and_pteV_ne perm
    rw [hzero] at hvalid
    exact hvalid BitVec.zero_and

def faulting (flags sp : Word) : Kern where
  vm := Vm.ofEntries
    [(entryAddr (pageKva 1) (pd0x (uxstacktop - 4)), pdeEntry (page2pa 2) ||| pteV),
     (entryAddr (pageKva 2) (pd1x (uxstacktop - 4)), pdeEntry (page2pa 3) ||| pteV),
     (entryAddr (pageKva 3) (pd2x (uxstacktop - 4)), pdeEntry (page2pa 4) ||| pteV),
     (entryAddr (pageKva 4) (ptx (uxstacktop - 4)), pteEntry (page2pa 8) ||| flags)]
  kernPgdir := pageKva 0
  envsAddr := uenvs
  envs := fun e =>
    if e = 0 then
      { envId := 4096, envStatus := .running, envPgdir := pageKva 1, envPgfaultUpcall := 0x800020
        envTf := { sp := sp } }
    else {}
  envFreeList := some 1
  curenv := some 0
  sstatus := 0

theorem faultExit_faulting {flags sp : Word}
    (hcheck : ((faulting flags sp).faultExit 0).toOption = some (.frame (frameStores { sp := sp })))
    {addr : Word} (haddr : addr ∈ frameStores { sp := sp })
    (howned : (faulting flags sp).FrameOwned 0) :
    OnUxstack addr ∧ (faulting flags sp).vm.Grants (pageKva 1) (pteU ||| pteW) addr := by
  obtain ⟨exit, hexit, hall⟩ := howned
  obtain rfl : exit = .frame (frameStores { sp := sp }) :=
    Except.ok.inj (hexit.symm.trans (eq_ok_of_toOption hcheck))
  have hfirst := hall _ rfl addr haddr 0 (by decide)
  rwa [show addr + BitVec.ofNat 64 0 = addr from BitVec.add_zero addr] at hfirst

end Kern

end ZynexOS
