import ZynexOS.Kern.UserAccess
import ZynexOS.Kern.Proof.UserMemCheck
import ZynexOS.Kern.Proof.Effects

/-!
# Which accesses stay in the caller's memory

`sys_env_set_trapframe` and `sys_pack_recv` do not check their pointers.
-/

namespace ZynexOS

open Library

namespace Kern

/-- The caller may make this access itself, and for a store the address is below `ULIM`. -/
def Owns (k : Kern) (a : Access) : Prop :=
  ∃ c, k.curenv = some c ∧
    if a.store then a.addr < ulim ∧ k.vm.Grants (k.envs c).envPgdir (pteU ||| pteW) a.addr
    else k.vm.Grants (k.envs c).envPgdir pteU a.addr

/-- Every byte that the call accesses through its arguments is one that its caller may access. -/
def PointersOwned (k : Kern) (card : NetCard) (no a1 a2 : Word) : Prop :=
  ∀ n accesses, k.userAccesses card n no a1 a2 = .ok accesses → ∀ a ∈ accesses, k.Owns a

end Kern

namespace Vm

def Reaches (vm : Vm) (p : Word) (i : Nat) : Prop :=
  ∀ j < i, (vm.byte (p + BitVec.ofNat 64 j)).isSome

/-- Printing the string at `p` reads its byte `i`: the bytes before are mapped and not zero, and the
precision allows it. It allows one byte too many. -/
def InString (vm : Vm) (p : Word) (precision : Int) (i : Nat) : Prop :=
  (precision < 0 ∨ (i : Int) ≤ precision) ∧
    ∀ j < i, ∃ ch, vm.byte (p + BitVec.ofNat 64 j) = some ch ∧ ch ≠ 0

end Vm

namespace Kern

/-- `user_mem_check` lets a range pass: its end is not above `ULIM`, its first page is mapped, and every
mapped page that is visited has one of `PTE_U` and `PTE_V`. -/
def Admits (k : Kern) (c : Nat) (va len : Word) : Prop :=
  ¬ulim < roundup (va + len) pgSize ∧ k.vm.Maps (k.envs c).envPgdir va ∧
    k.vm.Accepts (k.envs c).envPgdir pteU va (Vm.userMemCheckIters len)

/-- For each call, the bytes that must be the caller's. -/
def PointersSafe (k : Kern) (card : NetCard) (no a1 a2 : Word) : Prop :=
  match Sysno.ofWord no with
  | some .cputs =>
      ∀ c, k.curenv = some c → k.Admits c a1 a2 → a1 ≠ 0 →
        ∀ i, k.vm.InString a1 (a2.setWidth 32).toInt i → k.Owns ⟨a1 + BitVec.ofNat 64 i, false⟩
  | some .envSetTrapframe =>
      ∀ e, k.envid2env (a1.setWidth 32) true = .ok (some e) →
        ∀ i < trapframeSize, k.vm.Reaches a2 i → k.Owns ⟨a2 + BitVec.ofNat 64 i, false⟩
  | some .packSend =>
      let size := (a2.setWidth 32).signExtend 64
      ∀ c, k.curenv = some c → k.Admits c a1 size → a1 < utop → a1 + size < utop →
        (card.tx.txDescBuffer card.tx.tdt).status &&& E1000.txdStatDd ≠ 0 →
        ∀ i < size.toNat, k.vm.Reaches a1 i → k.Owns ⟨a1 + BitVec.ofNat 64 i, false⟩
  | some .packRecv =>
      let rx := card.rx.rxDescBuffer card.rx.next
      a1 < utop → rx.status &&& E1000.rxdStatDd ≠ 0 →
        (∀ i < rx.length.toNat, k.vm.Reaches a1 i → k.Owns ⟨a1 + BitVec.ofNat 64 i, true⟩) ∧
        (k.vm.Reaches a1 rx.length.toNat →
          ∀ i < 4, k.vm.Reaches a2 i → k.Owns ⟨a2 + BitVec.ofNat 64 i, true⟩)
  | _ => True

end Kern

namespace Vm

variable {vm : Vm} {store : Bool} {p : Word} {a : Access}

theorem add_ofNat_succ (p : Word) (j : Nat) :
    p + BitVec.ofNat 64 (j + 1) = p + 1 + BitVec.ofNat 64 j := by
  rw [BitVec.add_assoc, BitVec.ofNat_add, BitVec.add_comm (BitVec.ofNat 64 j)]
  rfl

theorem add_ofNat_zero (p : Word) : p + BitVec.ofNat 64 0 = p := BitVec.add_zero p

theorem reaches_zero : vm.Reaches p 0 := fun j hj => absurd hj (Nat.not_lt_zero j)

theorem reaches_succ {i : Nat} :
    vm.Reaches p (i + 1) ↔ (vm.byte p).isSome ∧ vm.Reaches (p + 1) i := by
  unfold Reaches
  rw [Nat.forall_lt_succ_left, add_ofNat_zero]
  simp only [add_ofNat_succ]

theorem mem_touch {n : Nat} :
    a ∈ vm.touch store n p ↔ ∃ i < n, vm.Reaches p i ∧ a = ⟨p + BitVec.ofNat 64 i, store⟩ := by
  induction n generalizing p with
  | zero => simp [touch]
  | succ n ih =>
      rw [Nat.exists_lt_succ_left, add_ofNat_zero, touch, List.mem_cons]
      simp only [reaches_succ, add_ofNat_succ, and_assoc]
      by_cases hmapped : (vm.byte p).isSome = true
      · rw [if_pos hmapped, ih]
        simp [hmapped, reaches_zero]
      · rw [if_neg hmapped]
        simp [hmapped, reaches_zero]

theorem inString_zero {precision : Int} : vm.InString p precision 0 :=
  ⟨by omega, fun j hj => absurd hj (Nat.not_lt_zero j)⟩

theorem inString_succ {precision : Int} {i : Nat} :
    vm.InString p precision (i + 1) ↔ (∃ ch, vm.byte p = some ch ∧ ch ≠ 0) ∧
      (precision < 0 ∧ vm.InString (p + 1) precision i ∨
        0 ≤ precision - 1 ∧ vm.InString (p + 1) (precision - 1) i) := by
  unfold InString
  rw [Nat.forall_lt_succ_left, add_ofNat_zero]
  simp only [add_ofNat_succ]
  have hleft : (precision < 0 ∨ ((i + 1 : Nat) : Int) ≤ precision) ↔
      (precision < 0 ∧ (precision < 0 ∨ (i : Int) ≤ precision)) ∨
        0 ≤ precision - 1 ∧ (precision - 1 < 0 ∨ (i : Int) ≤ precision - 1) := by omega
  rw [hleft]
  constructor
  · rintro ⟨⟨hneg, h⟩ | ⟨hpos, h⟩, hch, hrest⟩
    · exact ⟨hch, .inl ⟨hneg, h, hrest⟩⟩
    · exact ⟨hch, .inr ⟨hpos, h, hrest⟩⟩
  · rintro ⟨hch, ⟨hneg, h, hrest⟩ | ⟨hpos, h, hrest⟩⟩
    · exact ⟨.inl ⟨hneg, h⟩, hch, hrest⟩
    · exact ⟨.inr ⟨hpos, h⟩, hch, hrest⟩

theorem mem_touchString {n : Nat} {precision : Int} :
    a ∈ vm.touchString n precision p ↔
      ∃ i < n, vm.InString p precision i ∧ a = ⟨p + BitVec.ofNat 64 i, false⟩ := by
  induction n generalizing p precision with
  | zero => simp [touchString]
  | succ n ih =>
      rw [Nat.exists_lt_succ_left, add_ofNat_zero, touchString, List.mem_cons]
      simp only [inString_succ, add_ofNat_succ, inString_zero, true_and]
      refine or_congr_right ?_
      cases hbyte : vm.byte p with
      | none => simp
      | some ch =>
          have hsome : (∃ ch', some ch = some ch' ∧ ch' ≠ 0) ↔ ch ≠ 0 := by simp
          by_cases hch : ch = 0
          · simp [hch]
          · by_cases hneg : precision < 0
            · have hnot : ¬ 0 ≤ precision - 1 := by omega
              simp only [hsome, hch, hneg, hnot, ih, if_true, if_false, ne_eq, not_false_eq_true,
                true_and, false_and, or_false]
            · by_cases hleft : 0 ≤ precision - 1
              · simp only [hsome, hch, hneg, hleft, ih, if_true, if_false, ne_eq, not_false_eq_true,
                  true_and, false_and, false_or]
              · simp only [hsome, hch, hneg, hleft, if_false, List.not_mem_nil, false_and, and_false,
                  or_self, exists_false]

theorem all_mapped_iff {n : Nat} :
    ((List.range n).all fun i => (vm.byte (p + BitVec.ofNat 64 i)).isSome) = true ↔
      vm.Reaches p n := by
  simp [Reaches]

end Vm

namespace Kern

variable {k k' : Kern} {card : NetCard} {c : Nat}

theorem userMemAssert_eq_false (hcur : k.curenv = some c) {va len : Word} :
    k.userMemAssert c va len (pteU.setWidth 32) = .ok (false, k') ↔ k' = k ∧ k.Admits c va len := by
  have hperm : (pteU.setWidth 32 ||| pteU.setWidth 32 : BitVec 32).signExtend 64 = pteU := by decide
  have hcheck : k.userMemCheck c va len (pteU.setWidth 32 ||| pteU.setWidth 32) = .ok none ↔
      k.Admits c va len := by
    rw [userMemCheck_eq_ok]
    simp only [Vm.userMemCheckIters, Vm.userMemCheckLoop_eq_ok, hperm, hcur, Admits]
    simp
  constructor
  · intro hassert
    obtain ⟨result, hresult, hrest⟩ := bind_eq_ok.mp hassert
    cases result with
    | none =>
        obtain ⟨-, rfl⟩ := Prod.mk.inj (pure_eq_ok.mp hrest)
        exact ⟨rfl, hcheck.mp hresult⟩
    | some addr =>
        obtain ⟨hgone, -⟩ := envDestroy_self hcur hrest
        cases hgone
  · rintro ⟨rfl, hadmits⟩
    simp only [userMemAssert, hcheck.mpr hadmits, ok_bind]
    rfl

theorem exists_mem_after_assert {va len : Word} {f : Kern → List Access} {a : Access} :
    (∃ accesses, (do
        let c ← k.cur
        match ← k.userMemAssert c va len (pteU.setWidth 32) with
        | (true, _) => pure []
        | (false, k) => pure (f k) : Except Panic (List Access)) = .ok accesses ∧ a ∈ accesses) ↔
      ∃ c, k.curenv = some c ∧ k.Admits c va len ∧ a ∈ f k := by
  constructor
  · rintro ⟨accesses, hcall, ha⟩
    obtain ⟨c, hcur, hrest⟩ := bind_eq_ok.mp hcall
    obtain ⟨⟨gone, k'⟩, hassert, hlast⟩ := bind_eq_ok.mp hrest
    have hcurenv := cur_eq_ok.mp hcur
    cases gone with
    | true =>
        cases pure_eq_ok.mp hlast
        cases ha
    | false =>
        obtain ⟨rfl, hadmits⟩ := (userMemAssert_eq_false hcurenv).mp hassert
        cases pure_eq_ok.mp hlast
        exact ⟨c, hcurenv, hadmits, ha⟩
  · rintro ⟨c, hcur, hadmits, ha⟩
    refine ⟨f k, ?_, ha⟩
    rw [cur_eq_ok.mpr hcur, ok_bind, (userMemAssert_eq_false hcur).mpr ⟨rfl, hadmits⟩, ok_bind]
    rfl

theorem exists_mem_cputs {n : Nat} {s len : Word} {a : Access} :
    (∃ accesses, k.cputsAccesses n s len = .ok accesses ∧ a ∈ accesses) ↔
      ∃ c, k.curenv = some c ∧ k.Admits c s len ∧ s ≠ 0 ∧
        a ∈ k.vm.touchString n (len.setWidth 32).toInt s := by
  have hcall : k.cputsAccesses n s len = (do
      let c ← k.cur
      match ← k.userMemAssert c s len (pteU.setWidth 32) with
      | (true, _) => pure []
      | (false, k) => pure (if s = 0 then [] else k.vm.touchString n (len.setWidth 32).toInt s)) := by
    unfold cputsAccesses
    split <;> rfl
  rw [hcall, exists_mem_after_assert]
  by_cases hs : s = 0 <;> simp [hs]

theorem exists_mem_packSend {data : Word} {len : BitVec 32} {a : Access} :
    (∃ accesses, k.packSendAccesses card data len = .ok accesses ∧ a ∈ accesses) ↔
      ∃ c, k.curenv = some c ∧ k.Admits c data (len.signExtend 64) ∧ data < utop ∧
        data + len.signExtend 64 < utop ∧
        (card.tx.txDescBuffer card.tx.tdt).status &&& E1000.txdStatDd ≠ 0 ∧
        a ∈ k.vm.touch false (len.signExtend 64).toNat data := by
  have hcall : k.packSendAccesses card data len = (do
      let c ← k.cur
      match ← k.userMemAssert c data (len.signExtend 64) (pteU.setWidth 32) with
      | (true, _) => pure []
      | (false, k) => pure (
          if utop ≤ data ∨ utop ≤ data + len.signExtend 64 then []
          else if (card.tx.txDescBuffer card.tx.tdt).status &&& E1000.txdStatDd = 0 then []
          else k.vm.touch false (len.signExtend 64).toNat data)) := by
    unfold packSendAccesses
    dsimp only
    split
    · rfl
    · split <;> rfl
  rw [hcall, exists_mem_after_assert]
  by_cases hrange : utop ≤ data ∨ utop ≤ data + len.signExtend 64
  · rw [if_pos hrange]
    have hnot : ¬(data < utop ∧ data + len.signExtend 64 < utop) := by
      rw [← BitVec.not_le, ← BitVec.not_le]
      tauto
    simp only [List.not_mem_nil, and_false, exists_false, false_iff]
    rintro ⟨c, -, -, hdata, hend, -⟩
    exact hnot ⟨hdata, hend⟩
  · rw [if_neg hrange]
    obtain ⟨hdata, hend⟩ := not_or.mp hrange
    rw [BitVec.not_le] at hdata hend
    by_cases hfree : (card.tx.txDescBuffer card.tx.tdt).status &&& E1000.txdStatDd = 0
    · simp [hfree]
    · simp only [hdata, hend, hfree, if_false, ne_eq, not_false_eq_true, true_and]

theorem exists_mem_setTrapframe {envid : BitVec 32} {tf : Word} {a : Access} :
    (∃ accesses, k.setTrapframeAccesses envid tf = .ok accesses ∧ a ∈ accesses) ↔
      ∃ e, k.envid2env envid true = .ok (some e) ∧ a ∈ k.vm.touch false trapframeSize tf := by
  unfold setTrapframeAccesses
  cases hfound : k.envid2env envid true with
  | error panic => simp [Bind.bind, Except.bind]
  | ok found =>
      cases found with
      | none => simp [Bind.bind, Except.bind, pure, Except.pure]
      | some e => simp [Bind.bind, Except.bind, pure, Except.pure]

theorem mem_packRecv {data len : Word} {a : Access} :
    a ∈ k.packRecvAccesses card data len ↔
      data < utop ∧ (card.rx.rxDescBuffer card.rx.next).status &&& E1000.rxdStatDd ≠ 0 ∧
        (a ∈ k.vm.touch true (card.rx.rxDescBuffer card.rx.next).length.toNat data ∨
          k.vm.Reaches data (card.rx.rxDescBuffer card.rx.next).length.toNat ∧
            a ∈ k.vm.touch true 4 len) := by
  unfold packRecvAccesses
  by_cases hdata : utop ≤ data
  · simp [hdata, ← BitVec.not_le]
  · rw [if_neg hdata]
    rw [BitVec.not_le] at hdata
    by_cases hready : (card.rx.rxDescBuffer card.rx.next).status &&& E1000.rxdStatDd = 0
    · simp [hready]
    · simp only [hdata, hready, if_false, ne_eq, not_false_eq_true, true_and, List.mem_append]
      by_cases hall : k.vm.Reaches data (card.rx.rxDescBuffer card.rx.next).length.toNat
      · rw [if_pos (Vm.all_mapped_iff.mpr hall)]
        simp [hall]
      · rw [if_neg (mt Vm.all_mapped_iff.mp hall)]
        simp [hall]

theorem pointersOwned_iff_forall {no a1 a2 : Word} : k.PointersOwned card no a1 a2 ↔
    ∀ n a, (∃ accesses, k.userAccesses card n no a1 a2 = .ok accesses ∧ a ∈ accesses) → k.Owns a := by
  constructor
  · rintro howned n a ⟨accesses, hcall, ha⟩
    exact howned n accesses hcall a ha
  · exact fun howned n accesses hcall a ha => howned n a ⟨accesses, hcall, ha⟩

def onePage : Kern :=
  { oneMapping 0x17 with
    vm := { (oneMapping 0x17).vm with
      mem := fun addr =>
        if 0x1000 ≤ addr ∧ addr < 0x2000 then some 0 else (oneMapping 0x17).vm.mem addr } }

def onePacket : NetCard where
  tx := { mem := fun _ => 0, packetBuffer := 0, txDescBuffer := fun _ => ⟨0, 0, 0, 0⟩, tdh := 0, tdt := 0 }
  rx :=
    { mem := fun _ => 0, receiveBuffer := 0, rxDescBuffer := fun _ => ⟨0, 60, E1000.rxdStatDd⟩
      rdh := 1, rdt := 127 }

end Kern

end ZynexOS
