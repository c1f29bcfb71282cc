import ZynexOS.Lib.Pfentry
import ZynexOS.Kern.Proof.FaultFrame

/-!
# What a handled page fault leaves

The upcall comes back with every register but three: `gp` is the register that it jumps through, and it
does not load `t1` and `t2`.
-/

namespace ZynexOS

open Library

theorem faultFrame_reg (tf : Trapframe) (faultVa : Word) (r : Reg) :
    (Kern.faultFrame tf faultVa)[34 - r.pt / 8]? = some (tf.reg r) := by
  cases r <;> rfl

namespace HandledFault

variable (f : HandledFault)

theorem kernel_frame :
    (f.kern'.envs f.c).envTf.sp = uxstacktop - BitVec.ofNat 64 utrapSize ∧
      ∀ i word, (Kern.faultFrame f.tf f.tf.stval)[i]? = some word →
        f.kern'.vm.mem (uxstacktop - BitVec.ofNat 64 (8 * (i + 1))) = some word := by
  have hkernel := f.kernel
  unfold Kern.pageFaultHandler at hkernel
  dsimp only at hkernel
  split at hkernel
  · obtain ⟨⟨gone, mid⟩, -, hrest⟩ := bind_eq_ok.mp hkernel
    cases pure_eq_ok.mp hrest
  · obtain ⟨⟨gone, mid⟩, hassert, hrest⟩ := bind_eq_ok.mp hkernel
    obtain ⟨rfl, rfl⟩ | ⟨rfl, -⟩ := Kern.userMemAssert_self f.current hassert
    · obtain ⟨⟨sp, vm⟩, hpush, hrest⟩ := bind_eq_ok.mp hrest
      obtain ⟨⟨gone, last⟩, hassert, hrest⟩ := bind_eq_ok.mp hrest
      have hcur : ({ f.kern with vm := vm } : Kern).curenv = some f.c := f.current
      obtain ⟨rfl, rfl⟩ | ⟨rfl, -⟩ := Kern.userMemAssert_self hcur hassert
      · obtain ⟨-, hkern⟩ := Prod.mk.inj (pure_eq_ok.mp hrest)
        rw [Kern.pushFaultFrame, if_neg f.outside] at hpush
        obtain ⟨rfl, hwords, -⟩ := foldlM_push (by simp [Kern.faultFrame]) hpush
        rw [← hkern]
        refine ⟨?_, hwords⟩
        simp [Kern.setEnv]
        rfl
      · cases pure_eq_ok.mp hrest
    · cases pure_eq_ok.mp hrest

theorem frame_addr : ∀ i < utrapSize / 8,
    uxstacktop - BitVec.ofNat 64 utrapSize + BitVec.ofNat 64 (8 * i) =
      uxstacktop - BitVec.ofNat 64 (8 * (34 - i + 1)) := by
  decide

theorem called_eq : f.called.mem = f.kern'.vm.mem ∧
    f.called.regs .sp = uxstacktop - BitVec.ofNat 64 utrapSize := by
  have hcall := f.call
  have hpop : (popTf (f.kern'.envs f.c).envTf).sp = (f.kern'.envs f.c).envTf.sp := by
    unfold popTf
    split <;> rfl
  simp only [UserCpu.run, pgfaultUpcallEntry, List.foldlM_cons, List.foldlM_nil, UserCpu.step,
    UserCpu.load, Option.bind_eq_bind, Option.bind_some, Option.pure_def, Option.bind_eq_some_iff,
    Option.map_eq_some_iff, Option.some.injEq] at hcall
  obtain ⟨u, ⟨word, -, rfl⟩, hu⟩ := hcall
  rw [← hu, ← f.kernel_frame.1, ← hpop]
  exact ⟨rfl, rfl⟩

theorem returned_word {i : Nat} {word : Word} (hi : i < utrapSize / 8)
    (hword : (Kern.faultFrame f.tf f.tf.stval)[34 - i]? = some word) :
    f.returned.mem (f.returned.regs .sp + BitVec.ofNat 64 (8 * i)) = some word := by
  obtain ⟨hsp, hframe⟩ := f.kernel_frame
  obtain ⟨hmem, hcalled⟩ := f.called_eq
  have hkept := f.returns.frame i hi
  rw [hsp, hmem, frame_addr i hi, hframe _ _ hword] at hkept
  rw [f.returns.saved .sp rfl, hcalled, frame_addr i hi, hkept]

end HandledFault

theorem UserCpu.run_append (u : UserCpu) (code rest : List Asm) :
    u.run (code ++ rest) = (u.run code).bind fun u => u.run rest := by
  simp [UserCpu.run, List.foldlM_append]

theorem UserCpu.run_loads {rs : List Reg} (hsp : .sp ∉ rs) {word : Reg → Word} (u : UserCpu)
    (hmem : ∀ r ∈ rs, u.mem (u.regs .sp + BitVec.ofNat 64 r.pt) = some (word r)) :
    u.run (rs.map fun r => .ld r r.pt .sp) =
      some { u with regs := fun r => if r ∈ rs then word r else u.regs r } := by
  induction rs generalizing u with
  | nil => rfl
  | cons r rs ih =>
      obtain ⟨hr, hrs⟩ : .sp ≠ r ∧ .sp ∉ rs := by simpa using hsp
      have hkeep : (u.set r (word r)).regs .sp = u.regs .sp := Function.update_of_ne hr _ _
      have hload : u.step (.ld r r.pt .sp) = some (u.set r (word r)) := by
        simp [UserCpu.step, UserCpu.load, hmem r List.mem_cons_self]
      have hrest := ih hrs (u.set r (word r)) fun r' hr' => by
        rw [hkeep]
        exact hmem r' (List.mem_cons_of_mem r hr')
      rw [List.map_cons, UserCpu.run, List.foldlM_cons, hload]
      refine hrest.trans ?_
      congr 2
      funext r'
      by_cases hin : r' ∈ rs
      · simp [hin]
      · by_cases heq : r' = r
        · simp [UserCpu.set, heq]
        · simp [UserCpu.set, hin, heq]

namespace HandledFault

variable (f : HandledFault)

def resumedRegs : Reg → Word
  | .gp => f.tf.sepc
  | .t1 => f.returned.regs .t1
  | .t2 => f.returned.regs .t2
  | r => f.tf.reg r

theorem run_return : f.returned.run pgfaultUpcallReturn =
    some { pc := f.tf.sepc, regs := f.resumedRegs, mem := f.returned.mem } := by
  have hreg : ∀ r : Reg, f.returned.mem (f.returned.regs .sp + BitVec.ofNat 64 r.pt) =
      some (f.tf.reg r) := by
    intro r
    have hword := f.returned_word (i := r.pt / 8) (by cases r <;> decide) (faultFrame_reg _ _ r)
    rwa [show 8 * (r.pt / 8) = r.pt by cases r <;> rfl] at hword
  have hepc : f.returned.mem (f.returned.regs .sp + BitVec.ofNat 64 utrapEpc) = some f.tf.sepc :=
    f.returned_word (i := 33) (by decide) rfl
  have hsp : f.returned.mem (f.returned.regs .sp + BitVec.ofNat 64 utrapSp) = some f.tf.sp :=
    f.returned_word (i := 34) (by decide) rfl
  have hloads := UserCpu.run_loads (by decide) (f.returned.set .t0 f.tf.sepc)
    fun r (_ : r ∈ restoredRegs) => hreg r
  have hfirst : f.returned.step (.ld .t0 utrapEpc .sp) = some (f.returned.set .t0 f.tf.sepc) := by
    simp [UserCpu.step, UserCpu.load, hepc]
  have hrestore : f.returned.run
      (.ld .t0 utrapEpc .sp :: restoredRegs.map fun r => .ld r r.pt .sp) =
      some { f.returned with regs := fun r =>
        if r ∈ restoredRegs then f.tf.reg r else (f.returned.set .t0 f.tf.sepc).regs r } := by
    rw [UserCpu.run, List.foldlM_cons, hfirst]
    exact hloads
  have hnot : Reg.sp ∉ restoredRegs ∧ Reg.t0 ∉ restoredRegs := by decide
  have hpc : f.tf.sepc &&& ~~~1 = f.tf.sepc := and_not_eq_self f.aligned
  have ht0 := hreg .t0
  rw [pgfaultUpcallReturn, UserCpu.run_append, hrestore, Option.bind_some]
  simp [UserCpu.run, UserCpu.step, UserCpu.load, UserCpu.set, UserCpu.target, hnot, ht0, hsp]
  refine ⟨hpc, funext fun r => ?_⟩
  cases r <;> simp [resumedRegs, restoredRegs, Trapframe.reg]

theorem invisible_iff_regs : f.Invisible ↔ ∀ r, f.resumedRegs r = f.tf.reg r := by
  unfold Invisible
  rw [f.run_return]
  constructor
  · rintro ⟨u, hu, -, hregs⟩
    cases hu
    exact hregs
  · exact fun hregs => ⟨_, rfl, rfl, hregs⟩

/-- The faulting code does not notice a handled fault exactly when its `gp` was the address of the
faulting instruction and the handler left `t1` and `t2` alone. -/
theorem invisible_iff : f.Invisible ↔
    f.tf.gp = f.tf.sepc ∧ f.returned.regs .t1 = f.tf.t1 ∧ f.returned.regs .t2 = f.tf.t2 := by
  rw [invisible_iff_regs]
  constructor
  · exact fun hregs => ⟨(hregs .gp).symm, hregs .t1, hregs .t2⟩
  · rintro ⟨hgp, ht1, ht2⟩ r
    cases r <;> simp [resumedRegs, Trapframe.reg, hgp, ht1, ht2]

def withUpcall (tf : Trapframe) : Kern where
  vm := Vm.ofEntries
    ([(entryAddr (pageKva 1) (pd0x (uxstacktop - 4)), pdeEntry (page2pa 2) ||| pteV),
      (entryAddr (pageKva 2) (pd1x (uxstacktop - 4)), pdeEntry (page2pa 3) ||| pteV),
      (entryAddr (pageKva 3) (pd2x (uxstacktop - 4)), pdeEntry (page2pa 4) ||| pteV),
      (entryAddr (pageKva 4) (ptx (uxstacktop - 4)),
        pteEntry (page2pa 5) ||| pteU ||| pteW ||| pteR ||| pteV),
      (entryAddr (pageKva 1) 0, pdeEntry (page2pa 6) ||| pteV),
      (entryAddr (pageKva 6) 0, pdeEntry (page2pa 7) ||| pteV),
      (entryAddr (pageKva 7) 0, pdeEntry (page2pa 9) ||| pteV),
      (entryAddr (pageKva 9) 1, pteEntry (page2pa 8) ||| pteU ||| pteX ||| pteW ||| pteR ||| pteV),
      (0x2000, 0x3000)] ++
    (List.range 35).map fun i => (uxstacktop - BitVec.ofNat 64 (8 * (i + 1)), 0))
  kernPgdir := pageKva 0
  envsAddr := uenvs
  envs := fun e =>
    if e = 0 then
      { envId := 0x1000, envStatus := .running, envPgdir := pageKva 1, envTf := tf,
        envPgfaultUpcall := 0x1000 }
    else {}
  envFreeList := some 1
  curenv := some 0
  sstatus := 0

/-- A fault at 0x1234, and a handler that changes no register but `ra`: it comes back with 0x1234 in
`gp`, where 0x5000 was. -/
theorem gp_lost : ∃ f : HandledFault, f.tf.sepc = 0x1234 ∧ f.tf.gp = 0x5000 ∧
    (∀ r, f.returned.regs r = f.called.regs r) ∧ f.returned.mem = f.called.mem ∧ ¬ f.Invisible := by
  let tf : Trapframe := { sepc := 0x1234, sp := 0x8000, gp := 0x5000, scause := 15, stval := 0x9000 }
  have hobs : ((withUpcall tf).pageFaultHandler 0).toOption.map
      (fun result => (result.1, result.2.vm.mem 0x2000)) = some (.run, some 0x3000) := by
    decide +kernel
  obtain ⟨⟨exit, kern'⟩, hkernel, hresult⟩ := exists_of_toOption_map hobs
  obtain ⟨rfl, hvar⟩ := Prod.mk.inj hresult
  replace hvar : kern'.vm.mem 0x2000#64 = some 0x3000 := hvar
  obtain ⟨called, hcall⟩ : ∃ called,
      (UserCpu.ofFrame (popTf (kern'.envs 0).envTf) kern'.vm.mem).run
        (pgfaultUpcallEntry 0x2000 0x100c) = some called := by
    simp [UserCpu.run, pgfaultUpcallEntry, UserCpu.step, UserCpu.load, UserCpu.set, UserCpu.ofFrame,
      hvar]
  let f : HandledFault :=
    { kern := withUpcall tf, kern' := kern', c := 0, handler := 0x2000, link := 0x100c
      called := called, returned := { called with pc := called.regs .ra }
      current := rfl, kernel := hkernel, aligned := by decide, outside := by decide
      call := hcall, returns := ⟨rfl, fun _ _ => rfl, fun _ _ => rfl⟩ }
  refine ⟨f, rfl, rfl, fun _ => rfl, rfl, fun hinvisible => ?_⟩
  have hgp : (0x1234 : Word) = 0x5000 := f.invisible_iff_regs.mp hinvisible .gp
  exact absurd hgp (by decide)

end HandledFault

end ZynexOS
