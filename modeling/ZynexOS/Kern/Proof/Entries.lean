import ZynexOS.Kern.Syscall
import ZynexOS.Kern.Proof.LayoutLemmas

/-! # Entries built from a checked permission -/

namespace ZynexOS

open Library
variable {perm : BitVec 32} {pp : Nat}

def flagBits (entry : Word) : Word := entry &&& Vm.insertMask

def InRam (pa : Word) : Prop := 2 ^ 31 ≤ pa.toNat ∧ pa.toNat < 2 ^ 32

theorem ptePhy_toNat_mod (entry : Word) : (ptePhy entry).toNat % 2 ^ 12 = 0 := by
  rw [ptePhy, toNat_shiftLeft]
  omega

theorem page2pa_pgnum_ptePhy {entry : Word} :
    page2pa (pgnum (ptePhy entry)) = ptePhy entry ↔ InRam (ptePhy entry) := by
  have hpage := page2pa_toNat (pgnum_lt (ptePhy entry))
  have haligned := ptePhy_toNat_mod entry
  have hbound := pgnum_lt (ptePhy entry)
  rw [pgnum_eq] at hpage hbound
  constructor
  · intro heq
    rw [pgnum_eq] at heq
    have hnat := congrArg BitVec.toNat heq
    unfold InRam
    omega
  · rintro ⟨hlow, hhigh⟩
    apply BitVec.eq_of_toNat_eq
    rw [pgnum_eq]
    omega

theorem permOk_iff :
    permOk perm = true ↔ perm &&& pteSyscall.setWidth 32 = perm := by
  rw [permOk, decide_eq_true_iff]
  exact and_not_eq_zero_iff

theorem permOk_toNat_lt (hperm : permOk perm) : perm.toNat < 2 ^ 10 := by
  have hle : (perm &&& pteSyscall.setWidth 32).toNat ≤ (pteSyscall.setWidth 32).toNat := by
    rw [BitVec.toNat_and]
    exact Nat.and_le_right
  have hval : (pteSyscall.setWidth 32).toNat = 799 := rfl
  rw [permOk_iff.mp hperm] at hle
  omega

theorem signExtend_of_lt (hlt : perm.toNat < 2 ^ 10) :
    perm.signExtend 64 = perm.setWidth 64 := by
  apply BitVec.signExtend_eq_setWidth_of_msb_false
  rw [BitVec.msb_eq_false_iff_two_mul_lt]
  omega

theorem signExtend_of_permOk (hperm : permOk perm) :
    perm.signExtend 64 = perm.setWidth 64 :=
  signExtend_of_lt (permOk_toNat_lt hperm)

theorem setWidth_and_pteSyscall (hperm : permOk perm) :
    perm.setWidth 64 &&& ~~~pteSyscall = 0#64 := by
  have hwide : (pteSyscall.setWidth 32).setWidth 64 = pteSyscall := by decide
  have hmask := congrArg (BitVec.setWidth 64) (permOk_iff.mp hperm)
  rw [BitVec.setWidth_and, hwide] at hmask
  exact and_not_eq_zero_iff.mpr hmask

def entryFlags (perm : BitVec 32) : Word := perm.setWidth 64 ||| pteV

theorem newEntry_eq (hperm : permOk perm) :
    Vm.newEntry pp perm = pteEntry (page2pa pp) ||| entryFlags perm := by
  rw [Vm.newEntry, signExtend_of_permOk hperm, BitVec.or_assoc, entryFlags]

theorem entryFlags_toNat_lt (hperm : permOk perm) : (entryFlags perm).toNat < 2 ^ 10 := by
  rw [entryFlags, BitVec.toNat_or, BitVec.toNat_setWidth]
  apply Nat.or_lt_two_pow
  · have hlt := permOk_toNat_lt hperm
    omega
  · decide

theorem entryFlags_and_pteSyscall (hperm : permOk perm) :
    entryFlags perm &&& ~~~pteSyscall = 0#64 := by
  have hvalid : pteV &&& ~~~pteSyscall = 0#64 := by decide
  rw [entryFlags, BitVec.and_comm, BitVec.and_or_distrib_left, BitVec.and_comm _ pteV, hvalid,
    BitVec.and_comm, setWidth_and_pteSyscall hperm, BitVec.or_zero]

theorem and_insertMask_of_lt {flags : Word} (hflags : flags.toNat < 2 ^ 10) :
    flags &&& Vm.insertMask = flags := by
  apply BitVec.eq_of_getLsbD_eq
  intro i hi
  rw [BitVec.getLsbD_and, insertMask_getLsbD hi]
  by_cases hlow : i < 10
  · simp [hlow]
  · rw [getLsbD_eq_false_of_lt hflags (Nat.le_of_not_lt hlow), Bool.false_and]

theorem flagBits_newEntry (hpp : pp < 2 ^ 19) (hperm : permOk perm) :
    flagBits (Vm.newEntry pp perm) = entryFlags perm := by
  rw [flagBits, newEntry_eq hperm, BitVec.and_comm, BitVec.and_or_distrib_left,
    BitVec.and_comm _ (pteEntry _), pteEntry_and_insertMask hpp, BitVec.and_comm,
    and_insertMask_of_lt (entryFlags_toNat_lt hperm), BitVec.zero_or]

theorem ptePhy_newEntry (hpp : pp < 2 ^ 19) (hperm : permOk perm) :
    ptePhy (Vm.newEntry pp perm) = page2pa pp := by
  rw [newEntry_eq hperm, ptePhy_or_flags _ (entryFlags_toNat_lt hperm), ptePhy_pteEntry hpp]

theorem newEntry_and_pteW (hperm : permOk perm)
    (hwrite : Vm.newEntry pp perm &&& pteW ≠ 0) : perm &&& pteW.setWidth 32 ≠ 0 := by
  intro hnone
  apply hwrite
  have hfield : pteEntry (page2pa pp) &&& pteW = 0#64 := by
    apply shiftLeft_and_eq_zero
    decide
  have hwide := congrArg (BitVec.setWidth 64) hnone
  rw [BitVec.setWidth_and, show (pteW.setWidth 32).setWidth 64 = pteW by decide] at hwide
  have hvalid : pteV &&& pteW = 0#64 := by decide
  rw [newEntry_eq hperm, entryFlags, BitVec.and_comm, BitVec.and_or_distrib_left,
    BitVec.and_or_distrib_left, BitVec.and_comm _ (pteEntry _), hfield, BitVec.and_comm _ pteV,
    hvalid, BitVec.and_comm]
  simpa using hwide

end ZynexOS
