import ZynexOS.Kern.Pmap
import ZynexOS.Library.Bits

/-! # Arithmetic of addresses and page-table entries -/

namespace ZynexOS

open Library

theorem pgnum_eq (pa : Word) : pgnum pa = pa.toNat % 2 ^ 31 / 2 ^ 12 := by
  rw [pgnum, toNat_shiftRight, toNat_and_mask pa 0x7fffffff (n := 31) rfl]

theorem pgnum_lt (pa : Word) : pgnum pa < 2 ^ 19 := by
  rw [pgnum_eq]
  omega

theorem page2pa_toNat {pp : Nat} (hpp : pp < 2 ^ 19) :
    (page2pa pp).toNat = pp * 4096 + 2 ^ 31 := by
  have hoff : phymemoff.toNat = 2 ^ 31 := rfl
  rw [page2pa, BitVec.toNat_add, toNat_shiftLeft, BitVec.toNat_ofNat, hoff]
  omega

theorem pgnum_page2pa {pp : Nat} (hpp : pp < 2 ^ 19) : pgnum (page2pa pp) = pp := by
  rw [pgnum_eq, page2pa_toNat hpp]
  omega

theorem rounddown_toNat (addr : Word) :
    (rounddown addr pgSize).toNat = addr.toNat - addr.toNat % 4096 := by
  have hsize : (BitVec.ofNat 64 pgSize).toNat = 4096 := rfl
  have hlt := addr.isLt
  rw [rounddown, BitVec.toNat_sub, BitVec.toNat_umod, hsize]
  omega

theorem roundup_toNat_mod (addr : Word) : (roundup addr pgSize).toNat % 4096 = 0 := by
  rw [roundup, rounddown_toNat]
  omega

theorem roundup_of_aligned {addr : Word} (haddr : addr.toNat % 4096 = 0) :
    roundup addr pgSize = addr := by
  have hlt := addr.isLt
  have hone : (1 : Word).toNat = 1 := rfl
  have hsum : (addr + BitVec.ofNat 64 pgSize - 1).toNat = addr.toNat + 4095 := by
    rw [BitVec.toNat_sub, BitVec.toNat_add, BitVec.toNat_ofNat, hone, pgSize]
    omega
  apply BitVec.eq_of_toNat_eq
  rw [roundup, rounddown_toNat, hsum]
  omega

theorem pteEntry_page2pa_toNat {pp : Nat} (hpp : pp < 2 ^ 19) :
    (pteEntry (page2pa pp)).toNat = (pp + 2 ^ 19) * 1024 := by
  rw [pteEntry, toNat_shiftLeft, toNat_shiftRight, page2pa_toNat hpp]
  omega

theorem ptePhy_or_flags (entry : Word) {flags : Word} (hflags : flags.toNat < 2 ^ 10) :
    ptePhy (entry ||| flags) = ptePhy entry := by
  have hzero : flags >>> 10 = 0#64 := ushiftRight_eq_zero_of_lt hflags
  rw [ptePhy, BitVec.ushiftRight_or_distrib, hzero, BitVec.or_zero, ptePhy]

theorem ptePhy_pteEntry {pp : Nat} (hpp : pp < 2 ^ 19) :
    ptePhy (pteEntry (page2pa pp)) = page2pa pp := by
  apply BitVec.eq_of_toNat_eq
  rw [ptePhy, toNat_shiftLeft, toNat_shiftRight, pteEntry_page2pa_toNat hpp, page2pa_toNat hpp]
  omega

theorem insertMask_getLsbD {i : Nat} (hi : i < 64) :
    Vm.insertMask.getLsbD i = (decide (i < 10) || decide (54 ≤ i)) := by
  revert i
  decide

theorem pteEntry_and_insertMask {pp : Nat} (hpp : pp < 2 ^ 19) :
    pteEntry (page2pa pp) &&& Vm.insertMask = 0#64 := by
  have hsmall : (pteEntry (page2pa pp)).toNat < 2 ^ 30 := by
    rw [pteEntry_page2pa_toNat hpp]
    omega
  apply BitVec.eq_of_getLsbD_eq
  intro i hi
  rw [BitVec.getLsbD_and, insertMask_getLsbD hi, BitVec.getLsbD_zero]
  by_cases hlow : i < 10
  · rw [pteEntry, BitVec.getLsbD_shiftLeft]
    simp [hlow]
  · by_cases hhigh : 54 ≤ i
    · rw [getLsbD_eq_false_of_lt hsmall (by omega), Bool.false_and]
    · simp [hlow, hhigh]

end ZynexOS
