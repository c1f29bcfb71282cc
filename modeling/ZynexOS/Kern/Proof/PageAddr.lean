import ZynexOS.Kern.PageInit
import ZynexOS.Kern.Proof.Entries
import ZynexOS.Kern.Proof.PmapLemmas

/-!
# Page numbers and physical addresses

`PGNUM` takes 31 bits of an address, and folds all others onto these.
-/

namespace ZynexOS

open Library

def OfRam (npages : Nat) (pa : Word) : Prop :=
  2 ^ 31 ≤ pa.toNat ∧ pa.toNat < 2 ^ 31 + npages * 4096

namespace Vm

variable {vm : Vm} {pa : Word} {pp : Nat}

structure Inverts (vm : Vm) (pp : Nat) : Prop where
  ofRam : OfRam vm.npages (page2pa pp)
  aligned : (page2pa pp).toNat % 4096 = 0
  pa2page : vm.pa2page (page2pa pp) = .ok pp

structure Finds (vm : Vm) (pa : Word) : Prop where
  pa2page : vm.pa2page pa = .ok ((pa.toNat - 2 ^ 31) / 4096)
  kaddr : vm.kaddr pa = .ok (pa + kernbase)
  page2pa : pa.toNat % 4096 = 0 → page2pa ((pa.toNat - 2 ^ 31) / 4096) = pa

structure Refuses (vm : Vm) (pa : Word) : Prop where
  pa2page : vm.pa2page pa = .error (.pa2page pa)
  kaddr : vm.kaddr pa = .error (.kaddr pa)

def Translates (vm : Vm) (pa : Word) : Prop :=
  (OfRam vm.npages pa → vm.Finds pa) ∧ (¬OfRam vm.npages pa → vm.Refuses pa)

theorem pgnum_page2pa_mod (pp : Nat) : pgnum (page2pa pp) = pp % 2 ^ 19 := by
  have hoff : phymemoff.toNat = 2 ^ 31 := rfl
  rw [pgnum_eq, page2pa, BitVec.toNat_add, toNat_shiftLeft, BitVec.toNat_ofNat, hoff]
  omega

theorem page2pa_aligned (pp : Nat) : (page2pa pp).toNat % 4096 = 0 := by
  have hoff : phymemoff.toNat = 2 ^ 31 := rfl
  rw [page2pa, BitVec.toNat_add, toNat_shiftLeft, BitVec.toNat_ofNat, hoff]
  omega

theorem inverts_iff (hpp : pp < vm.npages) : vm.Inverts pp ↔ pp < 2 ^ 19 := by
  constructor
  · intro hinv
    have hfound := (pa2page_eq_ok.mp hinv.pa2page).2
    rw [pgnum_page2pa_mod] at hfound
    omega
  · intro hlt
    refine ⟨⟨?_, ?_⟩, page2pa_aligned pp, pa2page_eq_ok.mpr ?_⟩
    · rw [page2pa_toNat hlt]
      omega
    · rw [page2pa_toNat hlt]
      omega
    · rw [pgnum_page2pa hlt]
      exact ⟨hpp, rfl⟩

theorem refuses_iff : vm.Refuses pa ↔ vm.npages ≤ pgnum pa := by
  refine ⟨fun hrefuse => ?_, fun hle => ⟨if_pos hle, if_pos hle⟩⟩
  by_contra hlt
  have hfound : vm.pa2page pa = .ok (pgnum pa) := if_neg hlt
  exact absurd (hfound.symm.trans hrefuse.pa2page) nofun

theorem finds_of_inRam (hram : InRam pa) (hlt : pgnum pa < vm.npages) : vm.Finds pa := by
  have hpage : pgnum pa = (pa.toNat - 2 ^ 31) / 4096 := by
    rw [pgnum_eq]
    unfold InRam at hram
    omega
  refine ⟨pa2page_eq_ok.mpr ⟨hlt, hpage.symm⟩, kaddr_eq_ok.mpr ⟨hlt, rfl⟩, fun haligned => ?_⟩
  have hbound := pgnum_lt pa
  apply BitVec.eq_of_toNat_eq
  rw [← hpage, page2pa_toNat hbound, hpage]
  unfold InRam at hram
  omega

theorem translates_iff :
    vm.Translates pa ↔ InRam pa ∨ vm.npages * 4096 ≤ pa.toNat % 2 ^ 31 := by
  have hpage := pgnum_eq pa
  constructor
  · intro htrans
    by_contra hnot
    obtain ⟨hout, hfold⟩ := not_or.mp hnot
    by_cases hram : OfRam vm.npages pa
    · -- above the two gigabytes
      have hfound := (pa2page_eq_ok.mp (htrans.1 hram).pa2page).2
      unfold InRam at hout
      unfold OfRam at hram
      omega
    · have hle := refuses_iff.mp (htrans.2 hram)
      omega
  · rintro (hram | hfold)
    · refine ⟨fun hof => finds_of_inRam hram ?_, fun hof => refuses_iff.mpr ?_⟩
      · unfold InRam at hram
        unfold OfRam at hof
        omega
      · unfold InRam at hram
        unfold OfRam at hof
        omega
    · refine ⟨fun hof => ?_, fun _ => refuses_iff.mpr (by omega)⟩
      refine finds_of_inRam ⟨hof.1, ?_⟩ ?_
      · unfold OfRam at hof
        omega
      · unfold OfRam at hof
        omega

theorem ptePhy_pteEntry_of_aligned (haligned : pa.toNat % 4096 = 0) :
    ptePhy (pteEntry pa) = pa := by
  have hlt := pa.isLt
  apply BitVec.eq_of_toNat_eq
  rw [ptePhy, toNat_shiftLeft, toNat_shiftRight, pteEntry, toNat_shiftLeft, toNat_shiftRight]
  omega

/-- Which page numbers and which addresses are translated as they should be; entries always are. -/
theorem pageInfo_bijection_iff (vm : Vm) :
    (∀ pp < vm.npages, vm.Inverts pp ↔ pp < 2 ^ 19) ∧
    (∀ pa, vm.Translates pa ↔ InRam pa ∨ vm.npages * 4096 ≤ pa.toNat % 2 ^ 31) ∧
    ∀ pa flags : Word, pa.toNat % 4096 = 0 → flags.toNat < 2 ^ 10 →
      ptePhy (pteEntry pa ||| flags) = pa := by
  refine ⟨fun pp hpp => inverts_iff hpp, fun pa => translates_iff, fun pa flags haligned hflags => ?_⟩
  rw [ptePhy_or_flags _ hflags, ptePhy_pteEntry_of_aligned haligned]

/-- With 256 MB of RAM the last page is found, the flash is refused and an entry is read back. -/
theorem pageInfo_bijection_256MB :
    (clearedPages 65536 fun _ => none).Inverts 65535 ∧
      (clearedPages 65536 fun _ => none).Translates 0x20000000 ∧
      ptePhy (pteEntry 0x80001000 ||| 0xcf) = 0x80001000 := by
  obtain ⟨hpages, haddrs, hentries⟩ := pageInfo_bijection_iff (clearedPages 65536 fun _ => none)
  exact ⟨(hpages 65535 (by decide)).mpr (by decide), (haddrs 0x20000000).mpr (.inr (by decide)),
    hentries 0x80001000 0xcf (by decide) (by decide)⟩

/-- Low memory is taken for RAM, and so is the flash when there is 1 GB of RAM. -/
theorem pa2page_outside_ram :
    (¬OfRam 65536 0x1000 ∧ (clearedPages 65536 fun _ => none).pa2page 0x1000 = .ok 1 ∧
      (clearedPages 65536 fun _ => none).kaddr 0x1000 = .ok (0x1000 + kernbase)) ∧
    ¬OfRam 0x40000 0x20000000 ∧
      (clearedPages 0x40000 fun _ => none).pa2page 0x20000000 = .ok 0x20000 := by
  refine ⟨⟨fun h => ?_, by decide, by decide⟩, fun h => ?_, by decide⟩
  · exact absurd h.1 (by decide)
  · exact absurd h.1 (by decide)

end Vm

end ZynexOS
