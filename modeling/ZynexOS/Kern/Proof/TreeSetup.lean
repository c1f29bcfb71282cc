import ZynexOS.Kern.Proof.TreeFree

/-! # A new address space -/

namespace ZynexOS

open Library

def Pt.copy (pt : Pt) (kd c : Nat) (slots : List Nat) : Pt :=
  { pt with word := fun p i => if p = c ∧ i ∈ slots then pt.word kd i else pt.word p i }

namespace Vm.Shows

variable {vm : Vm} {n kd c : Nat} {pt : Pt} {T : Tables} {fixed : Nat → Nat → Bool}

theorem foldlM_copySlot (hs : vm.Shows n pt) (hkd : kd < n) (hc : c < n) (hne : kd ≠ c)
    {slots : List Nat} (hslots : ∀ i ∈ slots, i < 512) :
    ∃ vm', slots.foldlM (Kern.copySlot (pageKva kd) (pageKva c)) vm = .ok vm' ∧
      vm'.Shows n (pt.copy kd c slots) := by
  induction slots generalizing vm pt with
  | nil =>
      refine ⟨vm, rfl, ?_⟩
      have hsame : pt.copy kd c [] = pt := by simp [Pt.copy]
      rwa [hsame]
  | cons i slots ih =>
      have hi := hslots i List.mem_cons_self
      obtain ⟨mid, hstore, hmid⟩ := hs.store hc hi (pt.word kd i)
      obtain ⟨vm', hrest, hshows⟩ := ih hmid fun j hj => hslots j (List.mem_cons_of_mem i hj)
      have hsame : (pt.setWord c i (pt.word kd i)).copy kd c slots = pt.copy kd c (i :: slots) := by
        simp only [Pt.copy, Pt.setWord, Pt.mk.injEq, and_true]
        funext p j
        by_cases hp : p = c
        · by_cases hj : j = i
          · simp [hp, hj, hne]
          · simp [hp, hj, hne]
        · simp [hp]
      rw [hsame] at hshows
      refine ⟨vm', ?_, hshows⟩
      rw [List.foldlM_cons, Kern.copySlot, entryAddr_pageKva, entryAddr_pageKva, hs.load hkd hi,
        ok_bind, hstore, ok_bind, hrest]

theorem envSetupVm {k : Kern} {rest : List Nat} (hs : k.vm.Shows n T.toPt) (h : Forest n kd fixed T)
    (hkern : k.kernPgdir = pageKva kd) (hfree : T.free = c :: rest) :
    ∃ vm', k.envSetupVm = .ok (some (pageKva c), vm') ∧ vm'.Shows n (T.addDir kd c).toPt := by
  have hmem : c ∈ T.free := by simp [hfree]
  have hc := (h.free c hmem).1
  have hkd := (h.table kd kd h.kern.1).1
  have hne : kd ≠ c := by
    rintro rfl
    exact (h.table kd kd h.kern.1).2.1 hmem
  have hslots : ∀ i ∈ Kern.setupSlots, i < 512 := by decide
  obtain ⟨vm₁, halloc, hs₁⟩ := hs.pageAlloc_zero hfree
  obtain ⟨vm₂, hcopy, hs₂⟩ := (hs₁.incRef c).foldlM_copySlot hkd hc hne hslots
  obtain ⟨vm₃, hstore, hs₃⟩ := hs₂.store hc (pd0x_lt uvpt) (page2pa c ||| pteV)
  refine ⟨vm₃, ?_, ?_⟩
  · have hself : pageKva c - kernbase ||| pteV = page2pa c ||| pteV := by
      rw [pageKva, BitVec.add_sub_cancel]
    simp only [Kern.envSetupVm, halloc, ok_bind, hs₁.kaddr hc, hkern, hcopy, hself,
      entryAddr_pageKva, hstore]
    rfl
  · have hsame : ((((T.pop.zero c).setRef c ((T.pop.zero c).ref c + 1)).copy kd c
        Kern.setupSlots).setWord c (pd0x uvpt) (page2pa c ||| pteV)) = (T.addDir kd c).toPt := by
      simp only [Pt.copy, Pt.setWord, Pt.setRef, Pt.zero, Pt.pop, Tables.addDir, Pt.take,
        Pt.mk.injEq, and_true]
      funext p i
      by_cases hp : p = c
      · by_cases hi : i = pd0x uvpt
        · simp [hp, hi]
        · simp [hp, hi, hne]
      · simp [hp]
    rwa [hsame] at hs₃

theorem envSetupVm_full {k : Kern} (hs : k.vm.Shows n T.toPt) (hfree : T.free = []) :
    k.envSetupVm = .ok (none, k.vm) := by
  rw [Kern.envSetupVm, hs.pageAlloc_none hfree true]
  rfl

end Vm.Shows

end ZynexOS
