import ZynexOS.Kern.PageTree
import ZynexOS.Kern.Proof.PmapLemmas

/-! # The words of physical pages -/

namespace ZynexOS

open Library Function

theorem pageKva_toNat {p : Nat} (hp : p < 2 ^ 19) :
    (pageKva p).toNat = 2 ^ 64 - 2 ^ 31 + 4096 * p := by
  have hbase : kernbase.toNat = 2 ^ 64 - 2 ^ 32 := rfl
  rw [pageKva, BitVec.toNat_add, page2pa_toNat hp, hbase]
  omega

theorem entryAddr_pageKva (p i : Nat) : entryAddr (pageKva p) i = slotAddr p i := rfl

theorem slotAddr_toNat {p i : Nat} (hp : p < 2 ^ 19) (hi : i < 512) :
    (slotAddr p i).toNat = 2 ^ 64 - 2 ^ 31 + 4096 * p + 8 * i := by
  rw [slotAddr, entryAddr, BitVec.toNat_add, pageKva_toNat hp, BitVec.toNat_ofNat]
  omega

theorem slotAddr_inj {p p' i i' : Nat} (hp : p < 2 ^ 19) (hi : i < 512) (hp' : p' < 2 ^ 19)
    (hi' : i' < 512) (heq : slotAddr p i = slotAddr p' i') : p = p' ∧ i = i' := by
  have hnat := congrArg BitVec.toNat heq
  rw [slotAddr_toNat hp hi, slotAddr_toNat hp' hi'] at hnat
  omega

theorem pd0x_eq (va : Word) : pd0x va = va.toNat / 2 ^ 39 % 2 ^ 9 := by
  rw [pd0x, toNat_and_mask _ 0x1ff (n := 9) rfl, toNat_shiftRight]

theorem pd0x_lt (va : Word) : pd0x va < 512 := by
  rw [pd0x_eq]
  omega

theorem pd1x_eq (va : Word) : pd1x va = va.toNat / 2 ^ 30 % 2 ^ 9 := by
  rw [pd1x, toNat_and_mask _ 0x1ff (n := 9) rfl, toNat_shiftRight]

theorem pd1x_lt (va : Word) : pd1x va < 512 := by
  rw [pd1x_eq]
  omega

theorem pd2x_eq (va : Word) : pd2x va = va.toNat / 2 ^ 21 % 2 ^ 9 := by
  rw [pd2x, toNat_and_mask _ 0x1ff (n := 9) rfl, toNat_shiftRight]

theorem pd2x_lt (va : Word) : pd2x va < 512 := by
  rw [pd2x_eq]
  omega

theorem ptx_eq (va : Word) : ptx va = va.toNat / 2 ^ 12 % 2 ^ 9 := by
  rw [ptx, toNat_and_mask _ 0x1ff (n := 9) rfl, toNat_shiftRight]

theorem ptx_lt (va : Word) : ptx va < 512 := by
  rw [ptx_eq]
  omega

theorem vpn_toNat (va : Word) : (vpn va).toNat = va.toNat / 2 ^ 12 % 2 ^ 36 := by
  rw [vpn, toNat_and_mask _ _ (n := 36) rfl, toNat_shiftRight]

theorem vpn_eq_iff {va va' : Word} : vpn va' = vpn va ↔ path va' = path va ∧ ptx va' = ptx va := by
  have hnat : vpn va' = vpn va ↔ va'.toNat / 2 ^ 12 % 2 ^ 36 = va.toNat / 2 ^ 12 % 2 ^ 36 := by
    rw [← vpn_toNat, ← vpn_toNat]
    exact ⟨congrArg BitVec.toNat, BitVec.eq_of_toNat_eq⟩
  rw [hnat]
  simp only [path, List.cons.injEq, and_true, pd0x_eq, pd1x_eq, pd2x_eq, ptx_eq]
  omega

theorem Vm.pgdirWalkThrough_congr {va va' : Word} (hsame : vpn va' = vpn va) (vm : Vm) (pgdir : Word) :
    vm.pgdirWalkThrough pgdir va' = vm.pgdirWalkThrough pgdir va := by
  obtain ⟨hpath, hptx⟩ := vpn_eq_iff.mp hsame
  simp only [path, List.cons.injEq, and_true] at hpath
  obtain ⟨h₀, h₁, h₂⟩ := hpath
  simp only [Vm.pgdirWalkThrough, h₀, h₁, h₂, hptx]

theorem zero_and_pteV : (0 : Word) &&& pteV = 0 := by decide

theorem pdeEntry_or_pteV (c : Nat) : pdeEntry (page2pa c) ||| pteV = link c := rfl

theorem or_pteV_and_pteV_ne (w : Word) : (w ||| pteV) &&& pteV ≠ 0 := by
  rw [BitVec.and_or_distrib_right, BitVec.and_self]
  intro hzero
  have hbit := congrArg (fun w => BitVec.getLsbD w 0) hzero
  simp [pteV] at hbit

theorem link_and_pteV_ne {c : Nat} : link c &&& pteV ≠ 0 := or_pteV_and_pteV_ne _

theorem link_ne_zero {c : Nat} : link c ≠ 0 := by
  intro hzero
  apply link_and_pteV_ne (c := c)
  rw [hzero]
  exact BitVec.zero_and

theorem pdePhy_link {c : Nat} (hc : c < 2 ^ 19) : pdePhy (link c) = page2pa c :=
  (ptePhy_or_flags (pteEntry (page2pa c)) (by decide)).trans (ptePhy_pteEntry hc)

theorem link_inj {c c' : Nat} (hc : c < 2 ^ 19) (hc' : c' < 2 ^ 19) (heq : link c = link c') :
    c = c' := by
  have hpage := congrArg (fun w => pgnum (pdePhy w)) heq
  simpa only [pdePhy_link hc, pdePhy_link hc', pgnum_page2pa hc, pgnum_page2pa hc'] using hpage

theorem pteAddr_link {c : Nat} (hc : c < 2 ^ 19) : pteAddr (link c) = page2pa c := by
  have hsmall : (link c).toNat < 2 ^ 30 := by
    rw [link, BitVec.toNat_or]
    apply Nat.or_lt_two_pow
    · exact lt_of_eq_of_lt (pteEntry_page2pa_toNat hc) (by omega)
    · decide
  have hkeep : (link c &&& ~~~0xff800000000003ff) >>> 10 = link c >>> 10 := by
    apply BitVec.eq_of_toNat_eq
    rw [BitVec.ushiftRight_and_distrib, toNat_and_mask _ _ (n := 45) rfl, toNat_shiftRight]
    omega
  rw [pteAddr, ptePhy, hkeep]
  exact pdePhy_link hc

namespace Vm.Shows

variable {vm vm' : Vm} {n : Nat} {pt : Pt} {p i c : Nat} {w : Word}
variable {rest : List Nat}

theorem kaddr (h : vm.Shows n pt) (hp : p < n) : vm.kaddr (page2pa p) = .ok (pageKva p) := by
  rw [kaddr_eq_ok, pgnum_page2pa (lt_of_lt_of_le hp h.bound), h.npages]
  exact ⟨hp, rfl⟩

theorem pa2page (h : vm.Shows n pt) (hp : p < n) : vm.pa2page (page2pa p) = .ok p := by
  rw [pa2page_eq_ok, pgnum_page2pa (lt_of_lt_of_le hp h.bound), h.npages]
  exact ⟨hp, rfl⟩

theorem load (h : vm.Shows n pt) (hp : p < n) (hi : i < 512) :
    vm.load (slotAddr p i) = .ok (pt.word p i) :=
  load_eq_ok.mpr (h.word p hp i hi)

theorem store (h : vm.Shows n pt) (hp : p < n) (hi : i < 512) (w : Word) :
    ∃ vm', vm.store (slotAddr p i) w = .ok vm' ∧ vm'.Shows n (pt.setWord p i w) := by
  refine ⟨_, store_eq_ok.mpr ⟨?_, rfl⟩, ⟨h.npages, h.bound, ?_, h.ref, h.list, h.nodup, h.free,
    h.unlinked⟩⟩
  · rw [h.word p hp i hi]
    rfl
  · intro p' hp' i' hi'
    simp only [Pt.setWord]
    by_cases hsame : p' = p ∧ i' = i
    · obtain ⟨rfl, rfl⟩ := hsame
      simp
    · rw [if_neg hsame, update_of_ne, h.word p' hp' i' hi']
      exact fun heq => hsame (slotAddr_inj (lt_of_lt_of_le hp' h.bound) hi'
        (lt_of_lt_of_le hp h.bound) hi heq)

theorem setRef (h : vm.Shows n pt) (p : Nat) (r : BitVec 16) :
    (vm.setPage p { vm.pages p with ppRef := r }).Shows n (pt.setRef p r) := by
  have hlink : ∀ q, ((vm.setPage p { vm.pages p with ppRef := r }).pages q).ppLink =
      (vm.pages q).ppLink := by
    intro q
    by_cases hq : q = p
    · simp [setPage, hq]
    · simp [setPage, hq]
  refine ⟨h.npages, h.bound, h.word, ?_, h.list.congr fun q _ => hlink q, h.nodup, h.free,
    fun q hq => (hlink q).trans (h.unlinked q hq)⟩
  intro q
  by_cases hq : q = p
  · simp [setPage, Pt.setRef, hq]
  · simp [setPage, Pt.setRef, hq, h.ref]

theorem incRef (h : vm.Shows n pt) (p : Nat) :
    (vm.incRef p).Shows n (pt.setRef p (pt.ref p + 1)) := by
  rw [← h.ref p]
  exact h.setRef p _

theorem sub_lt_pgSize {p c i : Nat} (hp : p < 2 ^ 19) (hi : i < 512) (hc : c < 2 ^ 19) :
    (slotAddr p i - pageKva c).toNat < pgSize ↔ p = c := by
  rw [BitVec.toNat_sub, slotAddr_toNat hp hi, pageKva_toNat hc, pgSize]
  omega

section

variable (h : vm.Shows n pt)
include h

theorem memsetPage (hp : p < n) :
    ∃ vm', vm.memsetPage (pageKva p) = .ok vm' ∧ vm'.Shows n (pt.zero p) := by
  have hmapped : (List.range 512).find? (fun i => vm.mem (entryAddr (pageKva p) i) = none) = none := by
    rw [List.find?_eq_none]
    intro i hi
    have hword : vm.mem (entryAddr (pageKva p) i) = some (pt.word p i) :=
      h.word p hp i (List.mem_range.mp hi)
    simp [hword]
  have hresult : vm.memsetPage (pageKva p) = .ok { vm with
      mem := fun addr => if (addr - pageKva p).toNat < pgSize then some 0 else vm.mem addr } := by
    unfold Vm.memsetPage
    rw [hmapped]
  refine ⟨_, hresult, ⟨h.npages, h.bound, ?_, h.ref, h.list, h.nodup, h.free, h.unlinked⟩⟩
  intro p' hp' i hi
  have hpage := sub_lt_pgSize (lt_of_lt_of_le hp' h.bound) hi (lt_of_lt_of_le hp h.bound)
  simp only [Pt.zero]
  by_cases hsame : p' = p
  · rw [if_pos (hpage.mpr hsame), if_pos hsame]
  · rw [if_neg fun hlt => hsame (hpage.mp hlt), if_neg hsame, h.word p' hp' i hi]

theorem pop {c : Nat} (hfree : pt.free = c :: rest) :
    ({ vm with pageFreeList := (vm.pages c).ppLink }.setPage c
      { vm.pages c with ppLink := none }).Shows n pt.pop where
  npages := h.npages
  bound := h.bound
  word := h.word
  ref q := by
    simp only [setPage, Pt.pop]
    by_cases hq : q = c
    · subst hq
      simp [h.ref]
    · simp [hq, h.ref]
  list := by
    have hlist := h.list
    have hnodup := h.nodup
    rw [hfree] at hlist hnodup
    simp only [Pt.pop, hfree, List.tail_cons]
    refine hlist.2.congr fun q hq => ?_
    have hne : q ≠ c := fun heq => (List.nodup_cons.mp hnodup).1 (heq ▸ hq)
    simp [setPage, hne]
  nodup := by
    have hnodup := h.nodup
    rw [hfree] at hnodup
    simpa only [Pt.pop, hfree, List.tail_cons] using (List.nodup_cons.mp hnodup).2
  free q hq := h.free q (List.mem_of_mem_tail hq)
  unlinked q hq := by
    by_cases hqc : q = c
    · simp [setPage, hqc]
    · simp only [Pt.pop, hfree, List.tail_cons] at hq
      simp only [setPage, ne_eq, hqc, not_false_eq_true, update_of_ne]
      refine h.unlinked q ?_
      rw [hfree, List.mem_cons]
      exact fun hmem => hmem.elim hqc hq

theorem pageAlloc_none (hfree : pt.free = []) (zero : Bool) :
    vm.pageAlloc zero = .ok (none, vm) := by
  have hlist := h.list
  rw [hfree] at hlist
  rw [pageAlloc, hlist]

theorem pageFreeList_cons (hfree : pt.free = c :: rest) : vm.pageFreeList = some c := by
  have hlist := h.list
  rw [hfree] at hlist
  exact hlist.1

theorem pageAlloc_zero (hfree : pt.free = c :: rest) :
    ∃ vm', vm.pageAlloc true = .ok (some c, vm') ∧ vm'.Shows n (pt.pop.zero c) := by
  have hc : c < n := h.free c (by simp [hfree])
  obtain ⟨vm', hset, hshows⟩ := (h.pop hfree).memsetPage hc
  refine ⟨vm', ?_, hshows⟩
  simp only [pageAlloc, h.pageFreeList_cons hfree]
  rw [if_pos trivial, (h.pop hfree).kaddr hc, ok_bind, hset]
  rfl

theorem pageAlloc_dirty (hfree : pt.free = c :: rest) :
    ∃ vm', vm.pageAlloc false = .ok (some c, vm') ∧ vm'.Shows n pt.pop := by
  refine ⟨_, ?_, h.pop hfree⟩
  simp only [pageAlloc, h.pageFreeList_cons hfree]
  rfl

theorem take (hfree : pt.free = c :: rest) :
    ∃ vm', vm.pageAlloc true = .ok (some c, vm') ∧ (vm'.incRef c).Shows n (pt.take c) := by
  obtain ⟨vm', halloc, hshows⟩ := h.pageAlloc_zero hfree
  exact ⟨vm', halloc, hshows.incRef c⟩

theorem pageFree (hp : p < n) (hfree : p ∉ pt.free) (href : pt.ref p = 0) :
    ∃ vm', vm.pageFree p = .ok vm' ∧ vm'.Shows n (pt.push p) := by
  have hresult : vm.pageFree p = .ok { vm.setPage p { vm.pages p with ppLink := vm.pageFreeList } with
      pageFreeList := some p } := by
    rw [Vm.pageFree, if_neg (by simp [h.ref, href]), if_neg (by simp [h.unlinked p hfree])]
  refine ⟨_, hresult, h.npages, h.bound, h.word, ?_, ⟨rfl, ?_⟩,
    List.nodup_cons.mpr ⟨hfree, h.nodup⟩, ?_, ?_⟩
  · intro q
    by_cases hq : q = p
    · simp [setPage, Pt.push, hq, h.ref]
    · simp [setPage, Pt.push, hq, h.ref]
  · simp only [setPage, update_self]
    refine h.list.congr fun q hq => ?_
    rw [update_of_ne (ne_of_mem_of_not_mem hq hfree)]
  · intro q hq
    obtain rfl | hq := List.mem_cons.mp hq
    · exact hp
    · exact h.free q hq
  · intro q hq
    obtain ⟨hne, hq⟩ := not_or.mp (mt List.mem_cons.mpr hq)
    simpa [setPage, hne] using h.unlinked q hq

theorem pageDecref (hp : p < n) (hfree : p ∉ pt.free) :
    ∃ vm', vm.pageDecref p = .ok vm' ∧ vm'.Shows n (pt.decref p) := by
  have hset := h.setRef p ((vm.pages p).ppRef - 1)
  rw [h.ref p] at hset
  simp only [Vm.pageDecref, Pt.decref, h.ref p]
  rw [hset.ref p]
  have hnew : (pt.setRef p (pt.ref p - 1)).ref p = pt.ref p - 1 := by simp [Pt.setRef]
  rw [hnew]
  by_cases hlast : pt.ref p - 1 = 0
  · rw [if_pos hlast, if_pos hlast]
    exact hset.pageFree hp hfree (hnew.trans hlast)
  · rw [if_neg hlast, if_neg hlast]
    exact ⟨_, rfl, hset⟩

end

end Vm.Shows

end ZynexOS
