import ZynexOS.Kern.PageInit
import ZynexOS.Kern.Proof.PmapLemmas

/-! # The free list after boot -/

namespace ZynexOS

open Library Function

section

variable {kernEnd nextfree : Word} {start : Nat}

def nextAddr (kernEnd nextfree : Word) : Word :=
  if nextfree = 0 then roundup kernEnd pgSize else nextfree

def blockEnd (start : Nat) (n : BitVec 32) : Nat :=
  if n = 0 then start else start + (n.toNat / 4096 + 1) * 4096

theorem dataEnd_cons (start : Nat) (n : BitVec 32) (ns : List (BitVec 32)) :
    dataEnd start (n :: ns) = dataEnd (blockEnd start n) ns := rfl

theorem le_blockEnd (start : Nat) (n : BitVec 32) : start + n.toNat ≤ blockEnd start n := by
  unfold blockEnd
  split
  · next hzero => simp [hzero]
  · omega

theorem le_dataEnd (start : Nat) (ns : List (BitVec 32)) : start ≤ dataEnd start ns := by
  induction ns generalizing start with
  | nil => exact le_rfl
  | cons n ns ih =>
      rw [dataEnd_cons]
      have hblock := le_blockEnd start n
      have hrest := ih (blockEnd start n)
      omega

theorem blockEnd_aligned (haligned : start % 4096 = 0) (n : BitVec 32) :
    blockEnd start n % 4096 = 0 := by
  unfold blockEnd
  split <;> omega

theorem dataEnd_aligned (haligned : start % 4096 = 0) (ns : List (BitVec 32)) :
    dataEnd start ns % 4096 = 0 := by
  induction ns generalizing start with
  | nil => exact haligned
  | cons n ns ih => exact ih (blockEnd_aligned haligned n)

theorem bootBytes_toNat {n : BitVec 32} (hn : (n.toNat / 4096 + 1) * 4096 < 2 ^ 31) :
    (bootBytes n).toNat = (n.toNat / 4096 + 1) * 4096 := by
  have hval : (BitVec.ofNat 32 ((n.toNat / pgSize + 1) * pgSize)).toNat
      = (n.toNat / 4096 + 1) * 4096 := by
    rw [BitVec.toNat_ofNat, pgSize]
    exact Nat.mod_eq_of_lt (hn.trans (by decide))
  have hmsb : (BitVec.ofNat 32 ((n.toNat / pgSize + 1) * pgSize)).msb = false := by
    rw [BitVec.msb_eq_false_iff_two_mul_lt, hval]
    omega
  rw [bootBytes, BitVec.signExtend_eq_setWidth_of_msb_false hmsb, BitVec.toNat_setWidth, hval]
  exact Nat.mod_eq_of_lt (hn.trans (by decide))

theorem bootAlloc_fst (n : BitVec 32) :
    (bootAlloc kernEnd n nextfree).1 = nextAddr kernEnd nextfree := by
  unfold bootAlloc
  dsimp only
  split <;> rfl

theorem bootAlloc_snd (n : BitVec 32) : (bootAlloc kernEnd n nextfree).2 =
    if n = 0 then nextAddr kernEnd nextfree
    else roundup (nextAddr kernEnd nextfree + bootBytes n) pgSize := by
  unfold bootAlloc
  dsimp only
  split <;> rfl

theorem nextAddr_of_toNat {addr : Word} (haddr : addr.toNat = start) (hpos : start ≠ 0) :
    (nextAddr kernEnd addr).toNat = start := by
  have hne : addr ≠ 0 := by
    rintro rfl
    exact hpos haddr.symm
  rw [nextAddr, if_neg hne, haddr]

theorem bootAlloc_eq {n : BitVec 32} (hstart : (nextAddr kernEnd nextfree).toNat = start)
    (haligned : start % 4096 = 0) (hlow : 2 ^ 64 - 2 ^ 31 ≤ start) (hfit : blockEnd start n < 2 ^ 64) :
    (bootAlloc kernEnd n nextfree).1.toNat = start ∧
      (nextAddr kernEnd (bootAlloc kernEnd n nextfree).2).toNat = blockEnd start n := by
  rw [bootAlloc_fst, bootAlloc_snd]
  refine ⟨hstart, ?_⟩
  unfold blockEnd at hfit ⊢
  by_cases hzero : n = 0
  · rw [if_pos hzero, if_pos hzero]
    exact nextAddr_of_toNat hstart (by omega)
  · rw [if_neg hzero] at hfit
    rw [if_neg hzero, if_neg hzero]
    have hbytes : (bootBytes n).toNat = (n.toNat / 4096 + 1) * 4096 := bootBytes_toNat (by omega)
    have hsum : (nextAddr kernEnd nextfree + bootBytes n).toNat
        = start + (n.toNat / 4096 + 1) * 4096 := by
      rw [BitVec.toNat_add, hbytes, hstart, Nat.mod_eq_of_lt hfit]
    rw [roundup_of_aligned (by omega)]
    exact nextAddr_of_toNat hsum (by omega)

theorem bootAllocs_cons (n : BitVec 32) (ns : List (BitVec 32)) :
    bootAllocs kernEnd (n :: ns) nextfree =
      ((bootAlloc kernEnd n nextfree).1 :: (bootAllocs kernEnd ns (bootAlloc kernEnd n nextfree).2).1,
        (bootAllocs kernEnd ns (bootAlloc kernEnd n nextfree).2).2) := rfl

theorem bootAllocs_blocks (ns : List (BitVec 32))
    (hstart : (nextAddr kernEnd nextfree).toNat = start) (haligned : start % 4096 = 0)
    (hlow : 2 ^ 64 - 2 ^ 31 ≤ start) (hfit : dataEnd start ns < 2 ^ 64) :
    Blocks ns (bootAllocs kernEnd ns nextfree).1 (dataEnd start ns) ∧
      (∀ result ∈ (bootAllocs kernEnd ns nextfree).1, start ≤ result.toNat) ∧
      (nextAddr kernEnd (bootAllocs kernEnd ns nextfree).2).toNat = dataEnd start ns := by
  induction ns generalizing nextfree start with
  | nil => exact ⟨⟨rfl, by nofun, .nil, by nofun⟩, by nofun, hstart⟩
  | cons n ns ih =>
      rw [dataEnd_cons] at hfit ⊢
      rw [bootAllocs_cons]
      have hblock := le_blockEnd start n
      have hrest := le_dataEnd (blockEnd start n) ns
      obtain ⟨hfirst, hnext⟩ := bootAlloc_eq hstart haligned hlow (hrest.trans_lt hfit)
      obtain ⟨hblocks, hge, hlast⟩ := ih hnext (blockEnd_aligned haligned n) (by omega) hfit
      refine ⟨⟨congrArg (· + 1) hblocks.length, ?_, ?_, ?_⟩, ?_, hlast⟩
      · intro result hmem
        obtain rfl | hmem := List.mem_cons.mp hmem
        · rw [hfirst]
          exact haligned
        · exact hblocks.aligned result hmem
      · refine .cons (fun b hb => ?_) hblocks.apart
        have hle := hge b.1 (List.of_mem_zip hb).1
        dsimp only
        omega
      · intro b hb
        obtain rfl | hb := List.mem_cons.mp hb
        · dsimp only
          omega
        · exact hblocks.inside b hb
      · intro result hmem
        obtain rfl | hmem := List.mem_cons.mp hmem
        · omega
        · exact (by omega : start ≤ blockEnd start n).trans (hge result hmem)

end

namespace Vm

variable {vm vm' : Vm} {l : List Nat} {i : Nat}

theorem Free.markUsed (hfree : vm.Free l) (hi : i ∉ l) : (vm.markUsed i).Free l := by
  refine Chain.congr hfree fun p hp => ?_
  have hne : p ≠ i := fun h => hi (h ▸ hp)
  exact congrArg PageInfo.ppLink (update_of_ne hne _ _)

theorem Free.pushFree (hfree : vm.Free l) (hi : i ∉ l) : (vm.pushFree i).Free (i :: l) := by
  have hlink : ((vm.pushFree i).pages i).ppLink = vm.pageFreeList := by
    show (update vm.pages i ⟨vm.pageFreeList, 0⟩ i).ppLink = _
    rw [update_self]
  refine ⟨rfl, ?_⟩
  dsimp only
  rw [hlink]
  refine Chain.congr hfree fun p hp => ?_
  have hne : p ≠ i := fun h => hi (h ▸ hp)
  exact congrArg PageInfo.ppLink (update_of_ne hne _ _)

structure Sorts (body : Vm → Nat → Vm) (keep : Nat → Bool) : Prop where
  free : ∀ vm i l, vm.Free l → i ∉ l → (body vm i).Free (if keep i then i :: l else l)
  npages : ∀ vm i, (body vm i).npages = vm.npages
  mem : ∀ vm i, (body vm i).mem = vm.mem

theorem sorts_markUsed : Sorts markUsed fun _ => false :=
  ⟨fun _ _ _ hfree hi => hfree.markUsed hi, fun _ _ => rfl, fun _ _ => rfl⟩

theorem sorts_pushFree : Sorts pushFree fun _ => true :=
  ⟨fun _ _ _ hfree hi => hfree.pushFree hi, fun _ _ => rfl, fun _ _ => rfl⟩

theorem sorts_pushBase : Sorts pushBase fun i => decide (mpentryPage ≠ i) := by
  refine ⟨fun vm i l hfree hi => ?_, fun vm i => ?_, fun vm i => ?_⟩
  · unfold pushBase
    by_cases hmp : mpentryPage = i
    · rw [if_pos hmp, if_neg (by simp [hmp])]
      exact hfree.markUsed hi
    · rw [if_neg hmp, if_pos (by simp [hmp])]
      exact hfree.pushFree hi
  · unfold pushBase
    split <;> rfl
  · unfold pushBase
    split <;> rfl

structure Looped (vm vm' : Vm) (lo hi : Nat) (keep : Nat → Bool) (l l' : List Nat) : Prop where
  free : vm'.Free l'
  nodup : l'.Nodup
  members : ∀ p, p ∈ l' ↔ p ∈ l ∨ lo ≤ p ∧ p < hi ∧ keep p = true
  npages : vm'.npages = vm.npages
  mem : vm'.mem = vm.mem

theorem Sorts.foldl {body : Vm → Nat → Vm} {keep : Nat → Bool} (hsorts : Sorts body keep)
    {n : Nat} (lo : Nat) (hfree : vm.Free l) (hnodup : l.Nodup) (hout : ∀ p ∈ l, p < lo) :
    ∃ l', Looped vm ((List.range' lo n).foldl body vm) lo (lo + n) keep l l' := by
  induction n generalizing vm l lo with
  | zero => exact ⟨l, hfree, hnodup, fun p => by simp; omega, rfl, rfl⟩
  | succ n ih =>
      have hlo : lo ∉ l := fun h => lt_irrefl lo (hout lo h)
      have hone := hsorts.free vm lo l hfree hlo
      have hmem : ∀ p, p ∈ (if keep lo then lo :: l else l) ↔ p ∈ l ∨ p = lo ∧ keep lo = true := by
        intro p
        split
        · next hkeep => simp [hkeep, or_comm]
        · next hkeep => simp [hkeep]
      obtain ⟨l', hloop⟩ := ih (lo + 1) hone (by split <;> simp [hnodup, hlo]) (by
        intro p hp
        obtain hp | ⟨rfl, -⟩ := (hmem p).mp hp
        · exact (hout p hp).trans (Nat.lt_succ_self lo)
        · exact Nat.lt_succ_self p)
      rw [List.range'_succ]
      refine ⟨l', hloop.free, hloop.nodup, fun p => ?_, hloop.npages.trans (hsorts.npages vm lo),
        hloop.mem.trans (hsorts.mem vm lo)⟩
      rw [hloop.members, hmem]
      constructor
      · rintro ((hp | ⟨rfl, hkeep⟩) | ⟨hle, hlt, hkeep⟩)
        · exact .inl hp
        · exact .inr ⟨le_rfl, by omega, hkeep⟩
        · exact .inr ⟨by omega, by omega, hkeep⟩
      · rintro (hp | ⟨hle, hlt, hkeep⟩)
        · exact .inl (.inl hp)
        · by_cases heq : p = lo
          · exact .inl (.inr ⟨heq, heq ▸ hkeep⟩)
          · exact .inr ⟨by omega, by omega, hkeep⟩

theorem Sorts.forPages {body : Vm → Nat → Vm} {keep : Nat → Bool} (hsorts : Sorts body keep)
    (lo hi : Nat) (hfree : vm.Free l) (hnodup : l.Nodup) (hout : ∀ p ∈ l, p < lo) :
    ∃ l', Looped vm (vm.forPages lo hi body) lo hi keep l l' := by
  obtain ⟨l', hloop⟩ := hsorts.foldl lo hfree hnodup hout
  refine ⟨l', hloop.free, hloop.nodup, fun p => (hloop.members p).trans ?_, hloop.npages, hloop.mem⟩
  refine or_congr_right ⟨?_, ?_⟩ <;> rintro ⟨hle, hlt, hkeep⟩ <;> exact ⟨hle, by omega, hkeep⟩

theorem Looped.npages_eq {npages lo hi : Nat} {keep : Nat → Bool} {l' : List Nat}
    (hloop : Looped vm vm' lo hi keep l l') (hn : vm.npages = npages) : vm'.npages = npages :=
  hloop.npages.trans hn

theorem ramStart_eq : ramStart = 2 ^ 64 - 2 ^ 31 := by decide

theorem nextAddr_zero {kernEnd : Word} (htop : dataStart kernEnd < 2 ^ 64) :
    (nextAddr kernEnd 0).toNat = dataStart kernEnd := by
  have hlt := kernEnd.isLt
  unfold dataStart at *
  rw [nextAddr, if_pos rfl, roundup, rounddown_toNat]
  have hone : (1 : Word).toNat = 1 := rfl
  have hsum : (kernEnd + BitVec.ofNat 64 pgSize - 1).toNat = kernEnd.toNat + 4095 := by
    rw [BitVec.toNat_sub, BitVec.toNat_add, BitVec.toNat_ofNat, hone, pgSize]
    omega
  rw [hsum]
  omega

theorem paddr_next {addr : Word} (hlow : ramStart ≤ addr.toNat) :
    paddr addr = .ok (addr - kernbase) ∧
      (addr - kernbase - phymemoff).toNat = addr.toNat - ramStart := by
  have hlt := addr.isLt
  have hbase : kernbase.toNat = 2 ^ 64 - 2 ^ 32 := by decide
  have hoff : phymemoff.toNat = 2 ^ 31 := by decide
  rw [ramStart_eq] at *
  constructor
  · refine if_neg ?_
    rw [BitVec.lt_def, hbase]
    omega
  · rw [BitVec.toNat_sub, BitVec.toNat_sub, hbase, hoff]
    omega

theorem pageMeets_zero {p hi : Nat} (haligned : hi % 4096 = 0) : PageMeets p 0 hi ↔ p < hi / 4096 := by
  constructor
  · rintro ⟨x, -, hlt, rfl⟩
    omega
  · intro hp
    exact ⟨4096 * p, Nat.zero_le _, by omega, by omega⟩

theorem pageMeets_iff {p lo hi : Nat} (hlo : lo % 4096 = 0) (hhi : hi % 4096 = 0) :
    PageMeets p lo hi ↔ lo / 4096 ≤ p ∧ p < hi / 4096 := by
  constructor
  · rintro ⟨x, hle, hlt, rfl⟩
    omega
  · rintro ⟨hle, hlt⟩
    exact ⟨4096 * p, by omega, by omega, by omega⟩

theorem pageInit_frees {npages : Nat} (mem : Word → Option Word) {firm kernEnd nextfree : Word}
    (hlow : 512 ≤ npages) (hfirm : firm.toNat ≤ 0x200000) (haligned : firm.toNat % 4096 = 0)
    {fin : Nat} (hnext : (nextAddr kernEnd nextfree).toNat = fin) (hfin : fin % 4096 = 0)
    (hstart : ramStart ≤ fin) :
    ∃ vm l, (clearedPages npages mem).pageInit firm kernEnd nextfree = .ok vm ∧ vm.npages = npages ∧
      vm.mem = mem ∧ FreePages vm (Unused npages firm.toNat (fin - ramStart)) l := by
  subst hnext
  obtain ⟨hpaddr, hused⟩ := paddr_next hstart
  unfold pageInit
  rw [bootAlloc_fst, hpaddr, ok_bind]
  dsimp only
  rw [hused]
  rw [ramStart_eq] at hstart ⊢
  unfold npagesBasemem extPage pgSize
  generalize hend : (nextAddr kernEnd nextfree).toNat - (2 ^ 64 - 2 ^ 31) = used
  have hcleared : (clearedPages npages mem).Free [] := rfl
  obtain ⟨l₁, h₁⟩ := sorts_markUsed.forPages 0 (firm.toNat / 4096) hcleared .nil (by nofun)
  have hmem₁ : ∀ p, p ∉ l₁ := fun p hp => by simpa using (h₁.members p).mp hp
  obtain ⟨l₂, h₂⟩ := sorts_pushBase.forPages (firm.toNat / 4096) (0x200000 / 4096) h₁.free h₁.nodup
    (fun p hp => absurd hp (hmem₁ p))
  have hmem₂ : ∀ p, p ∈ l₂ ↔ firm.toNat / 4096 ≤ p ∧ p < 512 ∧ mpentryPage ≠ p := fun p => by
    rw [h₂.members p, decide_eq_true_iff]
    simp [hmem₁ p]
  obtain ⟨l₃, h₃⟩ := sorts_markUsed.forPages (0x200000 / 4096) (used / 4096) h₂.free h₂.nodup
    (fun p hp => ((hmem₂ p).mp hp).2.1)
  have hmem₃ : ∀ p, p ∈ l₃ ↔ p ∈ l₂ := fun p => by simp [h₃.members p]
  obtain ⟨l₄, h₄⟩ := sorts_pushFree.forPages (max (0x200000 / 4096) (used / 4096)) npages h₃.free
    h₃.nodup fun p hp => ((hmem₂ p).mp ((hmem₃ p).mp hp)).2.1.trans_le (le_max_left _ _)
  have hnpages : ∀ vm : Vm, vm.npages = npages →
      vm.forPages (max (0x200000 / 4096) (used / 4096)) vm.npages pushFree
        = vm.forPages (max (0x200000 / 4096) (used / 4096)) npages pushFree := by
    rintro vm rfl
    rfl
  have hn₀ : (clearedPages npages mem).npages = npages := rfl
  have hn₃ := h₃.npages_eq (h₂.npages_eq (h₁.npages_eq hn₀))
  refine ⟨_, l₄, congrArg Except.ok (hnpages _ hn₃), h₄.npages_eq hn₃,
    h₄.mem.trans (h₃.mem.trans (h₂.mem.trans h₁.mem)), h₄.free, h₄.nodup, fun p => ?_⟩
  have hmp : mpentryPage = 256 := rfl
  rw [h₄.members, hmem₃, hmem₂, hmp]
  simp only [and_true]
  constructor
  · intro h
    refine ⟨?_, ?_, ?_, ?_⟩
    · omega
    · rw [pageMeets_zero haligned]
      omega
    · rw [pageMeets_iff (by decide) (by decide)]
      omega
    · rw [pageMeets_iff (by decide) (by omega)]
      omega
  · rintro ⟨hlt, hfirmware, hmpentry, hkernel⟩
    rw [pageMeets_zero haligned] at hfirmware
    rw [pageMeets_iff (by decide) (by decide)] at hmpentry
    rw [pageMeets_iff (by decide) (by omega)] at hkernel
    omega

theorem Free.pageAlloc_of_ok {zero : Bool} {result : Option Nat} (hfree : vm.Free l)
    (hnodup : l.Nodup) (hrun : vm.pageAlloc zero = .ok (result, vm')) :
    result = l.head? ∧ vm'.Free l.tail := by
  cases l with
  | nil =>
      have hnone : vm.pageFreeList = none := hfree
      unfold pageAlloc at hrun
      rw [hnone] at hrun
      cases hrun
      exact ⟨rfl, hfree⟩
  | cons p l =>
      have hsome : vm.pageFreeList = some p := hfree.1
      have hrest : (({ vm with pageFreeList := (vm.pages p).ppLink }).setPage p
          { vm.pages p with ppLink := none }).Free l := by
        refine Chain.congr hfree.2 fun q hq => ?_
        have hne : q ≠ p := fun h => (List.nodup_cons.mp hnodup).1 (h ▸ hq)
        exact congrArg PageInfo.ppLink (update_of_ne hne _ _)
      unfold pageAlloc at hrun
      rw [hsome] at hrun
      cases zero with
      | false =>
          cases hrun
          exact ⟨rfl, hrest⟩
      | true =>
          obtain ⟨kva, -, hrun⟩ := bind_eq_ok.mp hrun
          obtain ⟨vm₁, hset, hrun⟩ := bind_eq_ok.mp hrun
          cases hrun
          refine ⟨rfl, ?_⟩
          unfold memsetPage at hset
          split at hset
          · cases hset
          · cases hset
            exact hrest

theorem Free.pageAllocs_of_ok {zeros : List Bool} {results : List (Option Nat)} (hfree : vm.Free l)
    (hnodup : l.Nodup) (hrun : vm.pageAllocs zeros = .ok (results, vm')) :
    results = (List.range zeros.length).map (l[·]?) := by
  induction zeros generalizing vm l results with
  | nil =>
      cases hrun
      rfl
  | cons zero zeros ih =>
      obtain ⟨⟨result, vm₁⟩, hone, hrun⟩ := bind_eq_ok.mp hrun
      obtain ⟨⟨rest, vm₂⟩, hmany, hrun⟩ := bind_eq_ok.mp hrun
      cases hrun
      obtain ⟨rfl, hfree₁⟩ := hfree.pageAlloc_of_ok hnodup hone
      rw [ih hfree₁ (hnodup.sublist (List.tail_sublist l)) hmany, List.length_cons,
        List.range_succ_eq_map, List.map_cons, List.map_map, List.head?_eq_getElem?]
      simp [Function.comp_def, List.getElem?_tail]

theorem memsetPage_returns {pp : Nat} (hpp : pp < vm.npages) (hmap : DirectMapped vm.npages vm.mem) :
    ∃ vm', vm.memsetPage (pageKva pp) = .ok vm' ∧ vm'.npages = vm.npages ∧
      DirectMapped vm.npages vm'.mem := by
  have hnone : ((List.range 512).find? fun i => vm.mem (entryAddr (pageKva pp) i) = none) = none := by
    rw [List.find?_eq_none]
    intro i hi
    simpa using hmap pp hpp i (List.mem_range.mp hi)
  unfold memsetPage
  rw [hnone]
  refine ⟨_, rfl, rfl, fun q hq i hi => ?_⟩
  dsimp only
  split
  · nofun
  · exact hmap q hq i hi

theorem Free.pageAlloc_returns {zero : Bool} (hfree : vm.Free l) (hlt : ∀ p ∈ l, p < vm.npages)
    (hbound : vm.npages ≤ 2 ^ 19) (hmap : zero = false ∨ DirectMapped vm.npages vm.mem) :
    ∃ result vm', vm.pageAlloc zero = .ok (result, vm') ∧ vm'.npages = vm.npages ∧
      (DirectMapped vm.npages vm.mem → DirectMapped vm.npages vm'.mem) := by
  cases l with
  | nil =>
      have hnone : vm.pageFreeList = none := hfree
      unfold pageAlloc
      rw [hnone]
      exact ⟨_, _, rfl, rfl, id⟩
  | cons p l =>
      have hsome : vm.pageFreeList = some p := hfree.1
      have hp := hlt p List.mem_cons_self
      unfold pageAlloc
      rw [hsome]
      dsimp only
      cases zero with
      | false => exact ⟨_, _, rfl, rfl, id⟩
      | true =>
          have hmap : DirectMapped vm.npages vm.mem := by simpa using hmap
          generalize hpop : ({ vm with pageFreeList := (vm.pages p).ppLink }).setPage p
            { vm.pages p with ppLink := none } = popped
          have hn : popped.npages = vm.npages := by rw [← hpop]; rfl
          have hmem : popped.mem = vm.mem := by rw [← hpop]; rfl
          rw [← hn] at hp hbound hmap ⊢
          rw [← hmem] at hmap
          have hkaddr : popped.kaddr (page2pa p) = .ok (pageKva p) := by
            rw [kaddr_eq_ok, pgnum_page2pa (hp.trans_le hbound)]
            exact ⟨hp, rfl⟩
          obtain ⟨vm', hset, hn', hmap'⟩ := memsetPage_returns hp hmap
          rw [if_pos rfl, hkaddr, ok_bind, hset, ok_bind]
          exact ⟨_, _, rfl, hn', fun _ => hmap'⟩

theorem Free.pageAllocs_returns {zeros : List Bool} (hfree : vm.Free l) (hnodup : l.Nodup)
    (hlt : ∀ p ∈ l, p < vm.npages) (hbound : vm.npages ≤ 2 ^ 19)
    (hmap : (∀ zero ∈ zeros, zero = false) ∨ DirectMapped vm.npages vm.mem) :
    ∃ results vm', vm.pageAllocs zeros = .ok (results, vm') := by
  induction zeros generalizing vm l with
  | nil => exact ⟨_, _, rfl⟩
  | cons zero zeros ih =>
      obtain ⟨result, vm₁, hone, hn, hkeep⟩ := hfree.pageAlloc_returns hlt hbound
        (hmap.imp_left fun h => h zero List.mem_cons_self)
      obtain ⟨-, hfree₁⟩ := hfree.pageAlloc_of_ok hnodup hone
      obtain ⟨results, vm₂, hmany⟩ := ih hfree₁ (hnodup.sublist (List.tail_sublist l))
        (fun p hp => hn ▸ hlt p (List.mem_of_mem_tail hp)) (hn ▸ hbound)
        (hmap.imp (fun h z hz => h z (List.mem_cons_of_mem zero hz)) fun h => hn ▸ hkeep h)
      refine ⟨result :: results, vm₂, ?_⟩
      unfold pageAllocs
      rw [hone, ok_bind]
      dsimp only
      rw [hmany, ok_bind]
      rfl

/-- The free list after `mem_init` has exactly the unused pages, `page_alloc` hands them out, and
`boot_alloc` has handed out separate blocks. -/
theorem memInit_frees_unused {npages : Nat} (mem : Word → Option Word) {firmware kernEnd : Word}
    (hlow : 512 ≤ npages) (hhigh : npages ≤ 2 ^ 19) (hfirm : (firmmem firmware).toNat ≤ 0x200000)
    (hfits : FitsRam npages kernEnd) :
    (∀ ns, dataEnd (dataStart kernEnd) ns < 2 ^ 64 →
      Blocks ns (bootAllocs kernEnd ns 0).1 (dataEnd (dataStart kernEnd) ns)) ∧
    ∃ vm l, memInit npages mem firmware kernEnd = .ok vm ∧
      FreePages vm (Unused npages (firmmem firmware).toNat (bootEnd npages kernEnd - ramStart)) l ∧
      (∀ zeros results vm', vm.pageAllocs zeros = .ok (results, vm') →
        results = (List.range zeros.length).map (l[·]?)) ∧
      ∀ zeros, (∀ zero ∈ zeros, zero = false) ∨ DirectMapped npages mem →
        ∃ results vm', vm.pageAllocs zeros = .ok (results, vm') := by
  have htop := hfits.top
  have hram := hfits.low
  have hle := le_dataEnd (dataStart kernEnd) (memInitSizes npages)
  have haligned : dataStart kernEnd % 4096 = 0 := Nat.mul_mod_left _ _
  have hstart : ramStart ≤ dataStart kernEnd := by
    unfold dataStart
    omega
  have hfirst := nextAddr_zero (hle.trans_lt htop)
  have hblocks := fun ns => bootAllocs_blocks ns hfirst haligned (ramStart_eq ▸ hstart)
  have hlast := (hblocks (memInitSizes npages) htop).2.2
  have hfin : bootEnd npages kernEnd % 4096 = 0 := dataEnd_aligned haligned _
  obtain ⟨vm, l, hrun, hn, hmem, hfree⟩ := pageInit_frees mem hlow hfirm
    (roundup_toNat_mod firmware) hlast hfin (hstart.trans hle)
  refine ⟨fun ns hfit => (hblocks ns hfit).1, vm, l, hrun, hfree, ?_, fun zeros hmap => ?_⟩
  · exact fun zeros results vm' hallocs => Free.pageAllocs_of_ok hfree.1 hfree.2.1 hallocs
  · refine Free.pageAllocs_returns hfree.1 hfree.2.1 (fun p hp => ?_) (hn ▸ hhigh) ?_
    · exact hn ▸ ((hfree.2.2 p).mp hp).lt
    · exact hn ▸ hmem ▸ hmap

/-- A machine with 256 MB, a firmware of 35 pages and a kernel of 3 MB. -/
theorem memInit_256MB :
    512 ≤ 65536 ∧ 65536 ≤ 2 ^ 19 ∧ FitsRam 65536 0xFFFFFFFF80500000 ∧
    ∃ vm l, memInit 65536 (fun _ => none) 0x23000 0xFFFFFFFF80500000 = .ok vm ∧
      FreePages vm (Unused 65536 0x23000 0x660000) l := by
  have hfits : FitsRam 65536 0xFFFFFFFF80500000 := ⟨by decide, by decide, by decide⟩
  obtain ⟨-, vm, l, hrun, hfree, -⟩ := memInit_frees_unused (fun _ => none)
    (by decide) (by decide) (show (firmmem 0x23000).toNat ≤ 0x200000 by decide) hfits
  have hfirm : (firmmem 0x23000).toNat = 0x23000 := by decide
  have hend : bootEnd 65536 0xFFFFFFFF80500000 - ramStart = 0x660000 := by decide
  rw [hfirm, hend] at hfree
  exact ⟨by decide, by decide, hfits, vm, l, hrun, hfree⟩

end Vm

end ZynexOS
