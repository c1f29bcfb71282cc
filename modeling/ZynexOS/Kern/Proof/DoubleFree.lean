import ZynexOS.Kern.Proof.PageInit
import ZynexOS.Library.Run

/-!
# Freeing a page twice

`page_free` knows a free page by its link, and the last page of the list has none.
-/

namespace ZynexOS

open Library Function

namespace Vm

variable {vm vm' : Vm} {l : List Nat} {p i : Nat}

structure Listed (vm : Vm) (l : List Nat) : Prop where
  chain : vm.Free l
  nodup : l.Nodup
  unlinked : ∀ p, p ∉ l → (vm.pages p).ppLink = none

/-! ### `page_init` -/

def Links (body : Vm → Nat → Vm) (keep : Nat → Bool) : Prop :=
  ∀ vm i p, ((body vm i).pages p).ppLink ≠ none → p = i ∧ keep i = true ∨ (vm.pages p).ppLink ≠ none

theorem links_markUsed (keep : Nat → Bool) : Links markUsed keep := by
  intro vm i p hlink
  by_cases hp : p = i
  · subst hp
    exact absurd (by simp [markUsed, setPage]) hlink
  · exact .inr (by simpa [markUsed, setPage, hp] using hlink)

theorem links_pushFree : Links pushFree fun _ => true := by
  intro vm i p hlink
  by_cases hp : p = i
  · exact .inl ⟨hp, rfl⟩
  · exact .inr (by simpa [pushFree, setPage, hp] using hlink)

theorem links_pushBase : Links pushBase fun i => decide (mpentryPage ≠ i) := by
  intro vm i p hlink
  unfold pushBase at hlink
  split at hlink
  · exact links_markUsed (fun i => decide (mpentryPage ≠ i)) vm i p hlink
  · next hmp =>
      obtain ⟨rfl, -⟩ | hold := links_pushFree vm i p hlink
      · exact .inl ⟨rfl, by simpa using hmp⟩
      · exact .inr hold

theorem Links.forPages {body : Vm → Nat → Vm} {keep : Nat → Bool} (hlinks : Links body keep)
    {lo hi : Nat} (hlink : ((vm.forPages lo hi body).pages p).ppLink ≠ none) :
    lo ≤ p ∧ p < hi ∧ keep p = true ∨ (vm.pages p).ppLink ≠ none := by
  have hloop : ∀ n lo (vm : Vm), (((List.range' lo n).foldl body vm).pages p).ppLink ≠ none →
      lo ≤ p ∧ p < lo + n ∧ keep p = true ∨ (vm.pages p).ppLink ≠ none := by
    intro n
    induction n with
    | zero => exact fun _ _ h => .inr h
    | succ n ih =>
        intro lo vm h
        rw [List.range'_succ] at h
        obtain ⟨hle, hlt, hkeep⟩ | hmid := ih (lo + 1) _ h
        · exact .inl ⟨by omega, by omega, hkeep⟩
        · obtain ⟨rfl, hkeep⟩ | hold := hlinks vm lo p hmid
          · exact .inl ⟨le_rfl, by omega, hkeep⟩
          · exact .inr hold
  obtain ⟨hle, hlt, hkeep⟩ | hold := hloop _ _ _ hlink
  · exact .inl ⟨hle, by omega, hkeep⟩
  · exact .inr hold

theorem Listed.forPages {body : Vm → Nat → Vm} {keep : Nat → Bool} (h : vm.Listed l)
    (hsorts : Sorts body keep) (hlinks : Links body keep) (lo hi : Nat) (hout : ∀ p ∈ l, p < lo) :
    ∃ l', (vm.forPages lo hi body).Listed l' ∧
      ∀ p, p ∈ l' ↔ p ∈ l ∨ lo ≤ p ∧ p < hi ∧ keep p = true := by
  obtain ⟨l', hloop⟩ := hsorts.forPages lo hi h.chain h.nodup hout
  refine ⟨l', ⟨hloop.free, hloop.nodup, fun p hp => ?_⟩, hloop.members⟩
  by_contra hlink
  refine hp ((hloop.members p).mpr ?_)
  obtain hnew | hold := hlinks.forPages hlink
  · exact .inr hnew
  · exact .inl (by_contra fun hl => hold (h.unlinked p hl))

theorem pageInit_listed {npages : Nat} {mem : Word → Option Word} {firm kernEnd nextfree : Word}
    (hinit : (clearedPages npages mem).pageInit firm kernEnd nextfree = .ok vm) :
    ∃ l, vm.Listed l ∧ ∀ p, firm.toNat / pgSize ≤ p → p < npagesBasemem → mpentryPage ≠ p → p ∈ l := by
  obtain ⟨next, -, hrest⟩ := bind_eq_ok.mp hinit
  cases pure_eq_ok.mp hrest
  generalize (next - phymemoff).toNat / pgSize = used
  have hcleared : (clearedPages npages mem).Listed [] := ⟨rfl, .nil, fun _ _ => rfl⟩
  obtain ⟨l₁, h₁, hmem₁⟩ :=
    hcleared.forPages sorts_markUsed (links_markUsed _) 0 (firm.toNat / pgSize) nofun
  have hempty : ∀ p, p ∉ l₁ := fun p hp => by simpa using (hmem₁ p).mp hp
  obtain ⟨l₂, h₂, hmem₂⟩ := h₁.forPages sorts_pushBase links_pushBase (firm.toNat / pgSize)
    npagesBasemem fun p hp => absurd hp (hempty p)
  have hlow : ∀ p ∈ l₂, p < extPage := by
    intro p hp
    obtain hp | ⟨-, hlt, -⟩ := (hmem₂ p).mp hp
    · exact absurd hp (hempty p)
    · exact hlt
  obtain ⟨l₃, h₃, hmem₃⟩ := h₂.forPages sorts_markUsed (links_markUsed _) extPage used hlow
  have hkept : ∀ p, p ∈ l₃ ↔ p ∈ l₂ := fun p => by simp [hmem₃ p]
  obtain ⟨l₄, h₄, hmem₄⟩ := h₃.forPages sorts_pushFree links_pushFree (max extPage used)
    (((((clearedPages npages mem).forPages 0 (firm.toNat / pgSize) markUsed).forPages
      (firm.toNat / pgSize) npagesBasemem pushBase).forPages extPage used markUsed).npages)
    fun p hp => (hlow p ((hkept p).mp hp)).trans_le (le_max_left _ _)
  refine ⟨l₄, h₄, fun p hle hlt hmp => (hmem₄ p).mpr (.inl ((hkept p).mpr ((hmem₂ p).mpr ?_)))⟩
  exact .inr ⟨hle, hlt, by simpa using hmp⟩

/-! ### One call -/

theorem Listed.push (h : vm.Listed l) (hi : i ∉ l) (info : PageInfo)
    (hinfo : info.ppLink = vm.pageFreeList) :
    ({ vm.setPage i info with pageFreeList := some i } : Vm).Listed (i :: l) := by
  have hothers : ∀ q, q ≠ i → (update vm.pages i info q) = vm.pages q :=
    fun q hq => update_of_ne hq _ _
  refine ⟨⟨rfl, ?_⟩, List.nodup_cons.mpr ⟨hi, h.nodup⟩, fun q hq => ?_⟩
  · simp only [setPage, update_self, hinfo]
    refine Chain.congr h.chain fun q hq => ?_
    rw [hothers q fun heq => hi (heq ▸ hq)]
  · rw [List.mem_cons, not_or] at hq
    simp only [setPage]
    rw [hothers q hq.1]
    exact h.unlinked q hq.2

theorem link_setRef (pp q : Nat) (ref : BitVec 16) :
    ((vm.setPage pp { vm.pages pp with ppRef := ref }).pages q).ppLink = (vm.pages q).ppLink := by
  by_cases hq : q = pp
  · subst hq
    simp [setPage]
  · simp [setPage, hq]

theorem free_setRef (pp : Nat) (ref : BitVec 16) :
    (vm.setPage pp { vm.pages pp with ppRef := ref }).Free l ↔ vm.Free l := by
  unfold Free
  simp only [link_setRef]
  rfl

theorem Listed.setRef (h : vm.Listed l) (pp : Nat) (ref : BitVec 16) :
    (vm.setPage pp { vm.pages pp with ppRef := ref }).Listed l := by
  refine ⟨(free_setRef pp ref).mpr h.chain, h.nodup, fun q hq => ?_⟩
  rw [link_setRef]
  exact h.unlinked q hq

theorem link_pageAlloc {zero : Bool} {result : Option Nat}
    (hrun : vm.pageAlloc zero = .ok (result, vm')) (q : Nat) :
    (vm'.pages q).ppLink = if vm.pageFreeList = some q then none else (vm.pages q).ppLink := by
  unfold pageAlloc at hrun
  split at hrun
  · next hnone =>
      cases hrun
      rw [hnone, if_neg nofun]
  · next pp hsome =>
      have hpages : vm'.pages = update vm.pages pp { vm.pages pp with ppLink := none } := by
        cases zero with
        | false =>
            cases hrun
            rfl
        | true =>
            obtain ⟨kva, -, hrun⟩ := bind_eq_ok.mp hrun
            obtain ⟨vm₁, hset, hrun⟩ := bind_eq_ok.mp hrun
            cases hrun
            unfold memsetPage at hset
            split at hset <;> cases hset
            rfl
      rw [hpages, hsome]
      by_cases hq : q = pp
      · subst hq
        simp
      · simp [hq, Ne.symm hq]

theorem Listed.alloc {zero : Bool} {result : Option Nat} (h : vm.Listed l)
    (hrun : vm.pageAlloc zero = .ok (result, vm')) : vm'.Listed l.tail := by
  obtain ⟨-, hfree⟩ := Free.pageAlloc_of_ok h.chain h.nodup hrun
  refine ⟨hfree, h.nodup.sublist (List.tail_sublist l), fun q hq => ?_⟩
  rw [link_pageAlloc hrun]
  split
  · rfl
  · next hhead =>
      refine h.unlinked q fun hl => ?_
      cases l with
      | nil => cases hl
      | cons x l =>
          obtain rfl | hl := List.mem_cons.mp hl
          · exact hhead h.chain.1
          · exact hq hl

theorem pageFree_eq_ok {pp : Nat} : vm.pageFree pp = .ok vm' ↔
    (vm.pages pp).ppRef = 0 ∧ (vm.pages pp).ppLink = none ∧
      vm' = { vm.setPage pp { vm.pages pp with ppLink := vm.pageFreeList } with
        pageFreeList := some pp } := by
  unfold pageFree
  by_cases href : (vm.pages pp).ppRef = 0
  · by_cases hlink : (vm.pages pp).ppLink = none
    · simp [href, hlink, eq_comm]
    · simp [href, hlink]
  · rw [if_pos href]
    exact ⟨nofun, fun h => absurd h.1 href⟩

theorem Listed.lastFree_iff {pp : Nat} (h : vm.Listed l) (hpp : pp ∈ l) :
    vm.LastFree pp ↔ (vm.pages pp).ppLink = none := by
  constructor
  · rintro ⟨l', hchain⟩
    exact Chain.last hchain
  · intro hnone
    obtain ⟨-, l', rfl⟩ | ⟨y, -, hnext⟩ := h.chain.next_mem hpp
    · exact ⟨l', h.chain⟩
    · exact absurd (hnone.symm.trans hnext) nofun

theorem LastFree.mem {pp : Nat} (hlast : vm.LastFree pp) (h : vm.Listed l) : pp ∈ l := by
  obtain ⟨l', hchain⟩ := hlast
  rw [Chain.unique h.chain hchain]
  simp

theorem Listed.free_iff {pp : Nat} (h : vm.Listed l) (hfree : vm.pageFree pp = .ok vm') :
    (¬vm.LastFree pp → vm'.Listed (pp :: l)) ∧ (vm.LastFree pp → ¬vm'.ListSound) := by
  obtain ⟨-, hlink, rfl⟩ := pageFree_eq_ok.mp hfree
  constructor
  · intro hlast
    refine h.push (fun hpp => hlast ((h.lastFree_iff hpp).mpr hlink)) _ rfl
  · rintro hlast ⟨m, hchain, -⟩
    have hpp := hlast.mem h
    refine not_chain_of_closed (S := (· ∈ l)) hpp (fun q hq => ?_) hchain
    by_cases hqp : q = pp
    · subst hqp
      -- the last page now leads back to the head
      cases l with
      | nil => cases hpp
      | cons x l => exact ⟨x, by simpa [setPage] using h.chain.1, by simp⟩
    · obtain ⟨hnone, l', rfl⟩ | ⟨y, hy, hnext⟩ := h.chain.next_mem hq
      · obtain ⟨l'', hchain''⟩ := hlast
        have hsame := Chain.unique h.chain hchain''
        exact absurd (by simpa using congrArg List.getLast? hsame) hqp
      · exact ⟨y, by simpa [setPage, hqp] using hnext, hy⟩

theorem Listed.applyPage {op : AllocOp} (h : vm.Listed l) (hrun : vm.applyPage op = .ok vm') :
    (¬vm.FreesLast op → ∃ l', vm'.Listed l') ∧ (vm.FreesLast op → ¬vm'.ListSound) := by
  cases op with
  | alloc zero =>
      obtain ⟨⟨result, mid⟩, halloc, hrest⟩ := bind_eq_ok.mp hrun
      cases pure_eq_ok.mp hrest
      exact ⟨fun _ => ⟨_, h.alloc halloc⟩, False.elim⟩
  | free pp =>
      obtain ⟨hkeeps, hbreaks⟩ := h.free_iff hrun
      have href := (pageFree_eq_ok.mp hrun).1
      exact ⟨fun hnot => ⟨_, hkeeps fun hlast => hnot ⟨hlast, href⟩⟩, fun hlast => hbreaks hlast.1⟩
  | decref pp =>
      have hcount : ∀ ref : BitVec 16, ref - 1 = 0 ↔ ref = 1 := fun ref => sub_eq_zero
      have hsame : ∀ ref, (vm.setPage pp { vm.pages pp with ppRef := ref }).LastFree pp ↔
          vm.LastFree pp := fun ref => exists_congr fun _ => free_setRef pp ref
      simp only [Vm.applyPage, pageDecref] at hrun
      split at hrun
      · next hzero =>
          simp only [setPage, update_self, hcount] at hzero
          obtain ⟨hkeeps, hbreaks⟩ := (h.setRef pp _).free_iff hrun
          rw [hsame] at hkeeps hbreaks
          exact ⟨fun hnot => ⟨_, hkeeps fun hlast => hnot ⟨hlast, hzero⟩⟩, fun hlast => hbreaks hlast.1⟩
      · next hne =>
          simp only [setPage, update_self, hcount] at hne
          cases hrun
          exact ⟨fun _ => ⟨l, h.setRef pp _⟩, fun hlast => absurd hlast.2 hne⟩
  | incref pp =>
      cases pure_eq_ok.mp hrun
      exact ⟨fun _ => ⟨l, h.setRef pp _⟩, False.elim⟩

theorem listed_of_reachable
    (hreach : Reachable PagesReady (fun vm op vm' => vm.applyPage op = .ok vm')
      (fun vm op => ¬vm.FreesLast op) vm) : ∃ l, vm.Listed l := by
  refine hreach.invariant (P := fun vm => ∃ l, vm.Listed l) ?_ ?_
  · rintro vm ⟨npages, mem, firmware, kernEnd, hinit⟩
    obtain ⟨l, hl, -⟩ := pageInit_listed hinit
    exact ⟨l, hl⟩
  · rintro vm op vm' ⟨l, hl⟩ hallowed hrun
    exact (hl.applyPage hrun).1 hallowed

/-- In every run from `page_init` in which no call frees the last page of the free list once more, the
list is sound, a second free of a page panics unless it is that page, and the next call breaks the
list exactly when it is such a free. -/
theorem doubleFree_caught_iff
    (hreach : Reachable PagesReady (fun vm op vm' => vm.applyPage op = .ok vm')
      (fun vm op => ¬vm.FreesLast op) vm) :
    vm.ListSound ∧
      (∀ pp, vm.OnFreeList pp → ((∃ panic, vm.pageFree pp = .error panic) ↔
        ¬vm.FreesLast (.free pp))) ∧
      ∀ op vm', vm.applyPage op = .ok vm' → (vm'.ListSound ↔ ¬vm.FreesLast op) := by
  obtain ⟨l, h⟩ := listed_of_reachable hreach
  refine ⟨⟨l, h.chain, h.nodup⟩, ?_, fun op vm' hrun => ?_⟩
  · rintro pp ⟨l', hchain, hpp⟩
    rw [Chain.unique hchain h.chain] at hpp
    rw [FreesLast, h.lastFree_iff hpp]
    constructor
    · rintro ⟨panic, hpanic⟩ ⟨hlink, href⟩
      exact absurd (hpanic.symm.trans (pageFree_eq_ok.mpr ⟨href, hlink, rfl⟩)) nofun
    · intro hnot
      cases hrun : vm.pageFree pp with
      | error panic => exact ⟨panic, rfl⟩
      | ok vm' =>
          obtain ⟨href, hlink, -⟩ := pageFree_eq_ok.mp hrun
          exact absurd ⟨hlink, href⟩ hnot
  · obtain ⟨hkeeps, hbreaks⟩ := h.applyPage hrun
    constructor
    · exact fun hsound hlast => hbreaks hlast hsound
    · intro hnot
      obtain ⟨l', hl'⟩ := hkeeps hnot
      exact ⟨l', hl'.chain, hl'.nodup⟩

def smallBoot : Except Panic Vm :=
  memInit 1024 (fun _ => none) 0x23000 (kernbase + phymemoff + 0x210000)

/-- Page 35, the first above the firmware, is on the list, and `page_free` takes it again. -/
theorem first_page_freed_twice : ∃ vm vm', PagesReady vm ∧ vm.OnFreeList 35 ∧
    vm.applyPage (.free 35) = .ok vm' ∧ ¬vm'.ListSound := by
  have heval : smallBoot.toOption.map (fun vm => vm.pages 35) = some ⟨none, 0⟩ := by
    decide +kernel
  obtain ⟨vm, hinit, hpage⟩ := exists_of_toOption_map heval
  obtain ⟨l, h, hlow⟩ := pageInit_listed hinit
  have hmem : 35 ∈ l := hlow 35 (by decide) (by decide) (by decide)
  have hrun := pageFree_eq_ok.mpr ⟨congrArg PageInfo.ppRef hpage, congrArg PageInfo.ppLink hpage, rfl⟩
  have hlast := (h.lastFree_iff hmem).mpr (congrArg PageInfo.ppLink hpage)
  exact ⟨vm, _, ⟨_, _, _, _, hinit⟩, ⟨l, h.chain, hmem⟩, hrun, (h.free_iff hrun).2 hlast⟩

/-- The same machine after one page was taken. -/
theorem doubleFree_caught_booted : ∃ vm : Vm, vm.pageFreeList = some 1022 ∧ vm.ListSound ∧
    ((∃ panic, vm.pageFree 1022 = .error panic) ↔ ¬vm.FreesLast (.free 1022)) := by
  have heval : (do
      let vm ← smallBoot
      vm.applyPage (.alloc false) : Except Panic Vm).toOption.map (fun vm => vm.pageFreeList) =
        some (some 1022) := by
    decide +kernel
  obtain ⟨vm, hrun, hhead⟩ := exists_of_toOption_map heval
  obtain ⟨boot, hboot, halloc⟩ := bind_eq_ok.mp hrun
  have hstart : PagesReady boot := ⟨_, _, _, _, hboot⟩
  obtain ⟨hsound, hcaught, -⟩ := doubleFree_caught_iff (.next (.start hstart) id halloc)
  obtain ⟨l, hchain, hnodup⟩ := hsound
  have hlist := hchain
  rw [Vm.Free, hhead] at hlist
  obtain ⟨l', rfl, -⟩ := hlist.exists_cons
  exact ⟨vm, hhead, ⟨_, hchain, hnodup⟩, hcaught 1022 ⟨_, hchain, List.mem_cons_self⟩⟩

end Vm

end ZynexOS
