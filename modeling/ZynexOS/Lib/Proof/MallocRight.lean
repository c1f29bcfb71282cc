import ZynexOS.Lib.Proof.HeapSteps

/-!
# `malloc` hands out disjoint blocks

The scan only makes sure of the last page of a run: a run of two pages or more can take the page behind
a block of whole pages, which holds nothing but the counter of that block.
-/

namespace ZynexOS

open Library Function

namespace Malloc

open Heap

variable {h h' : Heap} {b b' : Block} {live : List Block} {written : Bytes} {p q : Nat}
variable {n v pages avail k : Nat}

/-! ### The scan -/

theorem one_le_pagesFor (n : Nat) : 1 ≤ pagesFor (n + 4) := by
  unfold pagesFor
  omega

structure ScanEnds (h : Heap) (n start : Nat) (found : Bool) (v : Nat) : Prop where
  aligned : v % 4096 = 0
  low : mbegin ≤ v
  high : v < mend
  passes : found = true → h.isfree v (n + 4) = true
  scans : found = true → Scans (fun v => h.isfree v (n + 4) = true) start v

theorem ScanEnds.of_setMptr {a start : Nat} {found : Bool}
    (hends : ScanEnds (h.setMptr a) n start found v) : ScanEnds h n start found v :=
  ⟨hends.aligned, hends.low, hends.high, hends.passes, hends.scans⟩

theorem ScanEnds.next {start : Nat} {found : Bool} (hfails : ¬h.isfree start (n + 4) = true)
    (hends : ScanEnds h n (scanNext start) found v) : ScanEnds h n start found v :=
  ⟨hends.aligned, hends.low, hends.high, hends.passes, fun ht => .next hfails (hends.scans ht)⟩

theorem findSpace_run {fuel nwrap : Nat} (halign : h.mptr % 4096 = 0) (hlow : mbegin ≤ h.mptr)
    (hhigh : h.mptr < mend) (hwrap : nwrap < 2)
    (hfuel : (mend - h.mptr) / 4096 + (1 - nwrap) * 32768 ≤ fuel) :
    ∃ found v, findSpace n fuel nwrap h = .ok found (h.setMptr v) ∧
      ScanEnds h n h.mptr found v := by
  induction fuel generalizing h nwrap with
  | zero =>
      unfold mend at hhigh hfuel
      omega
  | succ fuel ih =>
      rw [findSpace, get_bind]
      by_cases hfree : h.isfree h.mptr (n + 4) = true
      · rw [if_pos hfree]
        exact ⟨true, h.mptr, rfl, halign, hlow, hhigh, fun _ => hfree, fun _ => .here _⟩
      · rw [if_neg hfree]
        by_cases hend : h.mptr + 4096 = mend
        · rw [if_pos hend, modify_bind]
          by_cases hlast : nwrap + 1 = 2
          · rw [if_pos hlast]
            exact ⟨false, mbegin, rfl, by decide, le_rfl, by decide, nofun, nofun⟩
          · have hnext : scanNext h.mptr = mbegin := if_pos hend
            have hfuel' : (mend - mbegin) / 4096 + (1 - (nwrap + 1)) * 32768 ≤ fuel := by
              simp only [mend, mbegin] at hfuel hend ⊢
              omega
            obtain ⟨found, v, hrun, hends⟩ := @ih (h.setMptr mbegin) (nwrap + 1) (by norm_num [mbegin])
              le_rfl (by norm_num [mbegin, mend]) (by omega) hfuel'
            rw [if_neg hlast]
            exact ⟨found, v, hrun, .next hfree (by rw [hnext]; exact hends.of_setMptr)⟩
        · have hnext : scanNext h.mptr = h.mptr + 4096 := if_neg hend
          have hhigh' : h.mptr + 4096 < mend := by
            unfold mend at hhigh hend ⊢
            omega
          obtain ⟨found, v, hrun, hends⟩ := @ih (h.setMptr (h.mptr + 4096)) nwrap
            (by rw [mptr_setMptr]; omega) (by rw [mptr_setMptr]; omega) hhigh' hwrap
            (by rw [mptr_setMptr]; omega)
          rw [if_neg hend, modify_bind]
          exact ⟨found, v, hrun, .next hfree (by rw [hnext]; exact hends.of_setMptr)⟩

theorem isfree_iff : h.isfree v (n + 4) = true ↔
    v + 4096 * pagesFor (n + 4) < mend ∧ h.mapped (pageOf v + (pagesFor (n + 4) - 1)) = false := by
  have := one_le_pagesFor n
  have hne : pagesFor (n + 4) ≠ 0 := by omega
  simp [Heap.isfree, hne]

/-! ### New pages -/

def Heap.allocRange (h : Heap) (p pages k : Nat) : Heap :=
  { h with
    mapped := fun q => if p ≤ q ∧ q < p + k then true else h.mapped q
    continued := fun q => if p ≤ q ∧ q < p + k then decide (q + 1 < p + pages) else h.continued q
    mem := h.mem.fill (4096 * p) (4096 * k) 0 }

theorem allocRange_zero (h : Heap) (p pages : Nat) : h.allocRange p pages 0 = h := by
  have hnone (q : Nat) : ¬(p ≤ q ∧ q < p + 0) := by omega
  have hmem : h.mem.fill (4096 * p) (4096 * 0) 0 = h.mem := by
    funext x
    exact Bytes.fill_apply_of_not_mem (by omega)
  simp only [Heap.allocRange, hnone, if_false, hmem]

theorem allocRange_succ (h : Heap) (p pages k : Nat) :
    (h.allocRange p pages k).pageAlloc (p + k) (k + 1 < pages) = h.allocRange p pages (k + 1) := by
  have hstep (f g : Nat → Bool) (c : Bool) (hc : g (p + k) = c) :
      update (fun q => if p ≤ q ∧ q < p + k then g q else f q) (p + k) c =
        fun q => if p ≤ q ∧ q < p + (k + 1) then g q else f q := by
    funext q
    by_cases hq : q = p + k
    · subst hq
      rw [update_self, if_pos (by omega), hc]
    · rw [update_of_ne hq]
      have : (p ≤ q ∧ q < p + (k + 1)) ↔ (p ≤ q ∧ q < p + k) := by omega
      simp only [this]
  have hcont : decide (p + k + 1 < p + pages) = decide (k + 1 < pages) :=
    decide_eq_decide.mpr (by omega)
  have hmem : ((h.mem.fill (4096 * p) (4096 * k) 0).fill (4096 * (p + k)) 4096 0)
      = h.mem.fill (4096 * p) (4096 * (k + 1)) 0 := by
    funext x
    simp only [Bytes.fill]
    split
    · rw [if_pos (by omega)]
    · rename_i hx
      have : (4096 * p ≤ x ∧ x < 4096 * p + 4096 * (k + 1)) ↔
          (4096 * p ≤ x ∧ x < 4096 * p + 4096 * k) := by omega
      simp only [this]
  simp only [Heap.allocRange, Heap.pageAlloc, hstep _ (fun _ => true) true rfl,
    hstep _ (fun q => decide (q + 1 < p + pages)) _ hcont, hmem]

theorem unmapDown_run (h : Heap) (p i : Nat) :
    unmapDown p i h = .ok () (h.unmapRange p (p + i + 1)) := by
  induction i generalizing h with
  | zero =>
      have := unmapRange_pageUnmap (h := h) (Nat.lt_succ_self p)
      rw [unmapRange_self] at this
      rw [← this]
      rfl
  | succ i ih =>
      rw [unmapDown, modify_bind, ih]
      have hstep (f : Nat → Bool) : (fun q => if p ≤ q ∧ q < p + i + 1 then false
          else update f (p + (i + 1)) false q) =
          fun q => if p ≤ q ∧ q < p + (i + 1) + 1 then false else f q := by
        funext q
        by_cases hq : q = p + (i + 1)
        · subst hq
          rw [update_self, ite_self, if_pos (by omega)]
        · rw [update_of_ne hq]
          have : (p ≤ q ∧ q < p + i + 1) ↔ (p ≤ q ∧ q < p + (i + 1) + 1) := by omega
          simp only [this]
      simp only [Heap.unmapRange, Heap.pageUnmap, hstep]

theorem allocPages_from {left : Nat} (hleft : left ≤ pages) :
    allocPages p pages avail left (h.allocRange p pages (pages - left)) =
      .ok true (h.allocRange p pages pages) ∨
    ∃ k < pages, allocPages p pages avail left (h.allocRange p pages (pages - left)) =
      .ok false ((h.allocRange p pages k).unmapRange p (p + k + 1)) := by
  induction left with
  | zero => exact .inl rfl
  | succ left ih =>
      have hnext : pages - left = pages - (left + 1) + 1 := by omega
      by_cases havail : pages - (left + 1) < avail
      · have hrun : allocPages p pages avail (left + 1) (h.allocRange p pages (pages - (left + 1))) =
            allocPages p pages avail left (h.allocRange p pages (pages - left)) := by
          rw [allocPages, if_pos havail, modify_bind, allocRange_succ, hnext]
        rw [hrun]
        exact ih (by omega)
      · refine .inr ⟨pages - (left + 1), by omega, ?_⟩
        rw [allocPages, if_neg havail, bind_of_ok (unmapDown_run _ p (pages - (left + 1)))]
        rfl

theorem allocPages_run (h : Heap) (p pages avail : Nat) :
    allocPages p pages avail pages h = .ok true (h.allocRange p pages pages) ∨
    ∃ k < pages, allocPages p pages avail pages h =
      .ok false ((h.allocRange p pages k).unmapRange p (p + k + 1)) := by
  have := @allocPages_from h p pages avail pages le_rfl
  rwa [Nat.sub_self, allocRange_zero] at this

def Heap.Fresh (h : Heap) (p pages : Nat) : Prop := ∀ q, p ≤ q → q < p + pages → h.mapped q = false

theorem Heap.Fresh.not_mem (hfresh : h.Fresh p pages) (hq : h.mapped q = true) :
    q < p ∨ p + pages ≤ q := by
  by_contra hin
  rw [hfresh q (by omega) (by omega)] at hq
  cases hq

theorem Heap.Fresh.mem_fill {x : Nat} (hfresh : h.Fresh p pages) (hk : k ≤ pages)
    (hx : h.mapped (pageOf x) = true) : h.mem.fill (4096 * p) (4096 * k) 0 x = h.mem x := by
  refine Bytes.fill_apply_of_not_mem ?_
  have := hfresh.not_mem hx
  unfold pageOf at this
  omega

theorem Heap.Fresh.keeps_allocRange (hfresh : h.Fresh p pages)
    (hcont : ∀ q, h.continued q = true → h.mapped q = true) :
    Keeps h (h.allocRange p pages pages) where
  mapped q hq := by
    have hout : ¬(p ≤ q ∧ q < p + pages) := by
      have := hfresh.not_mem hq
      omega
    exact ⟨(if_neg hout).trans hq, if_neg hout⟩
  mem x hx _ := hfresh.mem_fill le_rfl hx
  continued q hq := by
    simp only [Heap.allocRange] at hq ⊢
    split at hq
    · rename_i hin
      exact if_pos hin
    · rename_i hout
      rw [if_neg hout]
      exact hcont q hq

theorem Heap.Fresh.mapped_undone (hfresh : h.Fresh p pages) (hk : k < pages)
    (q : Nat) : ((h.allocRange p pages k).unmapRange p (p + k + 1)).mapped q = h.mapped q := by
  simp only [Heap.unmapRange, Heap.allocRange]
  split
  · exact (hfresh q (by omega) (by omega)).symm
  · exact if_neg (by omega)

theorem Heap.Fresh.keeps_undone (hfresh : h.Fresh p pages) (hk : k < pages)
    (hcont : ∀ q, h.continued q = true → h.mapped q = true) :
    Keeps h ((h.allocRange p pages k).unmapRange p (p + k + 1)) where
  mapped q hq := by
    have hout := hfresh.not_mem hq
    refine ⟨(hfresh.mapped_undone hk q).trans hq, ?_⟩
    simp only [Heap.unmapRange, Heap.allocRange]
    rw [if_neg (by omega), if_neg (by omega)]
  mem x hx _ := hfresh.mem_fill hk.le hx
  continued q hq := by
    rw [hfresh.mapped_undone hk]
    simp only [Heap.unmapRange, Heap.allocRange] at hq
    split at hq
    · cases hq
    · rw [if_neg (by omega)] at hq
      exact hcont q hq

theorem counter_congr (hmem : ∀ x, pageOf x = q → h'.mem x = h.mem x) :
    h'.counter q = h.counter q := by
  refine Bytes.loadNat_congr fun x hlow hhigh => hmem x ?_
  unfold counterAddr at hlow hhigh
  unfold pageOf
  omega

/-! ### A new block -/

def adopt (h : Heap) (b : Block) (written : Bytes) : Bytes := fun x =>
  if b.ptr ≤ x ∧ x < b.ptr + b.size then h.mem x else written x

theorem Core.cons (hcore : Core h live written) (hb : Placed h b)
    (hapart : ∀ b' ∈ live, b.Apart b') : Core h (b :: live) (adopt h b written) where
  placed b' hb' := by
    rcases List.mem_cons.mp hb' with rfl | hb'
    · exact hb
    · exact hcore.placed b' hb'
  apart := List.pairwise_cons.mpr ⟨hapart, hcore.apart⟩
  contents b' hb' i hi := by
    rcases List.mem_cons.mp hb' with rfl | hb'
    · exact (if_pos (by omega)).symm
    · rw [adopt, if_neg]
      · exact hcore.contents b' hb' i hi
      · have := hapart b' hb'
        have := hb.size
        have := (hcore.placed b' hb').size
        unfold Block.Apart at *
        omega
  continued := hcore.continued

theorem Heap.Fresh.apart (hfresh : h.Fresh p pages) (hb' : Placed h b')
    (hlow : 4096 * p ≤ b.ptr) (hhigh : b.ptr + b.len ≤ 4096 * (p + pages)) (hpages : 1 ≤ pages) :
    b.Apart b' := by
  have hfirst := b'.first_le_home
  have hout : b'.home < p ∨ p + pages ≤ b'.first := by
    by_contra hin
    -- A page in both runs would be mapped and not mapped.
    have hmapped := hb'.mapped (q := max b'.first p) (le_max_left _ _) (by omega)
    rw [hfresh _ (le_max_right _ _) (by omega)] at hmapped
    cases hmapped
  have hend := b'.end_le
  unfold Block.Apart
  simp only [Block.first, pageOf, counterAddr] at hout hend
  omega

def Heap.withRun (h : Heap) (p m : Nat) : Heap :=
  ((h.allocRange p (pagesFor (m + 4)) (pagesFor (m + 4))).setCounter
    (p + (pagesFor (m + 4) - 1)) 2).setMptr (4096 * p + m)

theorem pagesFor_eq (m : Nat) : pagesFor (m + 4) = (m + 3) / 4096 + 1 := by
  unfold pagesFor
  omega

theorem home_withRun (p n : Nat) :
    (⟨4096 * p, n⟩ : Block).home = p + (pagesFor (roundUp8 n + 4) - 1) ∧
      ((4096 * p + roundUp8 n) % 4096 ≠ 0 →
        pageOf (4096 * p + roundUp8 n) = p + (pagesFor (roundUp8 n + 4) - 1)) := by
  have hm : roundUp8 n % 8 = 0 := eight_dvd_roundUp8 n
  have hpages := pagesFor_eq (roundUp8 n)
  unfold Block.home Block.len pageOf
  dsimp only
  omega

theorem first_withRun (p n : Nat) : (⟨4096 * p, n⟩ : Block).first = p := by
  unfold Block.first pageOf
  dsimp only
  omega

theorem Heap.Fresh.core_withRun (hn : n + 7 < 2 ^ 64)
    (hfresh : h.Fresh p (pagesFor (roundUp8 n + 4))) (hcore : Core h live written)
    (hlow : mbegin ≤ 4096 * p) (hhigh : 4096 * p + 4096 * pagesFor (roundUp8 n + 4) < mend) :
    Core (h.withRun p (roundUp8 n)) (⟨4096 * p, n⟩ :: live)
      (adopt (h.withRun p (roundUp8 n)) ⟨4096 * p, n⟩ written) := by
  have hpages := one_le_pagesFor (roundUp8 n)
  have hhome := (home_withRun p n).1
  have hfirst := first_withRun p n
  generalize hk : pagesFor (roundUp8 n + 4) = pages at *
  have hlast : (h.allocRange p pages pages).continued (p + (pages - 1)) = false := by
    simp only [Heap.allocRange]
    rw [if_pos (by omega), decide_eq_false_iff_not]
    omega
  have hkeep := hfresh.keeps_allocRange hcore.continued
  have hrun : Core (h.withRun p (roundUp8 n)) live written := by
    unfold Heap.withRun
    rw [hk]
    exact ((hcore.keep hkeep).keep (keeps_setCounter hlast hkeep.continued 2)).setMptr _
  refine hrun.cons ?_ fun b' hb' => ?_
  · refine ⟨hlow, by rw [hhome]; omega, by dsimp only; omega, le_roundUp8 hn,
      fun _ => Nat.mul_mod_right _ _, fun q hq hqh => ?_, ?_⟩
    · rw [hfirst] at hq
      rw [hhome] at hqh
      simp only [Heap.withRun, Heap.allocRange, Heap.setCounter, Heap.setMptr, hk]
      rw [if_pos (by omega), if_pos (by omega), decide_eq_true_iff]
      exact ⟨rfl, by omega⟩
    · rw [hhome]
      simp only [Heap.withRun, hk]
      exact ⟨if_pos (by omega), hlast⟩
  · refine hfresh.apart (hcore.placed b' hb') le_rfl ?_ hpages
    have := pagesFor_eq (roundUp8 n)
    show 4096 * p + roundUp8 n ≤ _
    omega

theorem Heap.Fresh.counted_withRun (hfresh : h.Fresh p (pagesFor (roundUp8 n + 4)))
    (hcore : Core h live written) (hcounted : Counted h live fun _ => 0) :
    Counted (h.withRun p (roundUp8 n)) (⟨4096 * p, n⟩ :: live)
      (cursorRefs (4096 * p + roundUp8 n)) := by
  have hpages := one_le_pagesFor (roundUp8 n)
  obtain ⟨hhome, hcursor⟩ := home_withRun p n
  intro q hq hqc
  by_cases hqh : q = p + (pagesFor (roundUp8 n + 4) - 1)
  · have hnone : homed live q = 0 := by
      refine homed_eq_zero fun b hb heq => ?_
      have := hfresh.not_mem ((hcore.placed b hb).homed.1)
      omega
    have hone : cursorRefs (4096 * p + roundUp8 n) q ≤ 1 := by
      unfold cursorRefs
      split <;> omega
    have htwo : (h.withRun p (roundUp8 n)).counter q = 2 := by
      rw [hqh]
      exact counter_setCounter_self 2
    rw [htwo]
    simp only [homed, List.countP_cons] at hnone ⊢
    split <;> omega
  · -- Any other page with a counter was there before.
    have hout : ¬(p ≤ q ∧ q < p + pagesFor (roundUp8 n + 4)) := by
      intro hin
      simp only [Heap.withRun, Heap.allocRange, Heap.setCounter, Heap.setMptr] at hqc
      rw [if_pos hin, decide_eq_false_iff_not] at hqc
      omega
    simp only [Heap.withRun, Heap.allocRange, Heap.setCounter, Heap.setMptr, if_neg hout] at hq hqc
    have hsame : (h.withRun p (roundUp8 n)).counter q = h.counter q := by
      refine (counter_setCounter_of_ne hqh 2).trans (counter_congr fun x hx => ?_)
      exact hfresh.mem_fill le_rfl (hx ▸ hq)
    have hzero : cursorRefs (4096 * p + roundUp8 n) q = 0 := by
      unfold cursorRefs
      rw [if_neg]
      rintro ⟨hmid, hpage⟩
      exact hqh (hpage.symm.trans (hcursor hmid))
    rw [hsame, hzero]
    have hcount := hcounted q hq hqc
    simp only [homed, List.countP_cons, hhome, Ne.symm hqh, decide_false] at hcount ⊢
    exact hcount

theorem Heap.Fresh.sound (hn : n + 7 < 2 ^ 64)
    (hfresh : h.Fresh p (pagesFor (roundUp8 n + 4))) (hcore : Core h live written)
    (hcounted : Counted h live fun _ => 0) (hlow : mbegin ≤ 4096 * p)
    (hhigh : 4096 * p + 4096 * pagesFor (roundUp8 n + 4) < mend) :
    Sound (h.withRun p (roundUp8 n)) (⟨4096 * p, n⟩ :: live)
      (adopt (h.withRun p (roundUp8 n)) ⟨4096 * p, n⟩ written) := by
  have hm : roundUp8 n % 8 = 0 := eight_dvd_roundUp8 n
  have hpages := pagesFor_eq (roundUp8 n)
  obtain ⟨hhome, hcursor⟩ := home_withRun p n
  have hcore' := hfresh.core_withRun hn hcore hlow hhigh
  have hmptr : (h.withRun p (roundUp8 n)).mptr = 4096 * p + roundUp8 n := rfl
  refine ⟨hcore', hfresh.counted_withRun hcore hcounted, ?_⟩
  refine ⟨by rw [hmptr]; omega, by rw [hmptr]; omega, fun hmid => ?_, fun hmid b hb hpage => ?_⟩
  · rw [hmptr] at hmid ⊢
    have hplaced := hcore'.placed _ List.mem_cons_self
    rw [hcursor hmid, ← hhome]
    exact ⟨hplaced.homed.1, hplaced.homed.2, hplaced.high⟩
  · rw [hmptr] at hmid hpage ⊢
    rcases List.mem_cons.mp hb with rfl | hb
    · exact le_rfl
    · -- Another block has its home in a page that was mapped.
      have := hfresh.not_mem ((hcore.placed b hb).homed.1)
      rw [hpage, hcursor hmid] at this
      omega

/-! ### `malloc` -/

def Gives (live : List Block) (written : Bytes) (n v : Nat) (h : Heap) : Prop :=
  v = 0 ∧ Sound h live written ∨
    v ≠ 0 ∧ Sound h (⟨v, n⟩ :: live) (adopt h ⟨v, n⟩ written)

theorem newRun_run (hn : n + 7 < 2 ^ 64) (hcore : Core h live written)
    (hcounted : Counted h live fun _ => 0) (halign : h.mptr % 4096 = 0) (hlow : mbegin ≤ h.mptr)
    (hhigh : h.mptr < mend)
    (hspace : ∀ v, Scans (fun v => h.isfree v (roundUp8 n + 4) = true) h.mptr v →
      h.isfree v (roundUp8 n + 4) = true → h.Fresh (pageOf v) (pagesFor (roundUp8 n + 4))) :
    ∃ v h', newRun (roundUp8 n) avail h = .ok v h' ∧ Gives live written n v h' := by
  have hfuel : (mend - h.mptr) / 4096 + (1 - 0) * 32768 ≤ 2 * pageOf mend := by
    simp only [mend, mbegin, pageOf] at hlow ⊢
    omega
  obtain ⟨found, v, hrun, hends⟩ := @findSpace_run h (roundUp8 n) (2 * pageOf mend) 0 halign hlow hhigh
    (by decide) hfuel
  have hv := hcore.setMptr v
  unfold newRun
  rw [bind_of_ok hrun]
  cases found with
  | false =>
      exact ⟨0, h.setMptr v, rfl, .inl ⟨rfl, hv.sound (fun q => hcounted q) hends.aligned hends.low
        hends.high⟩⟩
  | true =>
      have haddr : 4096 * pageOf v = v := by
        have := hends.aligned
        unfold pageOf
        omega
      have hfresh : (h.setMptr v).Fresh (pageOf v) (pagesFor (roundUp8 n + 4)) :=
        hspace v (hends.scans rfl) (hends.passes rfl)
      obtain ⟨hend, -⟩ := isfree_iff.mp (hends.passes rfl)
      rw [if_pos rfl, get_bind, mptr_setMptr]
      rcases allocPages_run (h.setMptr v) (pageOf v) (pagesFor (roundUp8 n + 4)) avail
        with hall | ⟨k, hk, hsome⟩
      · rw [bind_of_ok hall, if_pos rfl, modify_bind, modify_bind]
        refine ⟨v, (h.setMptr v).withRun (pageOf v) (roundUp8 n), ?_, .inr ⟨?_, ?_⟩⟩
        · simp only [Heap.withRun, haddr]
          rfl
        · have := hends.low
          unfold mbegin at this
          omega
        · have := hfresh.sound hn hv (fun q => hcounted q) (by rw [haddr]; exact hends.low)
            (by rw [haddr]; exact hend)
          rwa [haddr] at this
      · rw [bind_of_ok hsome]
        refine ⟨0, _, rfl, .inl ⟨rfl, ?_⟩⟩
        have hkeep := hfresh.keeps_undone hk hv.continued
        refine (hv.keep hkeep).sound (fun q hq hqc => ?_) hends.aligned hends.low hends.high
        rw [hfresh.mapped_undone hk] at hq
        rw [(hkeep.mapped q hq).2] at hqc
        rw [counter_congr fun x hx => hfresh.mem_fill hk.le (hx ▸ hq)]
        exact hcounted q hq hqc

theorem Sound.fits (hs : Sound h live written) (hn : n + 7 < 2 ^ 64)
    (hfits : h.Fits (roundUp8 n)) (hcounter : h.counter (pageOf h.mptr) + 1 < 2 ^ 32) :
    Sound ((h.setCounter (pageOf h.mptr) (h.counter (pageOf h.mptr) + 1)).setMptr
        (h.mptr + roundUp8 n)) (⟨h.mptr, n⟩ :: live)
      (adopt ((h.setCounter (pageOf h.mptr) (h.counter (pageOf h.mptr) + 1)).setMptr
        (h.mptr + roundUp8 n)) ⟨h.mptr, n⟩ written) := by
  obtain ⟨hmid, hpage⟩ := hfits
  obtain ⟨hmapped, hcont, hhigh⟩ := hs.cursor.page hmid
  have hm : roundUp8 n % 8 = 0 := eight_dvd_roundUp8 n
  have halign := hs.cursor.aligned
  have hhome : (⟨h.mptr, n⟩ : Block).home = pageOf h.mptr := hpage.symm
  have hnext : pageOf (h.mptr + roundUp8 n) = pageOf h.mptr ∧ (h.mptr + roundUp8 n) % 4096 ≠ 0 := by
    unfold pageOf at hpage ⊢
    omega
  have hkeep := keeps_setCounter hcont hs.core.continued (h.counter (pageOf h.mptr) + 1)
  have hcore := (hs.core.keep hkeep).setMptr (h.mptr + roundUp8 n)
  refine ⟨hcore.cons ?_ fun b' hb' => ?_, fun q hq hqc => ?_, ?_⟩
  · refine ⟨hs.cursor.inside.1, by rw [hhome]; exact hhigh, halign, le_roundUp8 hn, fun hlt => ?_,
      fun q hq hqh => ?_, by rw [hhome]; exact ⟨hmapped, hcont⟩⟩
    · rw [hhome] at hlt
      exact absurd hlt (lt_irrefl _)
    · rw [hhome] at hqh
      exact absurd hqh (not_lt.mpr hq)
  · -- Another block ends in the page before `mptr`, or has no part in the page.
    have hb := hs.core.placed b' hb'
    have hbehind := hs.cursor.behind hmid b' hb'
    have hend := b'.end_le
    have hfirst : ¬(b'.first ≤ pageOf h.mptr ∧ pageOf h.mptr < b'.home) := fun hin => by
      rw [(hb.pages _ hin.1 hin.2).2] at hcont
      cases hcont
    unfold Block.Apart
    show h.mptr + roundUp8 n ≤ _ ∨ _ ≤ h.mptr
    simp only [Block.first, pageOf, counterAddr] at *
    omega
  · have hcount := hs.counted q hq hqc
    rw [mptr_setMptr]
    by_cases hqp : q = pageOf h.mptr
    · have hself : (h.setCounter (pageOf h.mptr) (h.counter (pageOf h.mptr) + 1)).counter q =
          h.counter q + 1 := by
        rw [hqp, counter_setCounter_self, Nat.mod_eq_of_lt hcounter]
      show _ ≤ (h.setCounter (pageOf h.mptr) (h.counter (pageOf h.mptr) + 1)).counter q
      rw [hself]
      simp only [homed, List.countP_cons, cursorRefs, hhome, hqp, hnext.1, hnext.2, hmid, ne_eq,
        not_false_eq_true, and_self, decide_true, if_true] at hcount ⊢
      omega
    · show _ ≤ (h.setCounter (pageOf h.mptr) (h.counter (pageOf h.mptr) + 1)).counter q
      rw [counter_setCounter_of_ne hqp]
      simp only [homed, List.countP_cons, cursorRefs, hhome, hnext.1, Ne.symm hqp, and_false,
        if_false, decide_false] at hcount ⊢
      exact hcount
  · refine ⟨?_, ?_, fun _ => ?_, fun _ b hb hpage' => ?_⟩
    all_goals rw [mptr_setMptr] at *
    · have := hs.cursor.inside.1
      have := hnext.1
      unfold pageOf at this hhigh
      omega
    · omega
    · rw [hnext.1]
      exact ⟨hmapped, hcont, hhigh⟩
    · rw [hnext.1] at hpage'
      rcases List.mem_cons.mp hb with rfl | hb
      · exact le_rfl
      · exact le_trans (hs.cursor.behind hmid b hb hpage') (Nat.le_add_right _ _)

theorem Sound.place_run (hs : Sound h live written) (hn : n + 7 < 2 ^ 64)
    (hmanages : h.Manages (roundUp8 n)) :
    ∃ v h', place (roundUp8 n) avail h = .ok v h' ∧ Gives live written n v h' := by
  have hne : h.mptr ≠ 0 := by
    have := hs.cursor.inside.1
    unfold mbegin at this
    omega
  unfold place
  rw [get_bind]
  by_cases hfits : h.Fits (roundUp8 n)
  · rw [if_pos hfits, bind_of_ok (addRef_run (hs.cursor.page hfits.1).1), modify_bind]
    exact ⟨h.mptr, _, rfl, .inr ⟨hne, hs.fits hn hfits (hmanages.counter hfits)⟩⟩
  · rw [if_neg hfits, bind_of_ok hs.leavePage_run]
    obtain ⟨hcore, hcounted, halign, hlow, hhigh⟩ := hs.left
    have hpasses (v : Nat) : h.left.isfree v (roundUp8 n + 4) = true ↔
        h.Passes (pagesFor (roundUp8 n + 4)) v := by
      rw [isfree_iff, hs.mapped_left]
      rfl
    have hstart : h.left.mptr = h.scanStart := by
      unfold Heap.left Heap.scanStart
      rw [if_neg hne]
      split <;> rfl
    refine newRun_run hn hcore hcounted halign hlow hhigh fun v hscan hfree q hq hqp => ?_
    simp only [hpasses, hstart] at hscan hfree
    have hunused := hmanages.space hfits v hscan hfree (q - pageOf v) (by omega)
    rw [Nat.add_sub_cancel' hq] at hunused
    exact (hs.mapped_left q).mpr hunused

/-! ### Every run -/

structure Unstarted (h : Heap) (live : List Block) : Prop where
  unmapped : ∀ p, h.mapped p = false
  continued : ∀ p, h.continued p = false
  mptr : h.mptr = 0
  live : live = []

theorem Unstarted.sound (hu : Unstarted h live) : Sound (h.setMptr mbegin) live written := by
  obtain ⟨hunmapped, hcontinued, -, rfl⟩ := hu
  have hcore : Core (h.setMptr mbegin) [] written :=
    ⟨nofun, List.Pairwise.nil, nofun, fun q hq => absurd hq (by
      rw [show (h.setMptr mbegin).continued q = false from hcontinued q]
      exact Bool.false_ne_true)⟩
  refine hcore.sound (fun q hq _ => ?_) (by norm_num [mbegin]) le_rfl (by norm_num [mbegin, mend])
  rw [mapped_setMptr, hunmapped] at hq
  cases hq

theorem Unstarted.manages (hu : Unstarted h live) (hmanages : h.Manages n) :
    (h.setMptr mbegin).Manages n where
  counter hfits := absurd (show mbegin % 4096 = 0 by decide) hfits.1
  space _ v hscan hpass i hi := by
    have hfits : ¬h.Fits n := fun hfits => hfits.1 (by rw [hu.mptr])
    have hunused (q : Nat) : (h.setMptr mbegin).Unused q ↔ h.Unused q := by
      have hzero : ¬mbegin % 4096 ≠ 0 := by decide
      simp [Heap.Unused, hu.mptr, hzero]
    have hpasses : (h.setMptr mbegin).Passes (pagesFor (n + 4)) = h.Passes (pagesFor (n + 4)) := by
      funext v
      simp only [Heap.Passes, hunused]
    have hstart : (h.setMptr mbegin).scanStart = h.scanStart := by
      simp only [Heap.scanStart, hu.mptr, mptr_setMptr]
      norm_num [mbegin]
    rw [hpasses] at hscan hpass
    rw [hstart] at hscan
    rw [hunused]
    exact hmanages.space hfits v hscan hpass i hi

theorem malloc_run (hgood : Unstarted h live ∨ Sound h live written)
    (hn : n + 7 < 2 ^ 64) (hmanages : roundUp8 n < maxMalloc → h.Manages (roundUp8 n)) :
    ∃ v h', malloc n avail h = .ok v h' ∧ Gives live written n v h' := by
  unfold malloc
  rw [modify_bind]
  have hstart : ∃ h₀, (if h.mptr = 0 then h.setMptr mbegin else h) = h₀ ∧ Sound h₀ live written ∧
      (roundUp8 n < maxMalloc → h₀.Manages (roundUp8 n)) := by
    rcases hgood with hu | hs
    · exact ⟨_, if_pos hu.mptr, hu.sound, fun hlt => hu.manages (hmanages hlt)⟩
    · refine ⟨_, if_neg ?_, hs, hmanages⟩
      have := hs.cursor.inside.1
      unfold mbegin at this
      omega
  obtain ⟨h₀, heq, hs, hmanages⟩ := hstart
  rw [heq]
  by_cases hlarge : maxMalloc ≤ roundUp8 n
  · rw [if_pos hlarge]
    exact ⟨0, h₀, rfl, .inl ⟨rfl, hs⟩⟩
  · rw [if_neg hlarge]
    exact hs.place_run hn (hmanages (not_le.mp hlarge))

theorem Sound.store (hs : Sound h live written) (hb : b ∈ live) {i : Nat} (hi : i < b.size)
    (byte : BitVec 8) :
    Sound { h with mem := update h.mem (b.ptr + i) byte } live
      (update written (b.ptr + i) byte) where
  core :=
    { placed := fun b' hb' => (hs.core.placed b' hb').congr fun _ _ _ => ⟨rfl, rfl⟩
      apart := hs.core.apart
      contents := fun b' hb' j hj => by
        by_cases hx : b'.ptr + j = b.ptr + i
        · simp only [hx, update_self]
        · simp only [update_of_ne hx]
          exact hs.core.contents b' hb' j hj
      continued := hs.core.continued }
  counted q hq hqc := by
    have hsame : ({ h with mem := update h.mem (b.ptr + i) byte } : Heap).counter q =
        h.counter q := by
      refine Bytes.loadNat_congr fun x hlow hhigh => update_of_ne ?_ ..
      have := (hs.core.placed b hb).not_counter hi hqc
      omega
    rw [hsame]
    exact hs.counted q hq hqc
  cursor := ⟨hs.cursor.inside, hs.cursor.aligned, hs.cursor.page, hs.cursor.behind⟩

namespace Process

variable {s s' : Process}

structure Good (s : Process) : Prop where
  running : s.panicked = false
  heap : Unstarted s.heap s.live ∨ Sound s.heap s.live s.written

theorem Good.sound_of_mem (hgood : s.Good) (hb : b ∈ s.live) : Sound s.heap s.live s.written := by
  refine hgood.heap.resolve_left fun hu => ?_
  rw [hu.live] at hb
  cases hb

theorem Good.exec (hgood : s.Good) {event : Event} (hallowed : s.Manageable event)
    (hstep : s.exec event = some s') : s'.Good := by
  cases event with
  | malloc n avail =>
      obtain ⟨v, h', hrun, hgives⟩ : ∃ v h', Malloc.malloc n.toNat avail s.heap = .ok v h' ∧
        Gives s.live s.written n.toNat v h' := malloc_run hgood.heap hallowed.1 hallowed.2
      simp only [Process.exec, hrun] at hstep
      rcases hgives with ⟨rfl, hs⟩ | ⟨hne, hs⟩
      · cases hstep
        exact ⟨hgood.running, .inr hs⟩
      · obtain ⟨w, rfl⟩ := Nat.exists_eq_succ_of_ne_zero hne
        cases hstep
        exact ⟨hgood.running, .inr hs⟩
  | free b =>
      simp only [Process.exec] at hstep
      split at hstep
      · rename_i hb
        have hs := hgood.sound_of_mem hb
        have hperm : s.live.Perm (b :: s.live.erase b) := List.perm_cons_erase hb
        rw [(hs.core.placed b hb).free_run] at hstep
        cases hstep
        refine ⟨hgood.running, .inr (Sound.free ⟨hs.core.perm hperm, fun q hq hqc => ?_, ?_⟩)⟩
        · have hcount : homed (b :: s.live.erase b) q = homed s.live q := hperm.symm.countP_eq _
          rw [hcount]
          exact hs.counted q hq hqc
        · exact ⟨hs.cursor.inside, hs.cursor.aligned, hs.cursor.page,
            fun hmid b' hb' => hs.cursor.behind hmid b' (hperm.mem_iff.mpr hb')⟩
      · cases hstep
  | store b i byte =>
      simp only [Process.exec, Option.ite_none_right_eq_some, Option.some.injEq] at hstep
      obtain ⟨⟨hb, hi⟩, rfl⟩ := hstep
      exact ⟨hgood.running, .inr ((hgood.sound_of_mem hb).store hb hi byte)⟩

theorem Good.blocksRight (hgood : s.Good) : s.BlocksRight := by
  rcases hgood.heap with hu | hs
  · have hnone : s.live = [] := hu.live
    constructor
    case running => exact hgood.running
    all_goals simp [hnone]
  · refine ⟨fun b hb => ?_, fun b hb i hi => ?_, ?_, fun b hb i hi p _ hp => ?_, hs.core.contents,
      hgood.running⟩
    · have hplaced := hs.core.placed b hb
      have hend := b.end_le
      have hsize := hplaced.size
      have hhigh := hplaced.high
      unfold counterAddr at hend
      exact ⟨hplaced.low, by omega⟩
    · obtain ⟨hfirst, hhome⟩ := (hs.core.placed b hb).page_mem hi
      exact (hs.core.placed b hb).mapped hfirst hhome
    · refine hs.core.apart.imp_of_mem fun ha hb hapart => ?_
      have := (hs.core.placed _ ha).size
      have := (hs.core.placed _ hb).size
      unfold Block.Apart at hapart
      omega
    · exact (hs.core.placed b hb).not_counter hi hp

def blank : Process where
  heap := ⟨fun _ => false, fun _ => false, fun _ => 0, 0⟩
  live := []
  written := fun _ => 0
  panicked := false

theorem starts_blank : blank.Starts := ⟨fun _ => rfl, fun _ => rfl, rfl, rfl, rfl⟩

end Process

end Malloc

end ZynexOS
