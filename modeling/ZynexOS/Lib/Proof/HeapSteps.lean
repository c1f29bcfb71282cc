import ZynexOS.Lib.Proof.HeapInvariant

/-! # The parts of `malloc` and `free` -/

namespace ZynexOS

open Library Function

namespace Malloc

open Heap

variable {h h' : Heap} {b b' : Block} {live : List Block} {written : Bytes} {p q : Nat}

theorem counter_lt (h : Heap) (p : Nat) : h.counter p < 2 ^ 32 := Bytes.loadNat_lt _ _ _

@[simp] theorem counter_setCounter_self (v : Nat) : (h.setCounter p v).counter p = v % 2 ^ 32 :=
  Bytes.loadNat_storeNat_self

theorem counter_setCounter_of_ne (hne : q ≠ p) (v : Nat) :
    (h.setCounter p v).counter q = h.counter q := by
  refine Bytes.loadNat_storeNat_of_disjoint ?_
  unfold counterAddr
  omega

theorem keeps_setCounter (hcont : h.continued p = false)
    (hmapped : ∀ q, h.continued q = true → h.mapped q = true) (v : Nat) : Keeps h (h.setCounter p v)
    where
  mapped _ hq := ⟨hq, rfl⟩
  mem x _ hx := by
    refine Bytes.storeNat_apply_of_not_mem ?_
    by_cases hpage : pageOf x = p
    · rw [hpage, hcont] at hx
      exact .inl (hx.resolve_left Bool.false_ne_true)
    · unfold pageOf at hpage
      unfold counterAddr
      omega
  continued := hmapped

def Heap.dropped (h : Heap) (p : Nat) : Heap :=
  if (h.setCounter p (h.counter p + (2 ^ 32 - 1))).counter p = 0 then
    (h.setCounter p (h.counter p + (2 ^ 32 - 1))).pageUnmap p
  else h.setCounter p (h.counter p + (2 ^ 32 - 1))

theorem touchCounter_run (hp : h.mapped p = true) : touchCounter p h = .ok () h := by
  unfold touchCounter
  show (if h.mapped p then pure () else throw _ : HeapM Unit) h = _
  rw [if_pos hp]
  rfl

theorem addRef_run (hp : h.mapped p = true) :
    addRef p h = .ok () (h.setCounter p (h.counter p + 1)) := bind_of_ok (touchCounter_run hp)

theorem dropRef_run (hp : h.mapped p = true) : dropRef p h = .ok () (h.dropped p) := by
  rw [dropRef, bind_of_ok (touchCounter_run hp), modify_bind]
  rfl

theorem dropped_of_one_lt (hlt : 1 < h.counter p) :
    h.dropped p = h.setCounter p (h.counter p + (2 ^ 32 - 1)) := by
  have := counter_lt h p
  unfold Heap.dropped
  rw [counter_setCounter_self, if_neg]
  omega

theorem dropped_of_eq_one (hone : h.counter p = 1) :
    h.dropped p = (h.setCounter p (h.counter p + (2 ^ 32 - 1))).pageUnmap p := by
  unfold Heap.dropped
  rw [counter_setCounter_self, hone, if_pos]
  norm_num

theorem mapped_dropped (hne : q ≠ p) : (h.dropped p).mapped q = h.mapped q := by
  unfold Heap.dropped
  split
  · exact update_of_ne hne ..
  · rfl

theorem continued_dropped (hp : h.continued p = false) (q : Nat) :
    (h.dropped p).continued q = h.continued q := by
  unfold Heap.dropped
  split
  · by_cases hqp : q = p
    · rw [hqp]
      exact (update_self ..).trans hp.symm
    · exact update_of_ne hqp ..
  · rfl

theorem mptr_dropped : (h.dropped p).mptr = h.mptr := by
  unfold Heap.dropped
  split <;> rfl

attribute [irreducible] Heap.dropped

@[simp] theorem mapped_setMptr (a : Nat) : (h.setMptr a).mapped = h.mapped := rfl

@[simp] theorem mptr_setMptr (a : Nat) : (h.setMptr a).mptr = a := rfl

theorem Placed.congr (hb : Placed h b) (hsame : ∀ q, b.first ≤ q → q ≤ b.home →
    h'.mapped q = h.mapped q ∧ h'.continued q = h.continued q) : Placed h' b where
  low := hb.low
  high := hb.high
  aligned := hb.aligned
  size := hb.size
  run := hb.run
  pages q hfirst hhome := by
    rw [(hsame q hfirst hhome.le).1, (hsame q hfirst hhome.le).2]
    exact hb.pages q hfirst hhome
  homed := by
    rw [(hsame _ b.first_le_home le_rfl).1, (hsame _ b.first_le_home le_rfl).2]
    exact hb.homed

theorem homed_eq_zero (hnone : ∀ b ∈ live, b.home ≠ p) : homed live p = 0 :=
  List.countP_eq_zero.mpr fun b hb => by simpa using hnone b hb

theorem home_ne_of_homed (hzero : homed live p = 0) (hb : b ∈ live) : b.home ≠ p := by
  simpa using List.countP_eq_zero.mp hzero b hb

theorem Core.drop {extra : Nat → Nat} (hcore : Core h live written)
    (hcounted : Counted h live fun q => extra q + if q = p then 1 else 0)
    (hp : h.mapped p = true) (hcont : h.continued p = false) :
    Core (h.dropped p) live written ∧ Counted (h.dropped p) live extra := by
  have hcount : homed live p + (extra p + 1) ≤ h.counter p := by simpa using hcounted p hp hcont
  have hlt := counter_lt h p
  have hkeep := keeps_setCounter hcont hcore.continued (h.counter p + (2 ^ 32 - 1))
  have hset := hcore.keep hkeep
  have hself : (h.setCounter p (h.counter p + (2 ^ 32 - 1))).counter p = h.counter p - 1 := by
    rw [counter_setCounter_self]
    omega
  have hother {q : Nat} (hq : h.mapped q = true) (hqc : h.continued q = false) (hqp : q ≠ p) :
      homed live q + extra q ≤ h.counter q := by simpa [hqp] using hcounted q hq hqc
  rcases Nat.lt_or_eq_of_le (show 1 ≤ h.counter p by omega) with hmany | hone
  · rw [dropped_of_one_lt hmany]
    refine ⟨hset, fun q hq hqc => ?_⟩
    by_cases hqp : q = p
    · rw [hqp, hself]
      omega
    · rw [counter_setCounter_of_ne hqp]
      exact hother hq hqc hqp
  · rw [dropped_of_eq_one hone.symm]
    have hzero : homed live p = 0 := by omega
    constructor
    · refine ⟨fun b hb => ?_, hset.apart, hset.contents, fun q hq => ?_⟩
      · -- The page is no page of a block: its home is another one, and the others are continued.
        refine (hset.placed b hb).congr fun q hfirst hhome => ?_
        have hqp : q ≠ p := by
          rintro rfl
          rcases Nat.lt_or_eq_of_le hhome with hlt' | heq
          · rw [((hcore.placed b hb).pages q hfirst hlt').2] at hcont
            cases hcont
          · exact home_ne_of_homed hzero hb heq.symm
        exact ⟨update_of_ne hqp .., update_of_ne hqp ..⟩
      · by_cases hqp : q = p
        · rw [hqp] at hq
          exact absurd hq (by simp [Heap.pageUnmap])
        · simp only [Heap.pageUnmap, update_of_ne hqp] at hq ⊢
          exact hset.continued q hq
    · intro q hq hqc
      by_cases hqp : q = p
      · rw [hqp] at hq
        exact absurd hq (by simp [Heap.pageUnmap])
      · simp only [Heap.pageUnmap, update_of_ne hqp] at hq hqc
        show _ ≤ (h.setCounter p _).counter q
        rw [counter_setCounter_of_ne hqp]
        exact hother hq hqc hqp

def Heap.unmapRange (h : Heap) (lo hi : Nat) : Heap :=
  { h with
    mapped := fun q => if lo ≤ q ∧ q < hi then false else h.mapped q
    continued := fun q => if lo ≤ q ∧ q < hi then false else h.continued q }

theorem unmapRange_self (h : Heap) (p : Nat) : h.unmapRange p p = h := by
  have hnone (q : Nat) : ¬(p ≤ q ∧ q < p) := by omega
  simp only [Heap.unmapRange, hnone, if_false]

theorem unmapRange_pageUnmap {lo hi : Nat} (hlt : lo < hi) :
    (h.pageUnmap lo).unmapRange (lo + 1) hi = h.unmapRange lo hi := by
  have hstep (f : Nat → Bool) : (fun q => if lo + 1 ≤ q ∧ q < hi then false
      else update f lo false q) = fun q => if lo ≤ q ∧ q < hi then false else f q := by
    funext q
    by_cases hq : q = lo
    · subst hq
      simp [hlt]
    · rw [update_of_ne hq]
      have : (lo + 1 ≤ q ∧ q < hi) ↔ (lo ≤ q ∧ q < hi) := by omega
      simp only [this]
  simp only [Heap.unmapRange, Heap.pageUnmap, hstep]

theorem freeRun_run {fuel lo hi : Nat} (hle : lo ≤ hi) (hfuel : hi < lo + fuel)
    (hlow : mbegin ≤ 4096 * lo) (hhigh : 4096 * hi < mend)
    (hcont : ∀ q, lo ≤ q → q < hi → h.continued q = true) (hlast : h.continued hi = false) :
    freeRun fuel lo h = .ok hi (h.unmapRange lo hi) := by
  induction fuel generalizing lo h with
  | zero => omega
  | succ fuel ih =>
      rw [freeRun, get_bind]
      rcases Nat.lt_or_eq_of_le hle with hlt | rfl
      · rw [if_pos (hcont lo le_rfl hlt)]
        rw [modify_bind, if_pos (by omega), ← unmapRange_pageUnmap hlt]
        refine ih hlt (by omega) (by omega) (fun q hq hqhi => ?_) ?_
        · have hne : q ≠ lo := by omega
          simp only [Heap.pageUnmap, update_of_ne hne]
          exact hcont q (by omega) hqhi
        · have hne : hi ≠ lo := by omega
          simp only [Heap.pageUnmap, update_of_ne hne]
          exact hlast
      · rw [hlast, unmapRange_self]
        rfl

theorem free_run {v hi : Nat} (hlow : mbegin ≤ v) (hv : v < mend) (hle : pageOf v ≤ hi)
    (hhigh : 4096 * hi < mend) (hcont : ∀ q, pageOf v ≤ q → q < hi → h.continued q = true)
    (hlast : h.continued hi = false) (hmapped : h.mapped hi = true) :
    free v h = .ok () ((h.unmapRange (pageOf v) hi).dropped hi) := by
  have hrun : freeRun (pageOf mend) (pageOf v) h = .ok hi (h.unmapRange (pageOf v) hi) := by
    refine freeRun_run hle ?_ ?_ hhigh hcont hlast
    · simp only [pageOf, mend] at *
      omega
    · simp only [pageOf, mbegin] at *
      omega
  have hhi : (h.unmapRange (pageOf v) hi).mapped hi = true := by
    simpa [Heap.unmapRange] using hmapped
  have hne : v ≠ 0 := by
    unfold mbegin at hlow
    omega
  unfold free
  rw [if_neg hne, if_pos ⟨hlow, hv⟩]
  exact (bind_of_ok hrun).trans (dropRef_run hhi)

theorem Core.unmapOwn (hcore : Core h (b :: live) written) :
    Core (h.unmapRange b.first b.home) live written where
  placed b' hb' := by
    have hb := hcore.placed b List.mem_cons_self
    have hapart := List.rel_of_pairwise_cons hcore.apart hb'
    refine (hcore.placed b' (List.mem_cons_of_mem b hb')).congr fun q hfirst hhome => ?_
    have hout : ¬(b.first ≤ q ∧ q < b.home) := fun hq =>
      hb.alone (hcore.placed b' (List.mem_cons_of_mem b hb')) hapart hq.1 hq.2 ⟨hfirst, hhome⟩
    exact ⟨if_neg hout, if_neg hout⟩
  apart := hcore.apart.of_cons
  contents b' hb' := hcore.contents b' (List.mem_cons_of_mem b hb')
  continued q hq := by
    simp only [Heap.unmapRange] at hq ⊢
    split at hq
    · cases hq
    · rename_i hout
      rw [if_neg hout]
      exact hcore.continued q hq

theorem Counted.unmapOwn {extra : Nat → Nat} (hcounted : Counted h (b :: live) extra) :
    Counted (h.unmapRange b.first b.home) live fun q => extra q + if q = b.home then 1 else 0 := by
  intro q hq hqc
  simp only [Heap.unmapRange] at hq hqc
  split at hq
  · cases hq
  · rename_i hout
    rw [if_neg hout] at hqc
    have := hcounted q hq hqc
    simp only [homed, List.countP_cons, decide_eq_true_eq] at this
    show homed live q + _ ≤ h.counter q
    simp only [homed, eq_comm (a := q)]
    omega

theorem Core.perm {live' : List Block} (hcore : Core h live written) (hperm : live.Perm live') :
    Core h live' written where
  placed b hb := hcore.placed b (hperm.mem_iff.mpr hb)
  apart := (hperm.pairwise_iff Block.Apart.symm).mp hcore.apart
  contents b hb := hcore.contents b (hperm.mem_iff.mpr hb)
  continued := hcore.continued

def Heap.freed (h : Heap) (b : Block) : Heap := (h.unmapRange b.first b.home).dropped b.home

theorem Placed.free_run (hb : Placed h b) : free b.ptr h = .ok () (h.freed b) := by
  have hhigh := hb.high
  have hfirst := b.first_le_home
  refine Malloc.free_run hb.low ?_ hfirst (by omega) (fun q hq hqh => (hb.pages q hq hqh).2)
    hb.homed.2 hb.homed.1
  simp only [Block.first, pageOf] at hfirst
  omega

theorem mptr_freed : (h.freed b).mptr = h.mptr := mptr_dropped

theorem Placed.stays (hb : Placed h b) (hq : h.mapped q = true) (hqc : h.continued q = false)
    (hrefs : q = b.home → 1 < h.counter q) :
    (h.freed b).mapped q = true ∧ (h.freed b).continued q = false := by
  have hout : ¬(b.first ≤ q ∧ q < b.home) := by
    rintro ⟨hfirst, hhome⟩
    rw [(hb.pages q hfirst hhome).2] at hqc
    cases hqc
  have hhome : (h.unmapRange b.first b.home).continued b.home = false := by
    simpa [Heap.unmapRange] using hb.homed.2
  constructor
  · by_cases heq : q = b.home
    · have hlt : 1 < (h.unmapRange b.first b.home).counter b.home := heq ▸ hrefs heq
      rw [Heap.freed, dropped_of_one_lt hlt]
      exact (if_neg hout).trans hq
    · rw [Heap.freed, mapped_dropped heq]
      exact (if_neg hout).trans hq
  · rw [Heap.freed, continued_dropped hhome]
    exact (if_neg hout).trans hqc

theorem Sound.free (hs : Sound h (b :: live) written) : Sound (h.freed b) live written := by
  have hb := hs.core.placed b List.mem_cons_self
  have hhome : (h.unmapRange b.first b.home).mapped b.home = true ∧
      (h.unmapRange b.first b.home).continued b.home = false := by
    simpa [Heap.unmapRange] using hb.homed
  obtain ⟨hcore, hcounted⟩ := hs.core.unmapOwn.drop hs.counted.unmapOwn hhome.1 hhome.2
  refine ⟨hcore, by rw [mptr_freed]; exact hcounted, ?_⟩
  refine ⟨by rw [mptr_freed]; exact hs.cursor.inside, by rw [mptr_freed]; exact hs.cursor.aligned,
    ?_, ?_⟩
  · rw [mptr_freed]
    intro hmid
    obtain ⟨hmapped, hcont, hhigh⟩ := hs.cursor.page hmid
    -- If the block ends in the page of `mptr`, there are two references.
    have hrefs : pageOf h.mptr = b.home → 1 < h.counter (pageOf h.mptr) := by
      intro heq
      have := hs.counted _ hmapped hcont
      simp only [homed, List.countP_cons, cursorRefs, heq, hmid, decide_true, if_true, ne_eq,
        not_false_eq_true, and_self] at this
      rw [heq]
      omega
    obtain ⟨hmapped', hcont'⟩ := hb.stays hmapped hcont hrefs
    exact ⟨hmapped', hcont', hhigh⟩
  · rw [mptr_freed]
    exact fun hmid b' hb' => hs.cursor.behind hmid b' (List.mem_cons_of_mem b hb')

theorem Counted.congr {extra extra' : Nat → Nat} (hcounted : Counted h live extra)
    (hle : ∀ q, extra' q ≤ extra q) : Counted h live extra' :=
  fun q hq hqc => le_trans (Nat.add_le_add_left (hle q) _) (hcounted q hq hqc)

theorem cursorRefs_of_aligned {a : Nat} (ha : a % 4096 = 0) (q : Nat) : cursorRefs a q = 0 :=
  if_neg fun hmid => hmid.1 ha

theorem Core.sound (hcore : Core h live written) (hcounted : Counted h live fun _ => 0)
    (halign : h.mptr % 4096 = 0) (hlow : mbegin ≤ h.mptr) (hhigh : h.mptr < mend) :
    Sound h live written where
  core := hcore
  counted := hcounted.congr fun q => (cursorRefs_of_aligned halign q).le
  cursor := ⟨⟨hlow, hhigh⟩, by omega, fun hmid => absurd halign hmid, fun hmid => absurd halign hmid⟩

theorem Core.setMptr (hcore : Core h live written) (a : Nat) : Core (h.setMptr a) live written where
  placed b hb := (hcore.placed b hb).congr fun _ _ _ => ⟨rfl, rfl⟩
  apart := hcore.apart
  contents := hcore.contents
  continued := hcore.continued

def Heap.left (h : Heap) : Heap :=
  if h.mptr % 4096 = 0 then h
  else (h.dropped (pageOf h.mptr)).setMptr (4096 * (pageOf h.mptr + 1))

theorem Sound.leavePage_run (hs : Sound h live written) : leavePage h = .ok () h.left := by
  rw [leavePage, get_bind]
  unfold Heap.left
  by_cases hmid : h.mptr % 4096 = 0
  · rw [if_pos hmid, if_neg (by omega)]
    rfl
  · obtain ⟨hmapped, hcont, hhigh⟩ := hs.cursor.page hmid
    have hrun : Malloc.free h.mptr h = .ok () (h.dropped (pageOf h.mptr)) := by
      have := free_run hs.cursor.inside.1 hs.cursor.inside.2 le_rfl (by omega)
        (fun q hq hqh => absurd hqh (by omega)) hcont hmapped
      rwa [unmapRange_self] at this
    rw [if_neg hmid, if_pos hmid, bind_of_ok hrun]
    have haddr : (h.mptr + 4096) / 4096 * 4096 = 4096 * (pageOf h.mptr + 1) := by
      unfold pageOf
      omega
    show EStateM.Result.ok () ((h.dropped (pageOf h.mptr)).setMptr _) = _
    rw [mptr_dropped, haddr]

theorem Sound.left (hs : Sound h live written) :
    Core h.left live written ∧ Counted h.left live (fun _ => 0) ∧ h.left.mptr % 4096 = 0 ∧
      mbegin ≤ h.left.mptr ∧ h.left.mptr < mend := by
  unfold Heap.left
  by_cases hmid : h.mptr % 4096 = 0
  · rw [if_pos hmid]
    exact ⟨hs.core, hs.counted.congr fun _ => Nat.zero_le _, hmid, hs.cursor.inside⟩
  · rw [if_neg hmid]
    obtain ⟨hmapped, hcont, hhigh⟩ := hs.cursor.page hmid
    have hcounted : Counted h live fun q => 0 + if q = pageOf h.mptr then 1 else 0 := by
      refine hs.counted.congr fun q => ?_
      unfold cursorRefs
      by_cases hq : q = pageOf h.mptr
      · simp [hq, hmid]
      · simp [hq]
    obtain ⟨hcore, hcounted'⟩ := hs.core.drop hcounted hmapped hcont
    have hlow := hs.cursor.inside.1
    rw [mptr_setMptr]
    refine ⟨hcore.setMptr _, fun q => hcounted' q, Nat.mul_mod_right _ _, ?_, hhigh⟩
    simp only [pageOf, mbegin] at hlow ⊢
    omega

theorem Sound.mapped_left (hs : Sound h live written) (q : Nat) :
    h.left.mapped q = false ↔ h.Unused q := by
  unfold Heap.left Heap.Unused
  by_cases hmid : h.mptr % 4096 = 0
  · simp [hmid]
  · rw [if_neg hmid]
    obtain ⟨hmapped, hcont, -⟩ := hs.cursor.page hmid
    rw [mapped_setMptr]
    by_cases hq : q = pageOf h.mptr
    · subst hq
      have hcount := hs.counted _ hmapped hcont
      simp only [cursorRefs, ne_eq, hmid, not_false_eq_true, and_self, if_true] at hcount
      rcases Nat.lt_or_eq_of_le (show 1 ≤ h.counter (pageOf h.mptr) by omega) with hmany | hone
      · rw [dropped_of_one_lt hmany]
        have hne : h.counter (pageOf h.mptr) ≠ 1 := by omega
        simp [Heap.setCounter, hmapped, hne]
      · rw [dropped_of_eq_one hone.symm]
        simp [Heap.pageUnmap, hmid, ← hone]
    · rw [mapped_dropped hq]
      simp [Ne.symm hq]

end Malloc

end ZynexOS
