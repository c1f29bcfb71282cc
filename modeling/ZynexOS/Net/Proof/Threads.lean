import ZynexOS.Net.Threads
import ZynexOS.Library.Rotation

/-! # No thread is lost, and threads take turns -/

namespace ZynexOS

open Library Function

/-- A queue holds the contexts of `l`. The last pointer counts only when there are any. -/
structure QueueOf (link : Nat → Option Nat) (tq : ThreadQueue) (l : List Nat) : Prop where
  chain : Chain link tq.tqFirst l
  last : ∀ x l', l = l' ++ [x] → tq.tqLast = some x

section Queues

variable {link link' : Nat → Option Nat} {tq : ThreadQueue} {l : List Nat} {tc : Nat}

theorem QueueOf.congr (hq : QueueOf link tq l) (hsame : ∀ x ∈ l, link' x = link x) :
    QueueOf link' tq l :=
  ⟨hq.chain.congr hsame, hq.last⟩

theorem QueueOf.pop_nil (hq : QueueOf link tq []) : threadqPop link tq = none := by
  have hfirst : tq.tqFirst = none := hq.chain
  simp [threadqPop, hfirst]

theorem QueueOf.pop_cons (hq : QueueOf link tq (tc :: l)) (hnodup : (tc :: l).Nodup) :
    ∃ link' tq', threadqPop link tq = some (tc, link', tq') ∧ QueueOf link' tq' l ∧
      ∀ y, y ≠ tc → link' y = link y := by
  have hother : ∀ y, y ≠ tc → update link tc none y = link y :=
    fun y hy => update_of_ne hy _ _
  refine ⟨update link tc none, { tq with tqFirst := link tc }, ?_, ⟨?_, ?_⟩, hother⟩
  · simp [threadqPop, hq.chain.1]
  · refine hq.chain.2.congr fun y hy => hother y ?_
    rintro rfl
    exact (List.nodup_cons.mp hnodup).1 hy
  · rintro x l' rfl
    exact hq.last x (tc :: l') rfl

theorem QueueOf.push (hq : QueueOf link tq l) (hnodup : l.Nodup) (htc : tc ∉ l) :
    ∃ link' tq', threadqPush link tq tc = some (link', tq') ∧ QueueOf link' tq' (l ++ [tc]) ∧
      ∀ y, y ≠ tc → y ∉ l → link' y = link y := by
  obtain rfl | ⟨l', last, rfl⟩ := List.eq_nil_or_concat l
  · have hfirst : tq.tqFirst = none := hq.chain
    refine ⟨update link tc none, { tqFirst := some tc, tqLast := some tc }, ?_, ⟨?_, ?_⟩, ?_⟩
    · simp [threadqPush, hfirst]
    · exact ⟨rfl, show update link tc none tc = none from update_self ..⟩
    · intro x l' hsplit
      rw [List.singleton_inj.mp (List.append_inj' hsplit rfl).2]
    · exact fun y hy _ => update_of_ne hy _ _
  · rw [List.concat_eq_append] at *
    have hlast := hq.last last l' rfl
    obtain ⟨hne, hl'⟩ : tc ≠ last ∧ tc ∉ l' := by
      simp only [List.mem_append, List.mem_singleton, not_or] at htc
      exact htc.symm
    obtain ⟨first, hfirst⟩ : ∃ first, tq.tqFirst = some first := by
      cases l' with
      | nil => exact ⟨last, hq.chain.1⟩
      | cons x l' => exact ⟨x, hq.chain.1⟩
    refine ⟨update (update link tc none) last (some tc),
      { tq with tqLast := some tc }, ?_, ⟨?_, ?_⟩, ?_⟩
    · simp [threadqPush, hfirst, hlast]
    · refine hq.chain.snoc (fun z hz => ?_) (update_self ..) ?_
      · have hz' : z ≠ last := by
          rintro rfl
          exact (List.nodup_append.mp hnodup).2.2 z hz z List.mem_cons_self rfl
        have hztc : z ≠ tc := fun h => hl' (h ▸ hz)
        rw [update_of_ne hz', update_of_ne hztc]
      · rw [update_of_ne hne, update_self]
    · intro x l'' hsplit
      rw [List.singleton_inj.mp (List.append_inj' hsplit rfl).2]
    · intro y hy hmem
      have hylast : y ≠ last := by
        rintro rfl
        exact hmem (List.mem_append_right _ List.mem_cons_self)
      rw [update_of_ne hylast, update_of_ne hy]

end Queues

namespace Threads

variable {s s' : Threads} {ready killed q : List Nat} {tc n c : Nat}

/-- The two queues, with the ready threads in the order of their pushes. -/
structure Queued (s : Threads) (ready killed : List Nat) : Prop where
  threadQueue : QueueOf s.link s.threadQueue ready
  killQueue : QueueOf s.link s.killQueue killed
  nodup : (ready ++ killed).Nodup
  since : ∀ x ∈ ready, s.since (s.tid x) < s.pushes
  order : ready.Pairwise fun x y => s.since (s.tid x) < s.since (s.tid y)

structure Listed (s : Threads) (ready killed : List Nat) : Prop where
  queued : s.Queued ready killed
  nodup : (s.curTc.toList ++ (ready ++ killed)).Nodup
  live : ∀ x, s.live x = true ↔ x ∈ s.curTc.toList ++ (ready ++ killed)
  tid_lt : ∀ x, s.live x = true → s.tid x < s.maxTid
  tid_inj : ∀ x y, s.live x = true → s.live y = true → s.tid x = s.tid y → x = y
  unborn : ∀ t, s.maxTid ≤ t → s.born t = none

def rotation (s : Threads) (ready : List Nat) : Rotation Nat :=
  { cur := s.curTc.map s.tid
    ready := ready.map s.tid
    ran := s.ran
    born := s.born
    gone := s.halted }

theorem Queued.pop (hs : s.Queued (n :: q) killed) :
    ∃ link tq, threadqPop s.link s.threadQueue = some (n, link, tq) ∧
      Queued { s with link := link, threadQueue := tq } q killed := by
  have hnodup := List.nodup_append.mp hs.nodup
  obtain ⟨link, tq, hpop, hq, hsame⟩ := hs.threadQueue.pop_cons hnodup.1
  refine ⟨link, tq, hpop, hq, hs.killQueue.congr fun x hx => hsame x ?_, ?_, ?_, ?_⟩
  · exact (hnodup.2.2 n List.mem_cons_self x hx).symm
  · exact (List.nodup_cons.mp hs.nodup).2
  · exact fun x hx => hs.since x (List.mem_cons_of_mem n hx)
  · exact (List.pairwise_cons.mp hs.order).2

theorem Queued.pushReady (hs : s.Queued ready killed) (hc : c ∉ ready ++ killed)
    (htid : ∀ x ∈ ready, s.tid x ≠ s.tid c) :
    ∃ link tq since, s.pushReady c =
        some { s with link := link, threadQueue := tq, since := since, pushes := s.pushes + 1 } ∧
      Queued { s with link := link, threadQueue := tq, since := since, pushes := s.pushes + 1 }
        (ready ++ [c]) killed := by
  obtain ⟨hready, hkilled⟩ : c ∉ ready ∧ c ∉ killed := by simpa using hc
  have hnodup := List.nodup_append.mp hs.nodup
  obtain ⟨link, tq, hpush, hq, hsame⟩ := hs.threadQueue.push hnodup.1 hready
  have hsince : ∀ x ∈ ready,
      update s.since (s.tid c) s.pushes (s.tid x) = s.since (s.tid x) :=
    fun x hx => update_of_ne (htid x hx) _ _
  refine ⟨link, tq, update s.since (s.tid c) s.pushes, ?_, hq, ?_, ?_, ?_, ?_⟩
  · simp [Threads.pushReady, hpush]
  · refine hs.killQueue.congr fun x hx => hsame x ?_ ?_
    · rintro rfl
      exact hkilled hx
    · exact fun hmem => hnodup.2.2 x hmem x hx rfl
  · rw [List.append_assoc]
    exact (List.perm_middle.nodup_iff).mpr (List.nodup_cons.mpr ⟨hc, hs.nodup⟩)
  · intro x hx
    obtain hx | hx := List.mem_append.mp hx
    · have hlt := hs.since x hx
      rw [← hsince x hx] at hlt
      exact hlt.trans (Nat.lt_succ_self _)
    · obtain rfl := List.mem_singleton.mp hx
      simp
  · refine List.pairwise_append.mpr ⟨?_, List.pairwise_singleton _ _, ?_⟩
    · refine hs.order.imp_of_mem fun {x y} hx hy hlt => ?_
      simp only [hsince x hx, hsince y hy]
      exact hlt
    · intro x hx y hy
      obtain rfl := List.mem_singleton.mp hy
      simp only [hsince x hx, update_self]
      exact hs.since x hx

theorem Listed.dispatch {link : Nat → Option Nat} {tq : ThreadQueue} {since : Nat → Nat} {pushes : Nat}
    (hs : s.Listed (n :: q) killed)
    (hq : Queued { s with link := link, threadQueue := tq, since := since, pushes := pushes }
      (q ++ s.curTc.toList) killed) :
    (dispatch { s with link := link, threadQueue := tq, since := since, pushes := pushes } n).Listed
      (q ++ s.curTc.toList) killed := by
  have hperm : ([n] ++ (q ++ s.curTc.toList ++ killed)).Perm
      (s.curTc.toList ++ (n :: q ++ killed)) := by
    calc [n] ++ (q ++ s.curTc.toList ++ killed)
        = (n :: q ++ s.curTc.toList) ++ killed := by simp
      List.Perm _ ((s.curTc.toList ++ n :: q) ++ killed) := List.perm_append_comm.append_right killed
      _ = s.curTc.toList ++ (n :: q ++ killed) := by simp
  refine ⟨⟨hq.threadQueue, hq.killQueue, hq.nodup, hq.since, hq.order⟩, ?_, ?_, ?_, ?_, ?_⟩
  · exact hperm.nodup_iff.mpr hs.nodup
  · exact fun x => (hs.live x).trans hperm.mem_iff.symm
  · exact hs.tid_lt
  · exact hs.tid_inj
  · exact hs.unborn

theorem Listed.yield_nil (hs : s.Listed [] killed) : s.threadYield = some s := by
  simp [threadYield, hs.queued.threadQueue.pop_nil]

theorem Listed.yield_cons (hs : s.Listed (n :: q) killed) :
    ∃ s', s.threadYield = some s' ∧ s'.Listed (q ++ s.curTc.toList) killed ∧
      s'.rotation (q ++ s.curTc.toList) = (s.rotation (n :: q)).next := by
  obtain ⟨link, tq, hpop, hq⟩ := hs.queued.pop
  cases hcur : s.curTc with
  | none =>
      have hlist := hs.dispatch (by simpa [hcur] using hq)
      rw [hcur] at hlist
      refine ⟨_, ?_, hlist, ?_⟩
      · simp [threadYield, hpop, hcur]
      · simp [rotation, Threads.dispatch, Rotation.next, hcur]
  | some c =>
      have hnodup := hs.nodup
      have hlive := hs.live
      simp only [hcur, Option.toList_some, List.singleton_append] at hnodup hlive
      have hfresh := (List.nodup_cons.mp hnodup).1
      have hc : c ∉ q ++ killed := fun hmem => hfresh (List.mem_cons_of_mem n hmem)
      have htid : ∀ x ∈ q, s.tid x ≠ s.tid c := by
        intro x hx hsame
        have hmem : x ∈ n :: q ++ killed := by simp [hx]
        have hxc := hs.tid_inj x c ((hlive x).mpr (List.mem_cons_of_mem c hmem))
          ((hlive c).mpr List.mem_cons_self) hsame
        exact hfresh (hxc ▸ hmem)
      obtain ⟨link', tq', since, hpush, hq'⟩ := hq.pushReady hc htid
      have hlist := hs.dispatch (by simpa [hcur] using hq')
      rw [hcur] at hlist
      refine ⟨_, ?_, hlist, ?_⟩
      · simp [threadYield, hpop, hcur] at hpush ⊢
        simp [hpush]
      · simp [rotation, Threads.dispatch, Rotation.next, hcur]

theorem Listed.clean (hs : s.Listed ready killed) :
    s.threadClean.Listed ready killed.tail ∧ s.threadClean.rotation ready = s.rotation ready := by
  cases killed with
  | nil => simp [threadClean, hs.queued.killQueue.pop_nil, hs]
  | cons x killed =>
      have hparts := List.nodup_append.mp hs.queued.nodup
      obtain ⟨link, tq, hpop, hq, hsame⟩ := hs.queued.killQueue.pop_cons hparts.2.1
      have hclean : s.threadClean =
          { s with link := link, killQueue := tq, live := update s.live x false } := by
        simp [threadClean, hpop]
      have hperm : (s.curTc.toList ++ (ready ++ x :: killed)).Perm
          (x :: (s.curTc.toList ++ (ready ++ killed))) := by
        rw [← List.append_assoc, ← List.append_assoc]
        exact List.perm_middle
      obtain ⟨hx, hrest⟩ := List.nodup_cons.mp (hperm.nodup_iff.mp hs.nodup)
      have hlive : ∀ y, update s.live x false y = true → s.live y = true := by
        intro y hy
        by_cases hyx : y = x
        · simp [hyx] at hy
        · rwa [update_of_ne hyx] at hy
      rw [hclean]
      refine ⟨⟨⟨?_, hq, ?_, hs.queued.since, hs.queued.order⟩, hrest, ?_, ?_, ?_, hs.unborn⟩, rfl⟩
      · refine hs.queued.threadQueue.congr fun y hy => hsame y ?_
        exact hparts.2.2 y hy x List.mem_cons_self
      · exact (List.nodup_append.mp hrest).2.1
      · intro y
        by_cases hyx : y = x
        · simpa [hyx] using hx
        · show update s.live x false y = true ↔ _
          rw [update_of_ne hyx, hs.live, hperm.mem_iff, List.mem_cons, or_iff_right hyx]
          rfl
      · exact fun y hy => hs.tid_lt y (hlive y hy)
      · exact fun y z hy hz => hs.tid_inj y z (hlive y hy) (hlive z hz)

theorem Listed.kill (hs : s.Listed ready killed) (hc : s.curTc = some c) :
    ∃ link tq, threadqPush s.link s.killQueue c = some (link, tq) ∧
      Listed { s with
        link := link
        killQueue := tq
        curTc := none
        halted := update s.halted (s.tid c) (some s.ran.length) } ready (killed ++ [c]) := by
  have hnodup := hs.nodup
  have hlive := hs.live
  simp only [hc, Option.toList_some, List.singleton_append] at hnodup hlive
  have hfresh : c ∉ ready ∧ c ∉ killed := by simpa using (List.nodup_cons.mp hnodup).1
  have hparts := List.nodup_append.mp hs.queued.nodup
  have hperm : (ready ++ (killed ++ [c])).Perm (c :: (ready ++ killed)) := by
    rw [← List.append_assoc]
    exact List.perm_append_singleton c (ready ++ killed)
  obtain ⟨link, tq, hpush, hq, hsame⟩ := hs.queued.killQueue.push hparts.2.1 hfresh.2
  refine ⟨link, tq, hpush, ⟨?_, hq, ?_, hs.queued.since, hs.queued.order⟩, ?_, ?_, hs.tid_lt,
    hs.tid_inj, hs.unborn⟩
  · refine hs.queued.threadQueue.congr fun x hx => hsame x ?_ ?_
    · rintro rfl
      exact hfresh.1 hx
    · exact fun hmem => hparts.2.2 x hx x hmem rfl
  · exact hperm.nodup_iff.mpr hnodup
  · exact hperm.nodup_iff.mpr hnodup
  · exact fun x => (hlive x).trans hperm.mem_iff.symm

theorem Listed.alloc (hs : s.Listed ready killed) (hfree : s.live tc = false) :
    Listed { s with
      link := update s.link tc none
      tid := update s.tid tc s.maxTid
      maxTid := s.maxTid + 1 } ready killed ∧
    (∀ x ∈ s.curTc.toList ++ ready, update s.tid tc s.maxTid x = s.tid x) := by
  have hne : ∀ x, s.live x = true → x ≠ tc := by
    rintro x hx rfl
    simp [hfree] at hx
  have hmem : ∀ x ∈ ready ++ killed, x ≠ tc := fun x hx =>
    hne x ((hs.live x).mpr (List.mem_append_right _ hx))
  have hready : ∀ x ∈ ready, x ≠ tc := fun x hx => hmem x (List.mem_append_left _ hx)
  have htid : ∀ x, x ≠ tc → update s.tid tc s.maxTid x = s.tid x :=
    fun x hx => update_of_ne hx _ _
  have hlink : ∀ x, x ≠ tc → update s.link tc none x = s.link x :=
    fun x hx => update_of_ne hx _ _
  refine ⟨⟨⟨?_, ?_, hs.queued.nodup, ?_, ?_⟩, hs.nodup, hs.live, ?_, ?_, ?_⟩, ?_⟩
  · exact hs.queued.threadQueue.congr fun x hx => hlink x (hready x hx)
  · exact hs.queued.killQueue.congr fun x hx => hlink x (hmem x (List.mem_append_right _ hx))
  · intro x hx
    simp only [htid x (hready x hx)]
    exact hs.queued.since x hx
  · refine hs.queued.order.imp_of_mem fun {x y} hx hy hlt => ?_
    simp only [htid x (hready x hx), htid y (hready y hy)]
    exact hlt
  · intro x hx
    simp only [htid x (hne x hx)]
    exact (hs.tid_lt x hx).trans (Nat.lt_succ_self _)
  · intro x y hx hy hsame
    simp only [htid x (hne x hx), htid y (hne y hy)] at hsame
    exact hs.tid_inj x y hx hy hsame
  · exact fun t ht => hs.unborn t (Nat.le_of_succ_le ht)
  · intro x hx
    refine htid x (hne x ((hs.live x).mpr ?_))
    rw [← List.append_assoc]
    exact List.mem_append_left _ hx

theorem Listed.start (hs : s.Listed ready killed) (hfree : s.live tc = false)
    (htid : s.tid tc < s.maxTid) (hnew : ∀ x, s.live x = true → s.tid x ≠ s.tid tc) :
    ∃ s', Threads.pushReady { s with
        live := update s.live tc true
        born := update s.born (s.tid tc) (some s.ran.length) } tc = some s' ∧
      s'.Listed (ready ++ [tc]) killed ∧
      s'.rotation (ready ++ [tc]) = (s.rotation ready).add (s.tid tc) := by
  have hmem : tc ∉ s.curTc.toList ++ (ready ++ killed) := by
    rw [← hs.live, hfree]
    exact Bool.false_ne_true
  have hqueued : Queued { s with
      live := update s.live tc true
      born := update s.born (s.tid tc) (some s.ran.length) } ready killed :=
    ⟨hs.queued.threadQueue, hs.queued.killQueue, hs.queued.nodup, hs.queued.since, hs.queued.order⟩
  obtain ⟨link, tq, since, hpush, hq⟩ := hqueued.pushReady
    (fun h => hmem (List.mem_append_right _ h)) fun x hx =>
      hnew x ((hs.live x).mpr (List.mem_append_right _ (List.mem_append_left _ hx)))
  have hperm : (s.curTc.toList ++ (ready ++ [tc] ++ killed)).Perm
      (tc :: (s.curTc.toList ++ (ready ++ killed))) := by
    rw [List.append_assoc, List.singleton_append, ← List.append_assoc, ← List.append_assoc]
    exact List.perm_middle
  refine ⟨_, hpush, ⟨hq, ?_, ?_, ?_, ?_, ?_⟩, ?_⟩
  · exact hperm.nodup_iff.mpr (List.nodup_cons.mpr ⟨hmem, hs.nodup⟩)
  · intro x
    show update s.live tc true x = true ↔ x ∈ s.curTc.toList ++ (ready ++ [tc] ++ killed)
    rw [hperm.mem_iff, List.mem_cons, ← hs.live]
    by_cases hx : x = tc
    · simp [hx]
    · simp [hx]
  · intro x hx
    by_cases hxtc : x = tc
    · exact hxtc ▸ htid
    · exact hs.tid_lt x (by simpa [update_of_ne hxtc] using hx)
  · intro x y hx hy hsame
    by_cases hxtc : x = tc <;> by_cases hytc : y = tc
    · rw [hxtc, hytc]
    · subst hxtc
      exact absurd hsame.symm (hnew y (by simpa [update_of_ne hytc] using hy))
    · subst hytc
      exact absurd hsame (hnew x (by simpa [update_of_ne hxtc] using hx))
    · refine hs.tid_inj x y ?_ ?_ hsame
      · simpa [update_of_ne hxtc] using hx
      · simpa [update_of_ne hytc] using hy
  · intro t ht
    have hne : t ≠ s.tid tc := (htid.trans_le ht).ne'
    simpa [update_of_ne hne] using hs.unborn t ht
  · simp [rotation, Rotation.add]

def Ordered (s : Threads) : Prop :=
  ∃ ready killed, s.Listed ready killed ∧ (s.rotation ready).Fair

theorem Starts.ordered (hs : s.Starts) : s.Ordered := by
  refine ⟨[], [], ⟨⟨⟨?_, ?_⟩, ⟨hs.killQueue, ?_⟩, ?_, ?_, ?_⟩, ?_, ?_, ?_, ?_, ?_⟩, ?_⟩
  · rw [hs.threadQueue]
    rfl
  · simp
  · simp
  · simp
  · simp
  · simp
  · simp [hs.curTc]
  · simp [hs.live, hs.curTc]
  · simp [hs.live]
  · simp [hs.live]
  · exact fun t _ => hs.born t
  · exact Rotation.fair_start (by simp [rotation, hs.curTc]) rfl hs.ran hs.born hs.halted

theorem Ordered.yield (hs : s.Ordered) : ∃ s', s.threadYield = some s' ∧ s'.Ordered := by
  obtain ⟨ready, killed, hlist, hfair⟩ := hs
  cases ready with
  | nil => exact ⟨s, hlist.yield_nil, [], killed, hlist, hfair⟩
  | cons n q =>
      obtain ⟨s', hyield, hlist', hrot⟩ := hlist.yield_cons
      refine ⟨s', hyield, _, killed, hlist', ?_⟩
      rw [hrot]
      exact hfair.next

theorem Ordered.halt (hs : s.Ordered) (hc : s.curTc = some c) :
    ∃ s', s.threadHalt = some s' ∧ s'.Ordered := by
  obtain ⟨ready, killed, hlist, hfair⟩ := hs
  obtain ⟨hclean, hrot⟩ := hlist.clean
  have hc' : s.threadClean.curTc = some c := by
    unfold threadClean
    split <;> exact hc
  obtain ⟨link, tq, hpush, hkill⟩ := hclean.kill hc'
  have hturn : (s.rotation ready).cur = some (s.tid c) := by simp [rotation, hc]
  have hdrop := hfair.drop hturn
  obtain ⟨s', hyield, ready', killed', hlist', hfair'⟩ := Ordered.yield ⟨ready, _, hkill, by
    rw [← hrot] at hdrop
    simpa [rotation, Rotation.drop, hc'] using hdrop⟩
  refine ⟨{ s' with exited := decide (s'.curTc = none) }, ?_, ready', killed', ?_, hfair'⟩
  · simp [threadHalt, hc, hpush, hyield]
  · exact { hlist' with queued := { hlist'.queued with } }

theorem Ordered.create (hs : s.Ordered) (tc : Option Nat) (stack : Bool)
    (hfree : ∀ a, tc = some a → s.live a = false) (htid : s.maxTid + 1 ≠ 2 ^ 32 - 1) :
    ∃ s', s.threadCreate tc stack = some s' ∧ s'.Ordered := by
  cases tc with
  | none => exact ⟨s, rfl, hs⟩
  | some tc =>
      obtain ⟨ready, killed, hlist, hfair⟩ := hs
      have hfree := hfree tc rfl
      have hroom : s.maxTid ≠ 4294967294 := by omega
      obtain ⟨halloc, hsame⟩ := hlist.alloc hfree
      have hrot : rotation { s with
          link := update s.link tc none
          tid := update s.tid tc s.maxTid
          maxTid := s.maxTid + 1 } ready = s.rotation ready := by
        have hcur : s.curTc.map (update s.tid tc s.maxTid) = s.curTc.map s.tid :=
          Option.map_congr fun x hx => hsame x (by simp [hx])
        have hready : ready.map (update s.tid tc s.maxTid) = ready.map s.tid :=
          List.map_congr_left fun x hx => hsame x (List.mem_append_right _ hx)
        simp [rotation, hcur, hready]
      cases stack with
      | false =>
          refine ⟨_, ?_, ready, killed, halloc, ?_⟩
          · simp [threadCreate, hfree, hroom]
          · rw [hrot]
            exact hfair
      | true =>
          obtain ⟨s', hpush, hlist', hrot'⟩ := halloc.start hfree (by simp) (by
            intro x hx
            have hne : x ≠ tc := by
              rintro rfl
              simp [hfree] at hx
            simpa [update_of_ne hne] using (hlist.tid_lt x hx).ne)
          refine ⟨s', ?_, _, killed, hlist', ?_⟩
          · simpa [threadCreate, hfree, hroom] using hpush
          · rw [hrot', hrot]
            refine hfair.add ?_
            simpa [rotation] using hlist.unborn s.maxTid le_rfl

theorem Ordered.step {event : ThreadEvent} (hs : s.Ordered) (hstep : s.Step event s') :
    s'.Ordered := by
  unfold Step exec at hstep
  split at hstep
  · cases hstep
  · cases event with
    | yield =>
        obtain ⟨s₁, hyield, hs₁⟩ := hs.yield
        rw [hyield] at hstep
        cases hstep
        exact hs₁
    | halt =>
        cases hc : s.curTc with
        | none => simp [threadHalt, hc] at hstep
        | some c =>
            obtain ⟨s₁, hhalt, hs₁⟩ := hs.halt hc
            rw [hhalt] at hstep
            cases hstep
            exact hs₁
    | create tc stack =>
        replace hstep : s.threadCreate tc stack = some s' := hstep
        cases tc with
        | none =>
            cases hstep
            exact hs
        | some tc =>
            by_cases hfree : s.live tc = true
            · simp [threadCreate, hfree] at hstep
            · by_cases htid : s.maxTid + 1 = 2 ^ 32 - 1
              · simp [threadCreate, hfree, htid] at hstep
              · obtain ⟨s₁, hcreate, hs₁⟩ := hs.create (some tc) stack (by simpa using hfree) htid
                rw [hcreate] at hstep
                cases hstep
                exact hs₁

theorem Listed.placed (hs : s.Listed ready killed) : s.Placed ready killed where
  threadQueue := hs.queued.threadQueue.chain
  killQueue := hs.queued.killQueue.chain
  once := by
    intro tc hlive
    have hcount := List.count_eq_one_of_mem hs.nodup ((hs.live tc).mp hlive)
    have hcur : s.curTc.toList.count tc = if s.curTc = some tc then 1 else 0 := by
      cases s.curTc with
      | none => simp
      | some c => simp [List.count_singleton]
    rw [List.count_append, List.count_append, hcur] at hcount
    rw [Nat.add_assoc]
    exact hcount
  live := by
    intro tc hmem
    rw [hs.live]
    simpa using hmem
  order := hs.queued.order

theorem Ordered.scheduled (hs : s.Ordered) : s.Scheduled := by
  obtain ⟨ready, killed, hlist, hfair⟩ := id hs
  refine ⟨⟨ready, killed, hlist.placed⟩, hfair.roundRobin, ?_, ?_, ?_⟩
  · intro tc stack hfree htid
    obtain ⟨s', hcreate, _⟩ := hs.create tc stack hfree htid
    exact ⟨s', hcreate⟩
  · obtain ⟨s', hyield, _⟩ := hs.yield
    exact ⟨s', hyield⟩
  · intro hcur
    obtain ⟨c, hc⟩ := Option.ne_none_iff_exists'.mp hcur
    obtain ⟨s', hhalt, _⟩ := hs.halt hc
    exact ⟨s', hhalt⟩

/-- In every state that calls of the scheduler lead to, no thread is lost or in two places, the queue is
in the order in which threads became ready, and between two turns of one thread each other thread that
stayed has one. -/
theorem threads_scheduled {s : Threads} (hrun : Reachable Starts Step (fun _ _ => True) s) :
    s.Scheduled :=
  Ordered.scheduled (hrun.invariant (fun _ => Starts.ordered) fun _ _ _ hs _ hstep => hs.step hstep)

def boot : Threads where
  tid _ := 0
  link _ := none
  threadQueue := threadqInit
  killQueue := threadqInit
  curTc := none
  maxTid := 0
  exited := false
  live _ := false
  since _ := 0
  pushes := 0
  ran := []
  born _ := none
  halted _ := none

def threeThreads : List ThreadEvent :=
  [.create (some 16) true, .create (some 32) true, .create (some 48) true, .yield, .yield, .yield,
    .yield, .yield, .halt, .yield, .yield]

theorem threads_scheduled_three :
    ∃ s, Reachable Starts Step (fun _ _ => True) s ∧ s.ran = [2, 0, 2, 1, 0, 2, 1, 0] ∧
      s.Scheduled := by
  have hrun : (threeThreads.foldlM exec boot).map ran = some [2, 0, 2, 1, 0, 2, 1, 0] := by
    decide +kernel
  have hboot : boot.Starts := ⟨rfl, rfl, rfl, rfl, fun _ => rfl, rfl, fun _ => rfl, fun _ => rfl⟩
  obtain ⟨s, hreach, hran⟩ := (Reachable.start hboot).observed (fun _ _ _ h => ⟨trivial, h⟩) hrun
  exact ⟨s, hreach, hran, threads_scheduled hreach⟩

end Threads

end ZynexOS
