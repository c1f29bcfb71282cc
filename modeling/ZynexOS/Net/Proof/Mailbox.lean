import ZynexOS.Net.Mailbox

/-!
# Mailboxes are bounded queues

A call changes the queue only in the step in which it takes its semaphore. The time that a call has
waited is at most the time of the clock, which the kernel stops before `SYS_ARCH_TIMEOUT`.
-/

namespace ZynexOS

open Library Function

namespace SysMbox

variable {m : SysMbox} {posted fetched : List Word}

/-- The ring holds what has been posted and not been fetched. -/
structure Holds (m : SysMbox) (posted fetched : List Word) : Prop where
  le : fetched.length ≤ posted.length
  lap : posted.length ≤ fetched.length + mboxSlots
  nextq : m.nextq = (posted.length % mboxSlots : Nat)
  empty : posted.length = fetched.length → m.head = -1
  head : posted.length ≠ fetched.length → m.head = (fetched.length % mboxSlots : Nat)
  msg : ∀ k, fetched.length ≤ k → k < posted.length →
    posted[k]? = some (m.msg (k % mboxSlots : Nat))
  order : fetched = posted.take fetched.length

theorem tmod_succ (k : Nat) :
    Int.tmod (((k % mboxSlots : Nat) : Int) + 1) mboxSlots = ((k + 1) % mboxSlots : Nat) := by
  unfold mboxSlots
  rw [Int.tmod_eq_emod_of_nonneg (by omega)]
  omega

namespace Holds

variable (h : m.Holds posted fetched)

include h

theorem head_eq_iff : m.head = -1 ↔ posted.length = fetched.length := by
  refine ⟨fun hnone => ?_, h.empty⟩
  by_contra hsome
  rw [h.head hsome] at hnone
  omega

theorem queue_eq : m.queue = posted.drop fetched.length := by
  have hle := h.le
  have hlap := h.lap
  unfold queue
  by_cases hnone : posted.length = fetched.length
  · rw [if_pos (h.empty hnone), ← hnone, List.drop_length]
  · rw [if_neg (fun heq => hnone (h.head_eq_iff.mp heq)), h.head hnone, h.nextq, Int.toNat_natCast,
      Int.toNat_natCast]
    have hcount : (if ahead mboxSlots (fetched.length % mboxSlots) (posted.length % mboxSlots) = 0
        then mboxSlots else ahead mboxSlots (fetched.length % mboxSlots)
          (posted.length % mboxSlots)) = posted.length - fetched.length := by
      by_cases hfull : posted.length = fetched.length + mboxSlots
      · rw [hfull, Nat.add_mod_right, ahead_self, if_pos rfl, Nat.add_sub_cancel_left]
      · rw [ahead_mod hle (by omega), if_neg (by omega)]
    dsimp only
    rw [hcount, window_mod, List.map_map]
    exact map_range'_eq_drop h.msg

theorem length_queue : m.queue.length = posted.length - fetched.length := by
  rw [h.queue_eq, List.length_drop]

theorem fifo : posted = fetched ++ m.queue := by
  rw [h.queue_eq]
  calc posted = posted.take fetched.length ++ posted.drop fetched.length :=
        (List.take_append_drop _ _).symm
    _ = fetched ++ posted.drop fetched.length := by rw [← h.order]

theorem push (hroom : posted.length < fetched.length + mboxSlots) (msg : Word) :
    ∃ m', m.push msg = some m' ∧ m'.Holds (posted ++ [msg]) fetched := by
  have hle := h.le
  have hlength : (posted ++ [msg]).length = posted.length + 1 := List.length_append
  have hfree : m.nextq ≠ m.head := by
    rw [h.nextq]
    by_cases hnone : posted.length = fetched.length
    · rw [h.empty hnone]
      omega
    · rw [h.head hnone]
      exact fun heq => mod_ne_mod (by omega) hroom (Int.natCast_inj.mp heq)
  refine ⟨_, if_neg hfree, ?_, ?_, ?_, fun heq => ?_, fun _ => ?_, fun k hk hlt => ?_, ?_⟩
  · omega
  · omega
  · rw [hlength]
    show Int.tmod (m.nextq + 1) mboxSlots = _
    rw [h.nextq, tmod_succ]
  · omega
  · show (if m.head = -1 then m.nextq else m.head) = _
    by_cases hnone : posted.length = fetched.length
    · rw [if_pos (h.empty hnone), h.nextq, hnone]
    · rw [if_neg (fun heq => hnone (h.head_eq_iff.mp heq)), h.head hnone]
  · show (posted ++ [msg])[k]? = some (update m.msg m.nextq msg _)
    rw [h.nextq]
    obtain hlt | rfl := Nat.lt_succ_iff_lt_or_eq.mp (hlength ▸ hlt)
    · have hne : ((k % mboxSlots : Nat) : Int) ≠ ((posted.length % mboxSlots : Nat) : Int) :=
        fun heq => mod_ne_mod hlt (by omega) (Int.natCast_inj.mp heq.symm)
      rw [List.getElem?_append_left hlt, update_of_ne hne]
      exact h.msg k hk hlt
    · rw [List.getElem?_concat_length, update_self]
  · rw [List.take_append_of_le_length hle]
    exact h.order

theorem pop (hsome : fetched.length < posted.length) :
    ∃ msg m', m.pop = some (msg, m') ∧ m'.Holds posted (fetched ++ [msg]) := by
  have hlap := h.lap
  have hne : posted.length ≠ fetched.length := by omega
  have hhead := h.head hne
  have hget := h.msg fetched.length le_rfl hsome
  rw [← hhead] at hget
  have hlength : (fetched ++ [m.msg m.head]).length = fetched.length + 1 := List.length_append
  -- the next slot is the tail exactly if this was the last message
  have hlast : Int.tmod (m.head + 1) mboxSlots = m.nextq ↔ posted.length = fetched.length + 1 := by
    rw [hhead, tmod_succ, h.nextq, Int.natCast_inj]
    constructor
    · intro heq
      by_contra hmore
      exact mod_ne_mod (n := mboxSlots) (by omega) (by omega) heq.symm
    · rintro heq
      rw [heq]
  refine ⟨m.msg m.head, _, if_neg (fun heq => hne (h.head_eq_iff.mp heq)), ?_, ?_, h.nextq,
    fun heq => ?_, fun hmore => ?_, fun k hk hlt => ?_, ?_⟩
  · omega
  · omega
  · show (if Int.tmod (m.head + 1) mboxSlots = m.nextq then _ else _) = _
    rw [if_pos (hlast.mpr (heq.trans hlength))]
  · show (if Int.tmod (m.head + 1) mboxSlots = m.nextq then _ else _) = _
    rw [if_neg (fun heq => hmore ((hlast.mp heq).trans hlength.symm)), hhead, tmod_succ, ← hhead,
      hlength]
  · exact h.msg k (by omega) hlt
  · rw [hlength, List.take_add_one, hget, ← h.order]
    rfl

end Holds

end SysMbox

namespace MboxSys

variable {s s' : MboxSys} {t : Nat}

section

variable (s) (sem : MboxSem)

@[simp] theorem mbox_semSignal : (s.semSignal sem).mbox = s.mbox := by
  unfold semSignal
  dsimp only
  split <;> rfl

@[simp] theorem pc_semSignal : (s.semSignal sem).pc = s.pc := by
  unfold semSignal
  dsimp only
  split <;> rfl

@[simp] theorem ticks_semSignal : (s.semSignal sem).ticks = s.ticks := by
  unfold semSignal
  dsimp only
  split <;> rfl

@[simp] theorem posted_semSignal : (s.semSignal sem).posted = s.posted := by
  unfold semSignal
  dsimp only
  split <;> rfl

@[simp] theorem fetched_semSignal : (s.semSignal sem).fetched = s.fetched := by
  unfold semSignal
  dsimp only
  split <;> rfl

@[simp] theorem failed_semSignal : (s.semSignal sem).failed = s.failed := by
  unfold semSignal
  dsimp only
  split <;> rfl

theorem counter_semSignal (sem' : MboxSem) : ((s.semSignal sem).sems sem').counter =
    if sem' = sem then ((s.sems sem).counter + 1) % 2 ^ 16 else (s.sems sem').counter := by
  unfold semSignal
  dsimp only
  by_cases hsem : sem' = sem
  · subst hsem
    split <;> simp
  · split <;> simp [hsem]

end

def MboxPc.Ok (now : Nat) : MboxPc → Prop
  | .idle => True
  | .test _ waited => waited ≤ now
  | .enter w | .loop w _ _ | .yielded w _ | .awake w => w.waited ≤ w.a ∧ w.a ≤ now

theorem MboxPc.Ok.mono {now now' : Nat} {pc : MboxPc} (hok : MboxPc.Ok now pc) (hle : now ≤ now') :
    MboxPc.Ok now' pc := by
  cases pc with
  | idle => trivial
  | test call waited => exact le_trans (show waited ≤ now from hok) hle
  | enter w | loop w | yielded w | awake w => exact ⟨hok.1, hok.2.trans hle⟩

structure Sound (s : MboxSys) : Prop where
  holds : s.mbox.Holds s.posted s.fetched
  freeMsg : (s.sems .freeMsg).counter + s.posted.length = s.fetched.length + mboxSlots
  queuedMsg : (s.sems .queuedMsg).counter + s.fetched.length = s.posted.length
  clock : s.ticks * 10 < 2 ^ 32
  waits : ∀ t, MboxPc.Ok s.now (s.pc t)
  safe : s.failed = false

theorem sound_of_starts (hstart : s.Starts) : s.Sound where
  holds := by
    refine ⟨?_, ?_, ?_, fun _ => hstart.head, fun hne => ?_, fun k _ hlt => ?_, ?_⟩
    · rw [hstart.posted, hstart.fetched]
    · rw [hstart.posted, hstart.fetched]
      exact Nat.zero_le _
    · rw [hstart.nextq, hstart.posted]
      rfl
    · rw [hstart.posted, hstart.fetched] at hne
      exact absurd rfl hne
    · rw [hstart.posted] at hlt
      cases hlt
    · rw [hstart.posted, hstart.fetched]
      rfl
  freeMsg := by
    rw [hstart.freeMsg, hstart.posted, hstart.fetched]
    rfl
  queuedMsg := by
    rw [hstart.queuedMsg, hstart.posted, hstart.fetched]
    rfl
  clock := hstart.clock
  waits t := by
    rw [hstart.idle t]
    trivial
  safe := hstart.safe

namespace Sound

variable (h : s.Sound)

include h

theorem mboxRight : s.MboxRight where
  freeMsg := by
    have hle := h.holds.le
    have hfree := h.freeMsg
    rw [h.holds.length_queue]
    omega
  queuedMsg := by
    have hqueued := h.queuedMsg
    rw [h.holds.length_queue]
    omega
  head := by
    have hle := h.holds.le
    rw [h.holds.head_eq_iff, ← List.length_eq_zero_iff, h.holds.length_queue]
    omega
  fifo := h.holds.fifo
  safe := h.safe

theorem now_eq : s.now = s.ticks * 10 := Nat.mod_eq_of_lt h.clock

theorem now_lt : s.now < sysArchTimeout := by
  have hclock := h.clock
  rw [h.now_eq]
  unfold sysArchTimeout
  omega

theorem goto {pc : MboxPc} (hok : MboxPc.Ok s.now pc) : (s.goto pc).Sound where
  holds := h.holds
  freeMsg := h.freeMsg
  queuedMsg := h.queuedMsg
  clock := h.clock
  waits t := by
    show MboxPc.Ok s.now (update s.pc s.running pc t)
    by_cases ht : t = s.running
    · rw [ht, update_self]
      exact hok
    · rw [update_of_ne ht]
      exact h.waits t
  safe := h.safe

theorem wakeup (wakeup : Nat → Bool) : { s with wakeup := wakeup }.Sound :=
  ⟨h.holds, h.freeMsg, h.queuedMsg, h.clock, h.waits, h.safe⟩

theorem waiters (sem : MboxSem) (waiters : Nat) :
    { s with sems := update s.sems sem { s.sems sem with waiters := waiters } }.Sound := by
  have hcounter : ∀ sem', (update s.sems sem { s.sems sem with waiters := waiters }
      sem').counter = (s.sems sem').counter := by
    intro sem'
    by_cases hsem : sem' = sem
    · rw [hsem, update_self]
    · rw [update_of_ne hsem]
  refine ⟨h.holds, ?_, ?_, h.clock, h.waits, h.safe⟩
  · show (update s.sems sem _ _).counter + _ = _
    rw [hcounter]
    exact h.freeMsg
  · show (update s.sems sem _ _).counter + _ = _
    rw [hcounter]
    exact h.queuedMsg

end Sound

def taken (s : MboxSys) (sem : MboxSem) : MboxSys :=
  { s with
    sems := update s.sems sem { s.sems sem with counter := (s.sems sem).counter - 1 } }

theorem counter_taken (s : MboxSys) (sem sem' : MboxSem) : ((s.taken sem).sems sem').counter =
    if sem' = sem then (s.sems sem).counter - 1 else (s.sems sem').counter := by
  unfold taken
  by_cases hsem : sem' = sem
  · subst hsem
    simp
  · simp [hsem]

namespace Sound

variable (h : s.Sound)

include h

theorem queueMsg (hfree : 0 < (s.sems .freeMsg).counter) (msg : Word) :
    ∃ s', (s.taken .freeMsg).queueMsg msg = some s' ∧ s'.Sound := by
  have hcount := h.freeMsg
  have hqueued := h.queuedMsg
  have hle := h.holds.le
  obtain ⟨m', hpush, hholds⟩ := h.holds.push (by omega) msg
  have hlength : (s.posted ++ [msg]).length = s.posted.length + 1 := List.length_append
  refine ⟨({ s.taken .freeMsg with mbox := m', posted := s.posted ++ [msg] } :
    MboxSys).semSignal .queuedMsg, ?_, ?_⟩
  · unfold MboxSys.queueMsg
    rw [show (s.taken .freeMsg).mbox = s.mbox from rfl, hpush]
    rfl
  · refine ⟨?_, ?_, ?_, ?_, fun t => ?_, ?_⟩
    · rw [mbox_semSignal, posted_semSignal, fetched_semSignal]
      exact hholds
    · rw [posted_semSignal, fetched_semSignal, counter_semSignal, if_neg (by decide)]
      show ((s.taken .freeMsg).sems .freeMsg).counter + (s.posted ++ [msg]).length =
        s.fetched.length + mboxSlots
      rw [counter_taken, if_pos rfl]
      omega
    · rw [posted_semSignal, fetched_semSignal, counter_semSignal, if_pos rfl]
      show (((s.taken .freeMsg).sems .queuedMsg).counter + 1) % 2 ^ 16 + s.fetched.length =
        (s.posted ++ [msg]).length
      unfold mboxSlots at hcount
      rw [counter_taken, if_neg (by decide), Nat.mod_eq_of_lt (by omega)]
      omega
    · rw [ticks_semSignal]
      exact h.clock
    · rw [pc_semSignal]
      unfold now
      rw [ticks_semSignal]
      exact h.waits t
    · rw [failed_semSignal]
      exact h.safe

theorem fetch {tmMsec waited : Nat} (hqueued : 0 < (s.sems .queuedMsg).counter)
    (hwaited : waited ≠ sysArchTimeout) :
    ((s.taken .queuedMsg).finish waited (.fetch tmMsec)).Sound := by
  have hcount := h.queuedMsg
  have hfree := h.freeMsg
  obtain ⟨msg, m', hpop, hholds⟩ := h.holds.pop (by omega)
  have hlength : (s.fetched ++ [msg]).length = s.fetched.length + 1 := List.length_append
  have hfinish : (s.taken .queuedMsg).finish waited (.fetch tmMsec) =
      ({ s.taken .queuedMsg with mbox := m', fetched := s.fetched ++ [msg] } :
        MboxSys).semSignal .freeMsg := by
    unfold finish
    dsimp only
    rw [if_neg hwaited, show (s.taken .queuedMsg).mbox = s.mbox from rfl, hpop]
    rfl
  rw [hfinish]
  refine ⟨?_, ?_, ?_, ?_, fun t => ?_, ?_⟩
  · rw [mbox_semSignal, posted_semSignal, fetched_semSignal]
    exact hholds
  · rw [posted_semSignal, fetched_semSignal, counter_semSignal, if_pos rfl]
    show (((s.taken .queuedMsg).sems .freeMsg).counter + 1) % 2 ^ 16 + s.posted.length =
      (s.fetched ++ [msg]).length + mboxSlots
    unfold mboxSlots at *
    rw [counter_taken, if_neg (by decide), Nat.mod_eq_of_lt (by omega)]
    omega
  · rw [posted_semSignal, fetched_semSignal, counter_semSignal, if_neg (by decide)]
    show ((s.taken .queuedMsg).sems .queuedMsg).counter + (s.fetched ++ [msg]).length =
      s.posted.length
    rw [counter_taken, if_pos rfl]
    omega
  · rw [ticks_semSignal]
    exact h.clock
  · rw [pc_semSignal]
    unfold now
    rw [ticks_semSignal]
    exact h.waits t
  · rw [failed_semSignal]
    exact h.safe

theorem finish {call : MboxCall} {waited : Nat} (hcounter : 0 < (s.sems call.sem).counter)
    (hwaited : waited ≠ sysArchTimeout) : ((s.taken call.sem).finish waited call).Sound := by
  cases call with
  | post msg =>
      obtain ⟨s', hqueue, hsound⟩ := h.queueMsg hcounter msg
      show ((MboxSys.queueMsg _ msg).getD _).Sound
      rw [show MboxCall.sem (.post msg) = .freeMsg from rfl, hqueue]
      exact hsound
  | trypost msg =>
      obtain ⟨s', hqueue, hsound⟩ := h.queueMsg hcounter msg
      show ((MboxSys.queueMsg _ msg).getD _).Sound
      rw [show MboxCall.sem (.trypost msg) = .freeMsg from rfl, hqueue]
      exact hsound
  | fetch tmMsec => exact h.fetch hcounter hwaited

theorem semTest {call : MboxCall} {waited : Nat} (hwaited : waited ≤ s.now) :
    (s.semTest call waited).Sound := by
  have hnow := h.now_lt
  unfold MboxSys.semTest
  dsimp only
  split
  · split
    · next hcounter => exact (h.finish hcounter (by omega)).goto trivial
    · split
      · exact h.goto trivial
      · exact (h.waiters call.sem 1).goto ⟨hwaited, le_rfl⟩
  · exact h.goto trivial

theorem advance (hstep : s.advance = some s') : s'.Sound := by
  have hrunning := h.waits s.running
  unfold MboxSys.advance at hstep
  split at hstep
  · cases hstep
  · next call waited hpc =>
      cases hstep
      rw [hpc] at hrunning
      exact h.semTest hrunning
  · next w hpc =>
      cases hstep
      rw [hpc] at hrunning
      exact (h.wakeup _).goto hrunning
  · next w start p hpc =>
      rw [hpc] at hrunning
      split at hstep
      · cases hstep
        exact (h.wakeup _).goto hrunning
      · cases hstep
        exact h.goto hrunning
  · next w start hpc =>
      cases hstep
      rw [hpc] at hrunning
      exact h.goto hrunning
  · next w hpc =>
      cases hstep
      rw [hpc] at hrunning
      obtain ⟨hwaited, ha⟩ := hrunning
      refine h.goto ?_
      have hnow := h.now_lt
      unfold sysArchTimeout at hnow
      show (w.waited + (s.now + 2 ^ 32 - w.a)) % 2 ^ 32 ≤ s.now
      omega

theorem step {event : MboxEvent} (hstep : s.Step event s') : s'.Sound := by
  unfold Step at hstep
  cases event with
  | tick =>
      have hclock := h.clock
      simp only [exec] at hstep
      split at hstep
      · cases hstep
      next hrunning =>
      cases hstep
      have hticks : (s.ticks + 1) % 2 ^ 32 = s.ticks + 1 := Nat.mod_eq_of_lt (by omega)
      rw [hticks] at hrunning
      have hclock' : (s.ticks + 1) * 10 < 2 ^ 32 := by omega
      refine ⟨h.holds, h.freeMsg, h.queuedMsg, hticks.symm ▸ hclock', fun t => ?_, h.safe⟩
      refine (h.waits t).mono ?_
      rw [h.now_eq]
      show s.ticks * 10 ≤ (s.ticks + 1) % 2 ^ 32 * 10 % 2 ^ 32
      rw [hticks, Nat.mod_eq_of_lt hclock']
      omega
  | switch t =>
      simp only [exec] at hstep
      split at hstep
      · cases hstep
        exact ⟨h.holds, h.freeMsg, h.queuedMsg, h.clock, h.waits, h.safe⟩
      · cases hstep
  | call call =>
      simp only [exec] at hstep
      split at hstep
      · cases hstep
        exact h.goto (Nat.zero_le _)
      · cases hstep
  | step => exact h.advance hstep

end Sound

theorem mbox_right (s : MboxSys) (hreach : Reachable Starts Step (fun _ _ => True) s) :
    s.MboxRight :=
  (hreach.invariant (P := Sound) (fun _ => sound_of_starts) fun _ _ _ h _ => h.step).mboxRight

def fresh : MboxSys where
  mbox := { head := -1, nextq := 0, msg := fun _ => 0 }
  sems := fun
    | .queuedMsg => { counter := 0, waiters := 0 }
    | .freeMsg => { counter := mboxSlots, waiters := 0 }
  pc := fun _ => .idle
  wakeup := fun _ => false
  running := 0
  ticks := 0
  posted := []
  fetched := []
  failed := false

theorem starts_fresh : fresh.Starts where
  head := rfl
  nextq := rfl
  queuedMsg := rfl
  freeMsg := rfl
  idle _ := rfl
  clock := by decide
  posted := rfl
  fetched := rfl
  safe := rfl

/-- Thread 0 waits for a message, thread 1 posts two, and thread 0 wakes up and takes the first. -/
theorem mbox_right_woken : ∃ s : MboxSys, s.posted = [7, 8] ∧ s.fetched = [7] ∧
    s.mbox.queue = [8] ∧ s.MboxRight := by
  have hrun : (([.call (.fetch 0), .step, .step, .step, .switch 1, .call (.post 7), .step,
      .call (.trypost 8), .step, .tick, .switch 0, .step, .step, .step, .step] :
        List MboxEvent).foldlM exec fresh).map (fun s => (s.posted, s.fetched, s.mbox.queue)) =
          some ([7, 8], [7], [8]) := by
    decide +kernel
  obtain ⟨s, hs, hview⟩ := (Reachable.start starts_fresh).observed (fun _ _ _ h => ⟨trivial, h⟩) hrun
  simp only [Prod.mk.injEq] at hview
  exact ⟨s, hview.1, hview.2.1, hview.2.2, mbox_right s hs⟩

end MboxSys

end ZynexOS
