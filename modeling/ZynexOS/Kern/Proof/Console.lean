import ZynexOS.Kern.Console

/-!
# No character is lost while the ring has room

Once a whole turn of the ring has been overwritten, 512 characters are missing for ever.
-/

namespace ZynexOS

open Library Function
variable {events : List ConsEvent}

namespace Cons

def count (cons : Cons) : Nat := ahead consBufSize cons.rpos cons.wpos

variable {cons : Cons} {q : List (BitVec 8)} {c : BitVec 8} {port : List (BitVec 8)}

theorem count_cases (cons : Cons) :
    cons.rpos ≤ cons.wpos ∧ cons.count = cons.wpos - cons.rpos ∨
      cons.wpos < cons.rpos ∧ cons.count = cons.wpos + consBufSize - cons.rpos :=
  ahead_cases _ _ _

theorem count_lt (cons : Cons) : cons.count < consBufSize := by
  have hr := cons.rbound
  have hw := cons.wbound
  have hcount := cons.count_cases
  omega

def slot (cons : Cons) (k : Nat) : Nat := (cons.rpos + k) % consBufSize

structure Holds (cons : Cons) (q : List (BitVec 8)) : Prop where
  count : q.length = cons.count
  get : ∀ k (hk : k < q.length), cons.buf (cons.slot k) = q[k]

theorem count_store_or (cons : Cons) (c : BitVec 8) :
    (cons.store c).count = cons.count + 1 ∨ (cons.store c).count + consBufSize = cons.count + 1 := by
  have hr := cons.rbound
  have hw := cons.wbound
  have hcount := cons.count_cases
  have hcount' : _ ∨ _ := (cons.store c).count_cases
  have hnext : (cons.store c).wpos = nextPos cons.wpos := rfl
  have hsame : (cons.store c).rpos = cons.rpos := rfl
  unfold nextPos at hnext
  split at hnext <;> omega

theorem count_store (hroom : cons.count + 1 < consBufSize) :
    (cons.store c).count = cons.count + 1 := by
  have hcases := cons.count_store_or c
  omega

theorem wpos_eq_slot (cons : Cons) : cons.wpos = cons.slot cons.count := by
  have hr := cons.rbound
  have hw := cons.wbound
  have hcount := cons.count_cases
  unfold slot
  obtain ⟨hle, heq⟩ | ⟨hlt, heq⟩ := hcount
  · rw [Nat.mod_eq_of_lt] <;> omega
  · rw [heq, show cons.rpos + (cons.wpos + consBufSize - cons.rpos) = cons.wpos + consBufSize by omega,
      Nat.add_mod_right, Nat.mod_eq_of_lt hw]

theorem Holds.store (hq : cons.Holds q) (hroom : q.length + 1 < consBufSize) :
    (cons.store c).Holds (q ++ [c]) := by
  have hlen := hq.count
  refine ⟨?_, fun k hk => ?_⟩
  · rw [count_store (by omega), List.length_append, hlen]
    rfl
  · rw [List.length_append, List.length_singleton] at hk
    show update cons.buf cons.wpos c (cons.slot k) = _
    rw [cons.wpos_eq_slot]
    by_cases hlast : k = cons.count
    · subst hlast
      rw [update_self, List.getElem_append_right hlen.le]
      simp [hlen]
    · have hlt : k < q.length := by omega
      have hne : cons.slot k ≠ cons.slot cons.count :=
        (mod_ne_mod (by omega) (by omega)).symm
      rw [update_of_ne hne, List.getElem_append_left hlt]
      exact hq.get k hlt

theorem Holds.intr (hq : cons.Holds q) (hroom : (q ++ port.filter (· ≠ 0)).length < consBufSize) :
    (cons.intr port).Holds (q ++ port.filter (· ≠ 0)) := by
  induction port generalizing cons q with
  | nil =>
      rw [List.filter_nil, List.append_nil]
      exact hq
  | cons c port ih =>
      by_cases hzero : c = 0
      · rw [Cons.intr, if_pos hzero, List.filter_cons_of_neg (by simpa using hzero)] at *
        exact ih hq hroom
      · rw [List.filter_cons_of_pos (by simpa using hzero), List.append_cons] at *
        rw [Cons.intr, if_neg hzero]
        refine ih (hq.store ?_) hroom
        simp only [List.length_append, List.length_cons] at hroom
        omega

theorem Holds.take_nil (hq : cons.Holds []) : cons.take = (0, cons) := by
  refine if_neg (not_not.mpr ?_)
  have hr := cons.rbound
  have hw := cons.wbound
  have hcount := cons.count_cases
  have hlen : 0 = cons.count := hq.count
  omega

theorem nextPos_eq_mod {pos : Nat} (hpos : pos < consBufSize) :
    nextPos pos = (pos + 1) % consBufSize := by
  unfold nextPos
  split
  · next hlast => rw [hlast, Nat.mod_self]
  · rw [Nat.mod_eq_of_lt (by omega)]

theorem take_of_count (hsome : 0 < cons.count) :
    cons.take.1 = cons.buf (cons.slot 0) ∧ cons.take.2.buf = cons.buf ∧
      cons.take.2.rpos = nextPos cons.rpos ∧ cons.take.2.wpos = cons.wpos := by
  have hne : cons.rpos ≠ cons.wpos := by
    intro heq
    have hcount := cons.count_cases
    omega
  have hslot : cons.slot 0 = cons.rpos := Nat.mod_eq_of_lt cons.rbound
  rw [take, if_pos hne, hslot]
  exact ⟨rfl, rfl, rfl, rfl⟩

theorem count_take (hsome : 0 < cons.count) : cons.take.2.count + 1 = cons.count := by
  obtain ⟨-, -, hrpos, hwpos⟩ := take_of_count hsome
  have hr := cons.rbound
  have hw := cons.wbound
  have hcount := cons.count_cases
  have hcount' := cons.take.2.count_cases
  rw [hrpos, hwpos] at hcount'
  unfold nextPos at hcount'
  split at hcount' <;> omega

theorem Holds.take_cons (hq : cons.Holds (c :: q)) : cons.take.1 = c ∧ cons.take.2.Holds q := by
  have hlen : q.length + 1 = cons.count := hq.count
  have hsome : 0 < cons.count := by omega
  obtain ⟨hout, hbuf, hrpos, -⟩ := take_of_count hsome
  refine ⟨hout.trans (hq.get 0 (by simp)), ?_, fun k hk => ?_⟩
  · have hcount := count_take hsome
    omega
  · have hslot : cons.take.2.slot k = cons.slot (k + 1) := by
      unfold slot
      rw [hrpos, nextPos_eq_mod cons.rbound, Nat.mod_add_mod]
      congr 1
      omega
    rw [hbuf, hslot]
    exact hq.get (k + 1) (by simpa using hk)

end Cons

/-- What has been returned is right, and what is pending is in the ring and in the port. -/
structure ConsPort.Matches (s : ConsPort) (q : InputQueue) : Prop where
  out : s.out = q.out
  ring : ∃ r, s.cons.Holds r ∧ q.pending = r ++ s.port.filter (· ≠ 0)

namespace ConsPort

variable {s : ConsPort} {q : InputQueue}

theorem Matches.drained (hmatch : s.Matches q) (hroom : q.pending.length < consBufSize) :
    (s.cons.intr s.port).Holds q.pending := by
  obtain ⟨r, hr, hpending⟩ := hmatch.ring
  rw [hpending] at hroom ⊢
  exact hr.intr hroom

theorem Matches.step (hmatch : s.Matches q) (hroom : q.pending.length < consBufSize)
    (event : ConsEvent) : (s.step event).Matches (q.step event) := by
  cases event with
  | arrive c =>
      obtain ⟨r, hr, hpending⟩ := hmatch.ring
      by_cases hzero : c = 0
      · rw [show q.step (.arrive c) = q from if_pos hzero]
        refine ⟨hmatch.out, r, hr, ?_⟩
        show q.pending = r ++ (s.port ++ [c]).filter (· ≠ 0)
        rw [List.filter_append, List.filter_cons_of_neg (by simpa using hzero), List.filter_nil,
          List.append_nil, hpending]
      · rw [show q.step (.arrive c) = { q with pending := q.pending ++ [c] } from if_neg hzero]
        refine ⟨hmatch.out, r, hr, ?_⟩
        show q.pending ++ [c] = r ++ (s.port ++ [c]).filter (· ≠ 0)
        rw [List.filter_append, List.filter_cons_of_pos (by simpa using hzero), List.filter_nil,
          hpending, List.append_assoc]
  | intr => exact ⟨hmatch.out, q.pending, hmatch.drained hroom, (List.append_nil _).symm⟩
  | getc =>
      have hring := hmatch.drained hroom
      have hout := hmatch.out
      obtain ⟨pending, out⟩ := q
      cases pending with
      | nil =>
          refine ⟨?_, [], ?_, rfl⟩
          · show s.out ++ [(s.cons.intr s.port).take.1] = out ++ [0]
            rw [hring.take_nil, hout]
          · show ((s.cons.intr s.port).take.2).Holds []
            rw [hring.take_nil]
            exact hring
      | cons c rest =>
          obtain ⟨hc, hrest⟩ := hring.take_cons
          refine ⟨?_, rest, hrest, (List.append_nil rest).symm⟩
          show s.out ++ [(s.cons.intr s.port).take.1] = out ++ [c]
          rw [hc, hout]

end ConsPort

theorem ConsPort.matches_of_room {cons : Cons}
    (hempty : cons.rpos = cons.wpos) (hroom : ConsRoom events) :
    ((ConsPort.start cons).run events).Matches (InputQueue.empty.run events) := by
  induction events using List.reverseRecOn with
  | nil =>
      refine ⟨rfl, [], ⟨?_, by simp⟩, rfl⟩
      show 0 = ahead _ cons.rpos cons.wpos
      rw [hempty, ahead_self]
  | append_singleton events event ih =>
      have hbefore : events <+: events ++ [event] := List.prefix_append _ _
      have hmatch := ih fun before h => hroom before (h.trans hbefore)
      rw [run, InputQueue.run, List.foldl_append, List.foldl_append]
      exact hmatch.step (hroom events hbefore) event

theorem ConsPort.run_append (s : ConsPort) (events events' : List ConsEvent) :
    s.run (events ++ events') = (s.run events).run events' := List.foldl_append

theorem InputQueue.run_append (q : InputQueue) (events events' : List ConsEvent) :
    q.run (events ++ events') = (q.run events).run events' := List.foldl_append

theorem ConsPort.exists_out (s : ConsPort) (events : List ConsEvent) :
    ∃ more, (s.run events).out = s.out ++ more ∧ more.length = events.count .getc := by
  induction events generalizing s with
  | nil => exact ⟨[], by simp [run], rfl⟩
  | cons event events ih =>
      obtain ⟨more, hout, hlen⟩ := ih (s.step event)
      cases event with
      | arrive c => exact ⟨more, hout, by simpa using hlen⟩
      | intr => exact ⟨more, hout, by simpa using hlen⟩
      | getc =>
          refine ⟨(s.cons.intr s.port).take.1 :: more, ?_, by simp [hlen]⟩
          rw [List.append_cons]
          exact hout

theorem InputQueue.exists_out (q : InputQueue) (events : List ConsEvent) :
    ∃ more, (q.run events).out = q.out ++ more ∧ more.length = events.count .getc := by
  induction events generalizing q with
  | nil => exact ⟨[], by simp [run], rfl⟩
  | cons event events ih =>
      obtain ⟨more, hout, hlen⟩ := ih (q.step event)
      cases event with
      | arrive c =>
          refine ⟨more, hout.trans ?_, by simpa using hlen⟩
          rw [step]
          split <;> rfl
      | intr => exact ⟨more, hout, by simpa using hlen⟩
      | getc =>
          refine ⟨q.pending.headD 0 :: more, ?_, by simp [hlen]⟩
          rw [List.append_cons]
          exact hout

theorem ConsRight.before {cons : Cons} {events' : List ConsEvent}
    (hright : ConsRight cons (events ++ events')) : ConsRight cons events := by
  unfold ConsRight at *
  rw [ConsPort.run_append, InputQueue.run_append] at hright
  obtain ⟨more, hout, hlen⟩ := ((ConsPort.start cons).run events).exists_out events'
  obtain ⟨more', hout', hlen'⟩ := (InputQueue.empty.run events).exists_out events'
  rw [hout, hout'] at hright
  exact (List.append_inj' hright (hlen.trans hlen'.symm)).1

theorem Cons.count_intr (cons : Cons) (port : List (BitVec 8)) :
    ∃ turns, cons.count + (port.filter (· ≠ 0)).length =
      (cons.intr port).count + consBufSize * turns := by
  induction port generalizing cons with
  | nil => exact ⟨0, rfl⟩
  | cons c port ih =>
      by_cases hzero : c = 0
      · rw [intr, if_pos hzero, List.filter_cons_of_neg (by simpa using hzero)]
        exact ih cons
      · rw [intr, if_neg hzero, List.filter_cons_of_pos (by simpa using hzero), List.length_cons]
        obtain ⟨turns, hturns⟩ := ih (cons.store c)
        obtain hcount | hcount := cons.count_store_or c
        · exact ⟨turns, by omega⟩
        · exact ⟨turns + 1, by rw [Nat.mul_succ]; omega⟩

/-- Everything returned so far was right, and a turn of the ring has been overwritten or will be when
the port is emptied. -/
structure ConsPort.Behind (s : ConsPort) (q : InputQueue) : Prop where
  nonzero : ∀ c ∈ q.pending, c ≠ 0
  lost : ∃ lost, q.pending.length =
      s.cons.count + (s.port.filter (· ≠ 0)).length + consBufSize * lost ∧
    (1 ≤ lost ∨ consBufSize ≤ s.cons.count + (s.port.filter (· ≠ 0)).length)

namespace ConsPort

variable {s : ConsPort} {q : InputQueue}

section

variable (hbehind : s.Behind q)
include hbehind

theorem Behind.drained :
    ∃ lost, q.pending.length = (s.cons.intr s.port).count + consBufSize * lost ∧ 1 ≤ lost := by
  obtain ⟨lost, hlen, hturn⟩ := hbehind.lost
  obtain ⟨turns, hturns⟩ := s.cons.count_intr s.port
  have hsmall := (s.cons.intr s.port).count_lt
  refine ⟨lost + turns, by rw [Nat.mul_add]; omega, ?_⟩
  obtain hlost | hfull := hturn
  · omega
  · by_contra hnone
    obtain rfl : turns = 0 := by omega
    omega

theorem Behind.intr : (s.step .intr).Behind q := by
  obtain ⟨lost, hlen, hlost⟩ := hbehind.drained
  exact ⟨hbehind.nonzero, lost, hlen, .inl hlost⟩

theorem Behind.arrive (c : BitVec 8) : (s.step (.arrive c)).Behind (q.step (.arrive c)) := by
  obtain ⟨lost, hlen, hturn⟩ := hbehind.lost
  have hport : (s.step (.arrive c)).port = s.port ++ [c] := rfl
  by_cases hzero : c = 0
  · rw [show q.step (.arrive c) = q from if_pos hzero]
    refine ⟨hbehind.nonzero, lost, ?_⟩
    rw [hport, List.filter_append, List.filter_cons_of_neg (by simpa using hzero), List.filter_nil,
      List.append_nil]
    exact ⟨hlen, hturn⟩
  · rw [show q.step (.arrive c) = { q with pending := q.pending ++ [c] } from if_neg hzero]
    refine ⟨fun d hd => ?_, lost, ?_⟩
    · obtain hd | hd := List.mem_append.mp hd
      · exact hbehind.nonzero d hd
      · rw [List.mem_singleton.mp hd]
        exact hzero
    · have hmore : ((s.port ++ [c]).filter (· ≠ 0)).length = (s.port.filter (· ≠ 0)).length + 1 := by
        rw [List.filter_append, List.filter_cons_of_pos (by simpa using hzero), List.filter_nil,
          List.length_append, List.length_singleton]
      have hring : (s.step (.arrive c)).cons = s.cons := rfl
      rw [hport, hmore, hring]
      show (q.pending ++ [c]).length = _ ∧ _
      rw [List.length_append, List.length_singleton]
      omega

theorem Behind.getc (hout : s.out = q.out) (hright : (s.step .getc).out = (q.step .getc).out) :
    (s.step .getc).Behind (q.step .getc) ∧
      (s.step .getc).cons.count + 1 = (s.cons.intr s.port).count := by
  obtain ⟨lost, hlen, hlost⟩ := hbehind.drained
  have hnonzero := hbehind.nonzero
  obtain ⟨pending, out⟩ := q
  cases pending with
  | nil =>
      have hzero : 0 = (s.cons.intr s.port).count + 512 * lost := hlen
      omega
  | cons c rest =>
      have hchar : (s.cons.intr s.port).take.1 = c := by
        have hlast : s.out ++ [(s.cons.intr s.port).take.1] = out ++ [c] := hright
        exact List.singleton_inj.mp (List.append_inj hlast (congrArg List.length hout)).2
      have hsome : 0 < (s.cons.intr s.port).count := by
        by_contra hnone
        have hempty : (s.cons.intr s.port).Holds [] := ⟨by simp; omega, by simp⟩
        rw [hempty.take_nil] at hchar
        exact hnonzero c List.mem_cons_self hchar.symm
      have hcount := Cons.count_take hsome
      refine ⟨⟨fun d hd => hnonzero d (List.mem_cons_of_mem c hd), lost, ?_, .inl hlost⟩, hcount⟩
      have hlen : rest.length + 1 = (s.cons.intr s.port).count + consBufSize * lost := hlen
      show rest.length = (s.cons.intr s.port).take.2.count + 0 + consBufSize * lost
      omega

theorem Behind.fails (hport : s.port = []) (hout : s.out = q.out) :
    ∃ k, (s.run (List.replicate k .getc)).out ≠ (q.run (List.replicate k .getc)).out := by
  generalize hcount : s.cons.count = count
  induction count generalizing s q with
  | zero =>
      refine ⟨1, fun hright => ?_⟩
      have hnext := (hbehind.getc hout hright).2
      rw [hport] at hnext
      have hsame : (s.cons.intr []).count = s.cons.count := rfl
      omega
  | succ count ih =>
      by_cases hright : (s.step .getc).out = (q.step .getc).out
      · obtain ⟨hnext, hless⟩ := hbehind.getc hout hright
        rw [hport] at hless
        have hsame : (s.cons.intr []).count = s.cons.count := rfl
        obtain ⟨k, hk⟩ := ih hnext rfl hright (by omega)
        exact ⟨k + 1, hk⟩
      · exact ⟨1, hright⟩

theorem Behind.step (hout : s.out = q.out) {event : ConsEvent}
    (hright : (s.step event).out = (q.step event).out) : (s.step event).Behind (q.step event) := by
  cases event with
  | arrive c => exact hbehind.arrive c
  | intr => exact hbehind.intr
  | getc => exact (hbehind.getc hout hright).1

theorem Behind.run {events : List ConsEvent}
    (hright : ∀ before, before <+: events → (s.run before).out = (q.run before).out) :
    (s.run events).Behind (q.run events) := by
  induction events using List.reverseRecOn with
  | nil => exact hbehind
  | append_singleton events event ih =>
      have hbefore : events <+: events ++ [event] := List.prefix_append _ _
      have hlast := hright _ (List.prefix_refl _)
      rw [run_append, InputQueue.run_append] at hlast ⊢
      exact (ih fun before h => hright before (h.trans hbefore)).step (hright events hbefore) hlast

end

end ConsPort

theorem exists_first_full (hfull : ¬ConsRoom events) :
    ∃ before event after, events = before ++ [event] ++ after ∧ ConsRoom before ∧
      consBufSize ≤ (InputQueue.empty.run (before ++ [event])).pending.length := by
  induction events using List.reverseRecOn with
  | nil =>
      refine absurd (fun before hbefore => ?_) hfull
      rw [List.prefix_nil.mp hbefore]
      decide
  | append_singleton events event ih =>
      by_cases hroom : ConsRoom events
      · refine ⟨events, event, [], (List.append_nil _).symm, hroom, ?_⟩
        by_contra hlt
        refine hfull fun before hbefore => ?_
        obtain rfl | hshort := List.prefix_concat_iff.mp hbefore
        · exact not_le.mp hlt
        · exact hroom before hshort
      · obtain ⟨before, event', after, heq, hbefore, hlen⟩ := ih hroom
        exact ⟨before, event', after ++ [event], by rw [heq, List.append_assoc], hbefore, hlen⟩

theorem pending_nonzero (events : List ConsEvent) :
    ∀ c ∈ (InputQueue.empty.run events).pending, c ≠ 0 := by
  induction events using List.reverseRecOn with
  | nil => nofun
  | append_singleton events event ih =>
      rw [InputQueue.run_append]
      intro c hc
      cases event with
      | arrive d =>
          change c ∈ (if d = 0 then _ else _ : InputQueue).pending at hc
          split at hc
          · exact ih c hc
          · next hd =>
              obtain hc | hc := List.mem_append.mp hc
              · exact ih c hc
              · rw [List.mem_singleton.mp hc]
                exact hd
      | intr => exact ih c hc
      | getc => exact ih c (List.mem_of_mem_tail hc)

theorem ConsPort.Matches.behind {s : ConsPort} {q : InputQueue} (hmatch : s.Matches q)
    (hnonzero : ∀ c ∈ q.pending, c ≠ 0) (hfull : consBufSize ≤ q.pending.length) : s.Behind q := by
  obtain ⟨r, hr, hpending⟩ := hmatch.ring
  have hlen : q.pending.length = s.cons.count + (s.port.filter (· ≠ 0)).length := by
    rw [hpending, List.length_append, hr.count]
  exact ⟨hnonzero, 0, hlen, .inr (hlen ▸ hfull)⟩

theorem ConsRoom.getcs (hroom : ConsRoom events) (k : Nat) :
    ConsRoom (events ++ List.replicate k .getc) := by
  induction k with
  | zero => simpa using hroom
  | succ k ih =>
      intro before hbefore
      rw [List.replicate_succ', ← List.append_assoc] at hbefore
      obtain rfl | hshort := List.prefix_concat_iff.mp hbefore
      · have hless := ih _ (List.prefix_refl _)
        rw [InputQueue.run_append _ (events ++ _)]
        refine lt_of_le_of_lt ?_ hless
        show (List.tail _).length ≤ _
        rw [List.length_tail]
        exact Nat.sub_le _ 1
      · exact ih before hshort

theorem ConsRight.prefixes {cons : Cons} {events' : List ConsEvent}
    (hright : ConsRight cons (events ++ events')) {more : List ConsEvent} (hmore : more <+: events') :
    (((ConsPort.start cons).run events).run more).out =
      ((InputQueue.empty.run events).run more).out := by
  obtain ⟨rest, rfl⟩ := hmore
  rw [← List.append_assoc] at hright
  rw [← ConsPort.run_append, ← InputQueue.run_append]
  exact hright.before

/-- However long `cons_getc` goes on after the events, it is right if and only if the ring always had
room. -/
theorem consRight_iff_room {cons : Cons} (hempty : cons.rpos = cons.wpos)
    (events : List ConsEvent) :
    (∀ k, ConsRight cons (events ++ List.replicate k .getc)) ↔ ConsRoom events := by
  constructor
  · intro hright
    by_contra hfull
    obtain ⟨before, event, after, rfl, hroom, hlen⟩ := exists_first_full hfull
    have hmatch := (ConsPort.matches_of_room hempty hroom).step (hroom _ (List.prefix_refl _)) event
    have hnonzero := pending_nonzero (before ++ [event])
    have hgetc : ∀ k, ConsRight cons (before ++ [event] ++ (after ++ [.getc] ++
        List.replicate k .getc)) := fun k => by
      have hall := hright (k + 1)
      rwa [List.replicate_succ, List.append_cons, List.append_assoc (before ++ [event]),
        List.append_assoc (before ++ [event])] at hall
    -- the ring stays behind until the end, and one `cons_getc` later the port is empty
    have hend : ConsPort.Behind _ _ := ConsPort.Behind.run
      (by rw [InputQueue.run_append] at hlen hnonzero ⊢
          rw [ConsPort.run_append]
          exact hmatch.behind hnonzero hlen)
      fun more hmore => (hgetc 0).prefixes (hmore.trans (List.prefix_append _ _))
    obtain ⟨k, hk⟩ := hend.fails (by rw [ConsPort.run_append]; rfl)
      ((hgetc 0).prefixes (List.prefix_append _ _))
    refine hk ?_
    rw [← ConsPort.run_append, ← InputQueue.run_append]
    exact (hgetc k).prefixes (List.prefix_refl _)
  · intro hroom k
    exact (ConsPort.matches_of_room hempty (hroom.getcs k)).out

theorem consRight_zeroed_pair : ConsRoom [.arrive 104, .arrive 105, .intr, .getc] ∧ ∀ k,
    ConsRight .zeroed ([.arrive 104, .arrive 105, .intr, .getc] ++ List.replicate k .getc) := by
  have hempty : Cons.zeroed.rpos = Cons.zeroed.wpos := rfl
  have hinits : ∀ before ∈ [.arrive 104, .arrive 105, .intr, .getc].inits,
      (InputQueue.empty.run before).pending.length < consBufSize := by
    decide
  have hroom : ConsRoom [.arrive 104, .arrive 105, .intr, .getc] := fun before hbefore =>
    hinits before ((List.mem_inits before _).mpr hbefore)
  exact ⟨hroom, (consRight_iff_room hempty _).mpr hroom⟩

/-- A burst of 512 characters fills the ring, which then looks empty. -/
theorem not_consRight_burst :
    ¬ConsRight .zeroed (List.replicate 512 (.arrive 97) ++ [.intr, .getc]) := by
  unfold ConsRight
  decide +kernel

end ZynexOS
