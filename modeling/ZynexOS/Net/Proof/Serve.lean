import ZynexOS.Net.Serve

/-! # Slots of the network server are held by its threads -/

namespace ZynexOS

open Library Function

variable {s s' : NetServer} {i j va : Nat} {m : NsMessage}

theorem bufferVa_inj (hsame : bufferVa i = bufferVa j) : i = j := by
  simp only [bufferVa, pgSize] at hsame
  omega

theorem bufferVa_slot (i : Nat) : (bufferVa i - reqva) / pgSize = i := by
  simp only [bufferVa, pgSize]
  omega

theorem getBuffer_eq_some {buse : Nat → Bool} (hget : getBuffer buse = some i) :
    i < queueSize ∧ buse i = false := by
  have hmem := List.mem_of_find?_eq_some hget
  have hfree := List.find?_some hget
  exact ⟨List.mem_range.mp hmem, by simpa using hfree⟩

theorem getBuffer_eq_none {buse : Nat → Bool} (hget : getBuffer buse = none) :
    usedSlots buse = queueSize := by
  have hall : ∀ i ∈ List.range queueSize, buse i = true := by
    simpa using List.find?_eq_none.mp hget
  rw [usedSlots, List.countP_eq_length.mpr hall, List.length_range]

structure Holding (buse : Nat → Bool) (held : List Nat) : Prop where
  nodup : held.Nodup
  slot : ∀ va ∈ held, ∃ i < queueSize, va = bufferVa i
  iff : ∀ i < queueSize, buse i = true ↔ bufferVa i ∈ held

section Holding

variable {buse : Nat → Bool} {held rest : List Nat}

theorem Holding.used (hb : Holding buse held) : usedSlots buse = held.length := by
  have hperm : (((List.range queueSize).filter buse).map bufferVa).Perm held := by
    refine (List.perm_ext_iff_of_nodup ?_ hb.nodup).mpr fun va => ?_
    · exact (List.nodup_range.filter _).map_on fun i _ j _ => bufferVa_inj
    · simp only [List.mem_map, List.mem_filter, List.mem_range]
      constructor
      · rintro ⟨i, ⟨hi, hused⟩, rfl⟩
        exact (hb.iff i hi).mp hused
      · intro hva
        obtain ⟨i, hi, rfl⟩ := hb.slot va hva
        exact ⟨i, ⟨hi, (hb.iff i hi).mpr hva⟩, rfl⟩
  rw [usedSlots, List.countP_eq_length_filter, ← hperm.length_eq, List.length_map]

theorem Holding.take (hb : Holding buse held) (hi : i < queueSize) (hfree : buse i = false) :
    Holding (update buse i true) (bufferVa i :: held) where
  nodup := by
    refine List.nodup_cons.mpr ⟨fun hmem => ?_, hb.nodup⟩
    rw [(hb.iff i hi).mpr hmem] at hfree
    cases hfree
  slot := by
    intro va hva
    obtain rfl | hva := List.mem_cons.mp hva
    · exact ⟨i, hi, rfl⟩
    · exact hb.slot va hva
  iff := by
    intro j hj
    by_cases hji : j = i
    · simp [hji]
    · have hne : bufferVa j ≠ bufferVa i := fun h => hji (bufferVa_inj h)
      rw [update_of_ne hji, List.mem_cons, or_iff_right hne]
      exact hb.iff j hj

theorem Holding.put (hb : Holding buse held) (hperm : held.Perm (va :: rest)) :
    Holding (update buse ((va - reqva) / pgSize) false) rest := by
  obtain ⟨hva, hnodup⟩ := List.nodup_cons.mp (hperm.nodup_iff.mp hb.nodup)
  obtain ⟨i, hi, rfl⟩ := hb.slot va (hperm.mem_iff.mpr List.mem_cons_self)
  rw [bufferVa_slot]
  refine ⟨hnodup, fun x hx => ?_, fun j hj => ?_⟩
  · exact hb.slot x (hperm.mem_iff.mpr (List.mem_cons_of_mem _ hx))
  · by_cases hji : j = i
    · simpa [hji] using hva
    · have hne : bufferVa j ≠ bufferVa i := fun h => hji (bufferVa_inj h)
      rw [update_of_ne hji, hb.iff j hj, hperm.mem_iff, List.mem_cons, or_iff_right hne]

end Holding

def ServePc.held : ServePc → List Nat
  | .recv va | .timer va _ => [va]
  | .top | .panicked => []

namespace NetServer

/-- Who holds the slots, and which of them have a page. A server that has panicked makes no more steps. -/
structure Sound (s : NetServer) : Prop where
  holding : s.pc ≠ .panicked → Holding s.buse (s.pc.held ++ s.threads.map StArgs.req)
  main : ∀ va ∈ s.pc.held, s.mapped va = false
  unmapped : ∀ i < queueSize, s.buse i = false → s.mapped (bufferVa i) = false

theorem Starts.sound (hs : s.Starts) : s.Sound := by
  refine ⟨fun _ => ⟨?_, ?_, ?_⟩, ?_, ?_⟩
  · simp [hs.pc, hs.threads, ServePc.held]
  · simp [hs.pc, hs.threads, ServePc.held]
  · simp [hs.pc, hs.threads, ServePc.held, hs.buse]
  · simp [hs.pc, ServePc.held]
  · exact fun i hi _ => hs.mapped i hi

theorem Sound.accounted (hs : s.Sound) : s.Accounted := by
  have hused : s.pc = .top → usedSlots s.buse = s.threads.length := by
    intro hpc
    have hb := (hs.holding (by simp [hpc])).used
    simpa [hpc, ServePc.held] using hb
  refine ⟨hused, fun hpc hlt => ?_, hs.unmapped⟩
  cases hget : getBuffer s.buse with
  | some i => exact ⟨i, rfl⟩
  | none =>
      have := getBuffer_eq_none hget
      have := hused hpc
      omega

theorem unmapped_put {buse mapped : Nat → Bool} {held : List Nat} (hb : Holding buse held)
    (hva : va ∈ held) (hpage : mapped va = false)
    (hfree : ∀ i < queueSize, buse i = false → mapped (bufferVa i) = false) :
    ∀ i < queueSize, update buse ((va - reqva) / pgSize) false i = false →
      mapped (bufferVa i) = false := by
  obtain ⟨j, _, rfl⟩ := hb.slot va hva
  intro i hi hput
  rw [bufferVa_slot] at hput
  by_cases hij : i = j
  · rw [hij, hpage]
  · rw [update_of_ne hij] at hput
    exact hfree i hi hput

theorem unmapped_update {buse mapped : Nat → Bool} {held : List Nat} (hb : Holding buse held)
    (hva : va ∈ held) (v : Bool)
    (hfree : ∀ i < queueSize, buse i = false → mapped (bufferVa i) = false) :
    ∀ i < queueSize, buse i = false → update mapped va v (bufferVa i) = false := by
  intro i hi hnot
  have hne : bufferVa i ≠ va := by
    rintro rfl
    rw [(hb.iff i hi).mpr hva] at hnot
    cases hnot
  rw [update_of_ne hne]
  exact hfree i hi hnot

theorem Sound.receive (hs : s.Sound) (hpc : s.pc = .top) (hi : getBuffer s.buse = some i) :
    Sound { s with pc := .recv (bufferVa i), buse := update s.buse i true } := by
  obtain ⟨hlt, hfree⟩ := getBuffer_eq_some hi
  have hb := hs.holding (by simp [hpc])
  rw [hpc] at hb
  refine ⟨fun _ => hb.take hlt hfree, ?_, ?_⟩
  · intro va hva
    rw [List.mem_singleton.mp hva]
    exact hs.unmapped i hlt hfree
  · intro j hj hnot
    replace hnot : update s.buse i true j = false := hnot
    by_cases hji : j = i
    · simp [hji] at hnot
    · rw [update_of_ne hji] at hnot
      exact hs.unmapped j hj hnot

theorem Sound.putMain (hs : s.Sound) (hpc : s.pc = .recv va ∨ ∃ whom, s.pc = .timer va whom)
    (replies : List (Nat × Int)) : Sound { s.putBuffer va with pc := .top, replies := replies } := by
  have hheld : s.pc.held = [va] := by
    obtain hpc | ⟨whom, hpc⟩ := hpc <;> simp [hpc, ServePc.held]
  have hrun : s.pc ≠ .panicked := by
    obtain hpc | ⟨whom, hpc⟩ := hpc <;> simp [hpc]
  have hb := hs.holding hrun
  have hmem : va ∈ s.pc.held ++ s.threads.map StArgs.req := by simp [hheld]
  refine ⟨fun _ => hb.put ?_, nofun, unmapped_put hb hmem ?_ hs.unmapped⟩
  · rw [hheld]
    exact List.Perm.refl _
  · exact hs.main va (by simp [hheld])

theorem Sound.message {args thread : Bool} (hs : s.Sound) (hpc : s.pc = .recv va)
    (horderly : s.Orderly (.message m args thread)) :
    (serveMessage (if m.page.isSome then { s with mapped := update s.mapped va true } else s)
      va m args thread).Sound := by
  have hb := hs.holding (by simp [hpc])
  rw [hpc] at hb
  have hmem : va ∈ va :: s.threads.map StArgs.req := List.mem_cons_self
  simp only [Orderly] at horderly
  by_cases htimer : m.reqno = nsreqTimer
  · rw [if_pos htimer] at horderly
    simp only [serveMessage, htimer, horderly, Option.isSome_none, Bool.false_eq_true, if_true,
      if_false]
    split
    · refine ⟨fun _ => hb, ?_, hs.unmapped⟩
      intro x hx
      rw [List.mem_singleton.mp hx]
      exact hs.main va (by simp [hpc, ServePc.held])
    · exact hs.putMain (.inl hpc) s.replies
  · rw [if_neg htimer] at horderly
    obtain ⟨hperm, hthread⟩ := horderly
    obtain ⟨perm, hpage⟩ : ∃ perm, m.page = some perm := by
      cases hpage : m.page with
      | none => simp [NsMessage.perm, hpage] at hperm
      | some perm => exact ⟨perm, rfl⟩
    have hfree := unmapped_update hb hmem true hs.unmapped
    simp only [serveMessage, htimer, hperm, hpage, Option.isSome_some, if_true, if_false]
    cases args with
    | true =>
        rw [hthread rfl]
        exact ⟨fun _ => hb, nofun, hfree⟩
    | false => exact ⟨fun hpc => absurd rfl hpc, nofun, hfree⟩

theorem Sound.threadDone {args : StArgs} {k : Nat} (hs : s.Sound) (hpc : s.pc ≠ .panicked)
    (hargs : s.threads[k]? = some args) (lwip : Int) (sent : Bool) :
    (serveThread { s with threads := s.threads.eraseIdx k } args lwip sent).Sound := by
  have hb := hs.holding hpc
  obtain ⟨hk, rfl⟩ := List.getElem?_eq_some_iff.mp hargs
  have hperm : (s.pc.held ++ s.threads.map StArgs.req).Perm
      (s.threads[k].req :: (s.pc.held ++ (s.threads.eraseIdx k).map StArgs.req)) := by
    have hthreads := ((List.getElem_cons_eraseIdx_perm hk).map StArgs.req).symm
    exact (hthreads.append_left s.pc.held).trans List.perm_middle
  have hmem : s.threads[k].req ∈ s.pc.held ++ s.threads.map StArgs.req :=
    hperm.mem_iff.mpr List.mem_cons_self
  have hself : update s.mapped s.threads[k].req false s.threads[k].req = false :=
    update_self ..
  have hdone : ∀ replies, Sound (pageUnmap (putBuffer
      { s with threads := s.threads.eraseIdx k, replies := replies } s.threads[k].req)
      s.threads[k].req) := by
    intro replies
    refine ⟨fun _ => hb.put hperm, ?_, ?_⟩
    · intro x hx
      have hne : x ≠ s.threads[k].req := by
        rintro rfl
        have hnodup := List.nodup_cons.mp (hperm.nodup_iff.mp hb.nodup)
        exact hnodup.1 (List.mem_append_left _ hx)
      show update s.mapped s.threads[k].req false x = false
      rw [update_of_ne hne]
      exact hs.main x hx
    · exact unmapped_put hb hmem hself (unmapped_update hb hmem false hs.unmapped)
  unfold serveThread
  split
  · exact hdone s.replies
  · split
    · exact hdone _
    · exact ⟨fun hrun => absurd rfl hrun, nofun, hs.unmapped⟩

theorem Sound.step {event : ServeEvent} (hs : s.Sound) (horderly : s.Orderly event)
    (hstep : s.Step event s') : s'.Sound := by
  cases event with
  | receive =>
      cases hpc : s.pc with
      | top =>
          cases hget : getBuffer s.buse with
          | none =>
              simp only [Step, exec, hpc, hget, Option.some.injEq] at hstep
              subst hstep
              exact ⟨fun hrun => absurd rfl hrun, nofun, hs.unmapped⟩
          | some i =>
              simp only [Step, exec, hpc, hget, Option.some.injEq] at hstep
              subst hstep
              exact hs.receive hpc hget
      | _ => simp [Step, exec, hpc] at hstep
  | message m args thread =>
      cases hpc : s.pc with
      | recv va =>
          simp only [Step, exec, hpc, Option.some.injEq] at hstep
          subst hstep
          simpa only [hpc] using hs.message hpc horderly
      | _ => simp [Step, exec, hpc] at hstep
  | timerDone elapsed sent =>
      cases hpc : s.pc with
      | timer va whom =>
          cases sent with
          | true =>
              simp only [Step, exec, hpc, if_true, Option.some.injEq] at hstep
              subst hstep
              exact hs.putMain (.inr ⟨whom, hpc⟩) _
          | false =>
              simp only [Step, exec, hpc, Bool.false_eq_true, if_false, Option.some.injEq] at hstep
              subst hstep
              exact ⟨fun hrun => absurd rfl hrun, nofun, hs.unmapped⟩
      | _ => simp [Step, exec, hpc] at hstep
  | threadDone k lwip sent =>
      have hpc : s.pc ≠ .panicked := by
        intro hpc
        simp [Step, exec, hpc] at hstep
      cases hargs : s.threads[k]? with
      | none =>
          unfold Step exec at hstep
          split at hstep <;> simp_all
      | some args =>
          have hdone := hs.threadDone hpc hargs lwip sent
          unfold Step exec at hstep
          split at hstep <;> simp_all

/-- As long as timer messages come without a page, all others with one that is marked valid, and threads
can be created, the slots are accounted for. -/
theorem slots_accounted {s : NetServer} (hrun : Reachable Starts Step Orderly s) : s.Accounted :=
  (hrun.invariant (fun _ => Starts.sound) fun _ _ _ hs horderly hstep =>
    hs.step horderly hstep).accounted

instance (s : NetServer) (event : ServeEvent) : Decidable (s.Orderly event) := by
  unfold Orderly
  split <;> infer_instance

def boot : NetServer where
  buse _ := false
  mapped _ := false
  threads := []
  pc := .top
  timerEnvid := 0x1002
  replies := []

theorem boot_starts : boot.Starts := ⟨fun _ => rfl, fun _ _ => rfl, rfl, rfl⟩

def fourMessages : List ServeEvent :=
  [.receive, .message ⟨nsreqTimer, 0x1002, none⟩ true true, .timerDone 3 true,
    .receive, .message ⟨1, 0x1004, some (pteV ||| pteU ||| pteW)⟩ true true,
    .receive, .message ⟨nsreqInput, 0x1003, some (pteV ||| pteU ||| pteW)⟩ true true,
    .threadDone 0 0 true, .receive, .message ⟨77, 0x1005, some (pteV ||| pteU)⟩ true true,
    .threadDone 0 0 true]

theorem slots_accounted_four :
    ∃ s, Reachable Starts Step Orderly s ∧ s.replies = [(0x1005, -3), (0x1002, 247)] ∧
      s.threads.length = 1 ∧ s.Accounted := by
  have hrun : (fourMessages.foldlM (guarded Orderly exec) boot).map
      (fun s => (s.replies, s.threads.length)) = some ([(0x1005, -3), (0x1002, 247)], 1) := by
    decide +kernel
  obtain ⟨s, hreach, hobs⟩ := (Reachable.start boot_starts).observed guarded_eq_some hrun
  exact ⟨s, hreach, congrArg Prod.fst hobs, congrArg Prod.snd hobs, slots_accounted hreach⟩

def noPages : List ServeEvent :=
  (List.replicate queueSize [.receive, .message ⟨1, 0x1004, none⟩ true true]).flatten

/-- After twenty requests without a page no request is outstanding, and there is no slot to get. After
one timer message with a page the free slot has a page. -/
theorem slots_leak :
    (∃ s, Reachable Starts Step (fun _ _ => True) s ∧ s.pc = .top ∧ s.threads = [] ∧
      usedSlots s.buse = queueSize ∧ getBuffer s.buse = none ∧ ¬ s.Accounted) ∧
    ∃ s, Reachable Starts Step (fun _ _ => True) s ∧ s.pc = .top ∧ s.buse 0 = false ∧
      s.mapped (bufferVa 0) = true ∧ ¬ s.Accounted := by
  have hstep : ∀ s event s', exec s event = some s' → True ∧ s.Step event s' :=
    fun _ _ _ hstep => ⟨trivial, hstep⟩
  constructor
  · have hrun : (noPages.foldlM exec boot).map
        (fun s => (s.pc, s.threads.length, usedSlots s.buse, getBuffer s.buse)) =
        some (.top, 0, queueSize, none) := by
      decide +kernel
    obtain ⟨s, hreach, hobs⟩ := (Reachable.start boot_starts).observed hstep hrun
    obtain ⟨hpc, hthreads, hused, hget⟩ : s.pc = .top ∧ s.threads.length = 0 ∧
        usedSlots s.buse = queueSize ∧ getBuffer s.buse = none := by simpa using hobs
    refine ⟨s, hreach, hpc, List.length_eq_zero_iff.mp hthreads, hused, hget, fun hacc => ?_⟩
    have := hacc.used hpc
    rw [hused, hthreads] at this
    exact absurd this (by decide)
  · have hrun : ([.receive, .message ⟨nsreqTimer, 0x1004, some (pteV ||| pteU)⟩ true true].foldlM exec
        boot).map (fun s => (s.pc, s.buse 0, s.mapped (bufferVa 0))) =
        some (.top, false, true) := by
      decide +kernel
    obtain ⟨s, hreach, hobs⟩ := (Reachable.start boot_starts).observed hstep hrun
    obtain ⟨hpc, hbuse, hmapped⟩ : s.pc = .top ∧ s.buse 0 = false ∧ s.mapped (bufferVa 0) = true := by
      simpa using hobs
    refine ⟨s, hreach, hpc, hbuse, hmapped, fun hacc => ?_⟩
    rw [hacc.unmapped 0 (by decide) hbuse] at hmapped
    cases hmapped

end NetServer

end ZynexOS
