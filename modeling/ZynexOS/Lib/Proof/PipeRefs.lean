import ZynexOS.Lib.Proof.PipeSteps

/-! # The reference counts of a pipe are right -/

namespace ZynexOS

open Library Function

namespace FdSys

variable {s s' : FdSys} {e : EnvSlot} {pc : FdPc} {pn : Nat}

theorem fdAlloc_spec {i : Nat} (halloc : s.fdAlloc = some i) :
    i < maxFd ∧ s.table s.cur (fdPn i) = none := by
  have hmem := List.mem_of_find?_eq_some halloc
  have hnone := List.find?_some halloc
  exact ⟨List.mem_range.mp hmem, of_decide_eq_true hnone⟩

theorem total_of_noPipe {p : Page} (h : ∀ e, NoPipe (s.table e)) (hp : p.OfPipe) : s.total p = 0 :=
  Finset.sum_eq_zero fun e _ => tableCount_of_noPipe (h e) hp

theorem BeforePipe.counted (h : s.BeforePipe) : s.Counted := by
  intro p hp
  rw [h.refs p hp, total_of_noPipe h.unmapped hp, Nat.zero_mod]

theorem placed_insert_end {t : Nat → Option Page} {fd : Int} {p : Page} (h : Placed t none)
    (hfd : FdInRange fd) (hnot : ¬HasEnd t fd) (hend : p.IsEnd) :
    Placed (update (update t (dataPn (fdPn fd)) (some .data)) (fdPn fd) (some p))
      none := by
  have hdata : p ≠ .data := by
    rintro rfl
    exact Page.not_isEnd_data hend
  refine (h.insertData hfd hnot Page.not_isEnd_data).insertFd hfd hdata ?_
  rw [update_self]
  exact iff_of_true rfl hend

theorem placed_pipe {t : Nat → Option Page} {fd0 fd1 : Int} (hno : NoPipe t) (hfd0 : FdInRange fd0)
    (hfd1 : FdInRange fd1) (hne : fd0 ≠ fd1) :
    Placed (update (update (update (update t
      (fdPn fd0) (some .readFd)) (fdPn fd1) (some .writeFd))
      (dataPn (fdPn fd0)) (some .data)) (dataPn (fdPn fd1)) (some .data)) none := by
  have hends (fd : Int) : ¬HasEnd t fd := by
    rintro ⟨p, hp, hend⟩
    exact hno _ p hp (.inl hend)
  -- each data page before its descriptor
  rw [update_comm (fdPn_ne_dataPn hfd1 hfd0), update_comm (fdPn_ne_dataPn hfd0 hfd0),
    update_comm (fdPn_ne_dataPn hfd1 hfd1)]
  refine placed_insert_end (placed_insert_end (placed_of_noPipe hno none) hfd0 (hends fd0) (.inl rfl))
    hfd1 ?_ (.inr rfl)
  rw [hasEnd_update_of_ne hfd0 hfd1 hne.symm, hasEnd_update_data hfd0 hfd1]
  exact hends fd1

theorem sound_of_starts (hstarts : s.Starts) : s.Sound := by
  obtain ⟨before, hbefore, hpipe⟩ := hstarts
  simp only [pipe, Option.bind_eq_bind, Option.bind_eq_some_iff, Option.pure_def,
    Option.some.injEq] at hpipe
  obtain ⟨fd0, halloc0, fd1, halloc1, rfl⟩ := hpipe
  obtain ⟨hlt0, -⟩ := fdAlloc_spec halloc0
  obtain ⟨hlt1, hnone1⟩ := fdAlloc_spec halloc1
  have hfd0 := fdInRange_natCast hlt0
  have hfd1 := fdInRange_natCast hlt1
  have hne : (fd0 : Int) ≠ fd1 := by
    intro heq
    rw [← heq, cur_pageInsert, table_pageInsert, update_self, update_self] at hnone1
    cases hnone1
  have hcounted := (((hbefore.counted.pageInsert (e := before.cur) (inWindow_fdPn hfd0)
    .readFd).pageInsert (e := before.cur) (inWindow_fdPn hfd1) .writeFd).pageInsert (e := before.cur)
    (inWindow_dataPn hfd0) .data).pageInsert (e := before.cur) (inWindow_dataPn hfd1) .data
  refine ⟨by simpa only [cur_pageInsert] using hcounted, fun e => ?_⟩
  simp only [pc_pageInsert, cur_pageInsert]
  rcases eq_or_ne e before.cur with rfl | hother
  · rw [hbefore.running]
    refine proc_of_simple rfl ?_ trivial
    simp only [table_pageInsert, update_self, update_idem]
    exact placed_pipe (hbefore.unmapped _) hfd0 hfd1 hne
  · have hno : NoPipe (before.table e) := hbefore.unmapped e
    have htable : (((((before.pageInsert before.cur (fdPn fd0) .readFd).pageInsert before.cur
        (fdPn fd1) .writeFd).pageInsert before.cur (dataPn (fdPn fd0)) .data).pageInsert before.cur
        (dataPn (fdPn fd1)) .data).table e) = before.table e := by
      simp only [table_pageInsert, update_of_ne hother]
    rcases hbefore.pc e with hpc | hpc <;> rw [hpc]
    · exact proc_of_simple rfl (htable ▸ placed_of_noPipe hno _) trivial
    · exact ⟨⟨nofun, nofun, fun _ => htable ▸ hno, nofun⟩, htable ▸ placed_of_noPipe hno _, trivial,
        trivial⟩

theorem Sound.countsRight (h : s.Sound) : s.CountsRight := by
  have hall (e : EnvSlot) : ∃ lone, Placed (s.table e) lone := ⟨_, (h.proc e).placed⟩
  have hdata := h.counted.refs_eq hall (p := .data) (.inr rfl)
  have hread := h.counted.refs_eq hall (p := .readFd) (.inl (.inl rfl))
  have hwrite := h.counted.refs_eq hall (p := .writeFd) (.inl (.inr rfl))
  refine ⟨?_, fun hquiet => ?_, fun e fd he => ((h.proc e).closed fd he).1,
    fun e fd he => ((h.proc e).closed fd he).2⟩
  · rw [hdata, hread, hwrite]
    exact total_ends_le hall
  · rw [hdata, hread, hwrite]
    refine total_ends_eq fun e => ?_
    rw [← FdPc.lone_of_not_changing (hquiet e)]
    exact (h.proc e).placed

/-- In every run in which `dup` is called with descriptors in range, the data page of a pipe has as many
references as its descriptors, and the pipe is not reported closed while the other end is mapped. -/
theorem pipe_refs_right (hreach : Reachable Starts Step InBounds s) : s.CountsRight :=
  (hreach.invariant (fun _ => sound_of_starts) fun _ _ _ h hbound hstep =>
    h.step hbound hstep).countsRight

def firstSlot : EnvSlot := ⟨0, by decide⟩

def alone : FdSys where
  table := fun _ _ => none
  pc := fun e => if e = firstSlot then .user else .dead
  runs := fun _ => 0
  refs := fun _ => 0
  cur := firstSlot

theorem beforePipe_alone : alone.BeforePipe where
  running := rfl
  unmapped := by
    rintro e pn p ⟨⟩
  refs := fun _ _ => rfl
  pc := by
    intro e
    by_cases he : e = firstSlot
    · exact .inl (if_pos he)
    · exact .inr (if_neg he)

def runAlone (events : List FdEvent) : Option FdSys := alone.pipe.bind (events.foldlM exec)

theorem reachable_runAlone {allowed : FdSys → FdEvent → Prop} {events : List FdEvent}
    (hallowed : ∀ event ∈ events, ∀ s, allowed s event) (hrun : runAlone events = some s) :
    Reachable Starts Step allowed s := by
  obtain ⟨s₀, hpipe, hrun⟩ := Option.bind_eq_some_iff.mp hrun
  have hstart : Reachable Starts Step allowed s₀ := .start ⟨alone, beforePipe_alone, hpipe⟩
  exact hstart.steps (fun _ _ _ => id) hallowed hrun

def dupEvents : List FdEvent := .dup 0 5 :: List.replicate 6 .step

theorem pipe_refs_right_dup : ∃ s, Reachable Starts Step InBounds s ∧ s.refs .data = 3 ∧
    s.refs .readFd = 2 ∧ s.CountsRight := by
  have hrefs : (runAlone dupEvents).map (fun s => (s.refs .data, s.refs .readFd)) = some (3, 2) := by
    decide +kernel
  obtain ⟨s, hrun, hs⟩ := Option.map_eq_some_iff.mp hrefs
  have hreach : Reachable Starts Step InBounds s := by
    refine reachable_runAlone (fun event hmem s => ?_) hrun
    rcases List.mem_cons.mp hmem with rfl | hmem
    · exact ⟨by decide, by decide⟩
    · rw [List.eq_of_mem_replicate hmem]
      trivial
  obtain ⟨hdata, hread⟩ := Prod.mk.inj hs
  exact ⟨s, hreach, hdata, hread, pipe_refs_right hreach⟩

def dupBeyondEvents : List FdEvent :=
  .dup 0 32 :: List.replicate 5 .step ++ .pipeisclosed 0 :: List.replicate 7 .step

theorem pipe_closed_with_writer : ∃ s, Reachable Starts Step (fun _ _ => True) s ∧
    s.refs .data < s.refs .readFd + s.refs .writeFd ∧ s.pc firstSlot = .returned 0 true ∧
    s.table firstSlot (fdPn 0) = some .readFd ∧ s.table firstSlot (fdPn 1) = some .writeFd := by
  have hend : (runAlone dupBeyondEvents).map (fun s => ((s.refs .data, s.refs .readFd, s.refs .writeFd),
      s.pc firstSlot, s.table firstSlot (fdPn 0), s.table firstSlot (fdPn 1))) =
      some ((2, 2, 1), .returned 0 true, some .readFd, some .writeFd) := by
    decide +kernel
  obtain ⟨s, hrun, hs⟩ := Option.map_eq_some_iff.mp hend
  simp only [Prod.mk.injEq] at hs
  obtain ⟨⟨hdata, hread, hwrite⟩, hpc, hfd0, hfd1⟩ := hs
  exact ⟨s, reachable_runAlone (fun _ _ _ => trivial) hrun, by omega, hpc, hfd0, hfd1⟩

end FdSys

end ZynexOS
