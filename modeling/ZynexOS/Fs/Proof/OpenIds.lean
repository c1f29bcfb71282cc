import ZynexOS.Fs.OpenIds
import ZynexOS.Fs.Proof.Access

/-!
# Which ids are issued and found

The ids of entry `i` are `i + 1024`, `i + 2048` and so on.
-/

namespace ZynexOS

open Library Function

namespace Fs

def View.nextId (v : View) (i : Nat) : Nat := ((v.opentab i).fileid + maxOpen) % 2 ^ 32

structure View.First (v : View) (i : Nat) : Prop where
  lt : i < maxOpen
  free : v.refs i ≤ 1
  first : ∀ j < i, 1 < v.refs j

inductive Allocates (memory : Bool) (v : View) : Int × Option Nat → View → Prop where
  | maxOpen (hfull : ∀ i < maxOpen, 1 < v.refs i) : Allocates memory v (-eMaxOpen, none) v
  | noMem (hmemory : memory = false) : Allocates memory v (-eNoMem, none) v
  | take {i : Nat} {v' : View} (hfirst : v.First i)
      (hopentab : v'.opentab = update v.opentab i { v.opentab i with fileid := v.nextId i })
      (hpageref : v'.pageref = update v.pageref (v.opentab i).fd 1) :
      Allocates memory v (int32 (v.nextId i), some i) v'

theorem not_inCache_of_fileVa_le {a : Nat} (h : fileVa ≤ a) : ¬inCache a := by
  unfold fileVa at h
  simp only [inCache, decide_eq_true_eq]
  omega

variable {full : Prop} {v : View}

theorem runs_openfileTake {i : Nat} {Q : Int × Option Nat → View → Prop}
    (hfd : fileVa ≤ (v.opentab i).fd)
    (hQ : ∀ v', v'.opentab = update v.opentab i { v.opentab i with fileid := v.nextId i } →
      v'.pageref = v.pageref → Q (int32 (v.nextId i), some i) v') :
    runs full (openfileTake i) Q (fun _ => False) v := by
  let w := fun v : View => { v with
    opentab := update v.opentab i { v.opentab i with fileid := v.nextId i } }
  refine runs_bind (runs_modify (w := w) ?_ (fun _ => rfl) fun _ _ h => h)
  refine runs_bind (runs_get fun s hs => ?_)
  have hentry : s.opentab i = { v.opentab i with fileid := v.nextId i } := by
    show s.toView.opentab i = _
    rw [hs]
    exact update_self ..
  rw [hentry]
  refine runs_bind (runs_memset (runs_pure (hQ _ rfl rfl)) fun _ hnot => hnot fun x hx _ hin => ?_)
  exact absurd hin (not_inCache_of_fileVa_le (le_trans hfd hx))

theorem runs_openfileScan {memory : Bool} (hfd : ∀ i < maxOpen, fileVa ≤ (v.opentab i).fd)
    {left i : Nat} (hleft : i + left = maxOpen) (hused : ∀ j < i, 1 < v.refs j) :
    runs full (openfileScan memory left i) (Allocates memory v) (fun _ => False) v := by
  induction left generalizing i with
  | zero =>
      refine runs_pure (.maxOpen fun j hj => hused j ?_)
      omega
  | succ left ih =>
      refine runs_bind (runs_get fun s hs => ?_)
      have hlt : i < maxOpen := by omega
      have hrefs : s.pageref (s.opentab i).fd = v.refs i := by
        rw [← hs]
        rfl
      have hentry : (s.opentab i).fd = (v.opentab i).fd := by rw [← hs]
      rw [hrefs, hentry]
      refine runs_ite (fun hzero => ?_) fun hzero => runs_ite (fun hone => ?_) fun hone => ?_
      · cases memory with
        | false => exact runs_bind (runs_pure (runs_pure (.noMem rfl)))
        | true =>
            let w := fun u : View => { u with
              pageref := update u.pageref (v.opentab i).fd 1
              mem := u.mem.fill (v.opentab i).fd 4096 0 }
            refine runs_bind (runs_bind (runs_modify (w := w) ?_ (fun _ => rfl) fun _ _ h => h))
            refine runs_pure (runs_openfileTake (hfd i hlt) fun v' hopentab hpageref => ?_)
            exact .take ⟨hlt, by omega, hused⟩ hopentab hpageref
      · refine runs_openfileTake (hfd i hlt) fun v' hopentab hpageref => ?_
        refine .take ⟨hlt, by omega, hused⟩ hopentab (hpageref.trans ?_)
        rw [← hone]
        exact (update_eq_self _ _).symm
      · refine ih (by omega) fun j hj => ?_
        rcases Nat.lt_succ_iff_lt_or_eq.mp hj with hj | rfl
        · exact hused j hj
        · omega

theorem openfileAlloc_spec {memory : Bool} {s : Fs} (hfd : ∀ i < maxOpen, fileVa ≤ (s.opentab i).fd) :
    ∃ r s', openfileAlloc memory s = .ok r s' ∧ Allocates memory s.toView r s'.toView := by
  have hrun : runs False (openfileAlloc memory) (Allocates memory s.toView) (fun _ => False) s.toView :=
    runs_openfileScan hfd (Nat.zero_add _) fun j hj => absurd hj (Nat.not_lt_zero j)
  have h := hrun s rfl fun h => h.elim
  unfold wp at h
  split at h
  · rename_i r s' hrun
    exact ⟨r, s', hrun, h.1⟩
  · exact h.elim

namespace OpenSys

structure Entry (s : OpenSys) (i : Nat) : Prop where
  fd : (s.fs.opentab i).fd = fileVa + 4096 * i
  slot : (s.fs.opentab i).fileid % maxOpen = i
  lt : (s.fs.opentab i).fileid < 2 ^ 31
  unused : s.latest i = none → s.fs.refs i = 0 ∧ s.clients i = 0
  used : ∀ id, s.latest i = some id →
    id = (s.fs.opentab i).fileid ∧ s.fs.refs i = s.clients i + 1 ∧ s.clients i + 1 < 2 ^ 16

structure Sound (s : OpenSys) : Prop where
  entry : ∀ i < maxOpen, s.Entry i
  documented : ∀ r ∈ s.returned, 0 ≤ r ∨ r = -eMaxOpen ∨ r = -eNoMem
  unique : (s.returned.filter fun r => 0 ≤ r).Nodup
  old : ∀ id : Nat, (id : Int) ∈ s.returned → id ≤ (s.fs.opentab (id % maxOpen)).fileid

variable {s s' : OpenSys}

theorem Sound.fileVa_le (h : s.Sound) : ∀ i < maxOpen, fileVa ≤ (s.fs.opentab i).fd := fun i hi => by
  rw [(h.entry i hi).fd]
  exact Nat.le_add_right _ _

theorem mod_maxOpen_lt (id : Nat) : id % maxOpen < maxOpen := Nat.mod_lt _ (by decide)

theorem finds_iff {id : Nat} : s.Finds id ↔
    1 < s.fs.refs (id % maxOpen) ∧ (s.fs.opentab (id % maxOpen)).fileid = id := by
  have hrun : openfileLookup id s.fs = if s.fs.refs (id % maxOpen) ≤ 1 ∨
      (s.fs.opentab (id % maxOpen)).fileid ≠ id then .ok (.error (-eInval)) s.fs
      else .ok (.ok (s.fs.opentab (id % maxOpen))) s.fs := by
    unfold openfileLookup View.refs
    show EStateM.bind get _ s.fs = _
    simp only [EStateM.bind, get, getThe, MonadStateOf.get, EStateM.get]
    split <;> rfl
  unfold Finds
  rw [hrun]
  split
  · rename_i h
    simp only [EStateM.Result.ok.injEq, reduceCtorEq, and_true, exists_false, false_iff, not_and]
    omega
  · rename_i h
    push Not at h
    simpa using h

theorem Sound.idsRight (h : s.Sound) : s.IdsRight where
  documented := h.documented
  unique := h.unique
  found id := by
    rw [finds_iff]
    have hentry := h.entry (id % maxOpen) (mod_maxOpen_lt id)
    cases hlatest : s.latest (id % maxOpen) with
    | none =>
        obtain ⟨hrefs, -⟩ := hentry.unused hlatest
        simp [hrefs]
    | some latest =>
        obtain ⟨rfl, hrefs, -⟩ := hentry.used latest hlatest
        rw [hrefs, Option.some.injEq]
        omega

theorem fd_ne {i j : Nat} (h : j ≠ i) : fileVa + 4096 * j ≠ fileVa + 4096 * i := by omega

theorem Sound.share (h : s.Sound) {i clients refs : Nat} (hi : i < maxOpen)
    (hrefs : refs % 2 ^ 16 = clients + 1) (hused : s.latest i ≠ none) :
    (s.share i clients refs).Sound where
  entry j hj := by
    have hj' := h.entry j hj
    by_cases hji : j = i
    · subst hji
      refine ⟨hj'.fd, hj'.slot, hj'.lt, fun hnone => absurd hnone hused, fun id hid => ?_⟩
      simp only [OpenSys.share, View.refs, update_self]
      have := (hj'.used id hid).1
      omega
    · have hrefs' : (s.share i clients refs).fs.refs j = s.fs.refs j := by
        simp only [OpenSys.share, View.refs]
        rw [update_of_ne]
        rw [hj'.fd, (h.entry i hi).fd]
        exact fd_ne hji
      have hclients : (s.share i clients refs).clients j = s.clients j := update_of_ne hji ..
      refine ⟨hj'.fd, hj'.slot, hj'.lt, fun hnone => ?_, fun id hid => ?_⟩
      · rw [hrefs', hclients]
        exact hj'.unused hnone
      · rw [hrefs', hclients]
        exact hj'.used id hid
  documented := h.documented
  unique := h.unique
  old := h.old

theorem Sound.latest_of_refs (h : s.Sound) {i : Nat} (hi : i < maxOpen)
    (hrefs : s.fs.refs i ≠ 0 ∨ 0 < s.clients i) :
    s.latest i ≠ none ∧ s.fs.refs i = s.clients i + 1 ∧ s.clients i + 1 < 2 ^ 16 := by
  cases hlatest : s.latest i with
  | none =>
      have := (h.entry i hi).unused hlatest
      omega
  | some id => exact ⟨nofun, ((h.entry i hi).used id hlatest).2⟩

theorem Sound.failed (h : s.Sound) {fs : Fs} {r : Int} (hfs : fs.toView = s.fs.toView)
    (hr : r = -eMaxOpen ∨ r = -eNoMem) :
    ({ s with fs := fs, returned := r :: s.returned } : OpenSys).Sound where
  entry i hi := by
    have hi' := h.entry i hi
    constructor
    all_goals simp only [hfs]
    exacts [hi'.fd, hi'.slot, hi'.lt, hi'.unused, hi'.used]
  documented := by
    intro r' hr'
    rcases List.mem_cons.mp hr' with rfl | hr'
    · exact .inr hr
    · exact h.documented r' hr'
  unique := by
    have hneg : ¬0 ≤ r := by
      rcases hr with rfl | rfl <;> decide
    simp only [List.filter_cons, hneg, decide_false, Bool.false_eq_true, if_false]
    exact h.unique
  old id hid := by
    simp only [hfs]
    refine h.old id ((List.mem_cons.mp hid).resolve_left ?_)
    rcases hr with rfl | rfl
    · unfold eMaxOpen
      omega
    · unfold eNoMem
      omega

theorem Sound.took (h : s.Sound) {fs : Fs} {i : Nat} (hi : i < maxOpen) (hfree : s.fs.refs i ≤ 1)
    (hlt : (s.fs.opentab i).fileid + maxOpen < 2 ^ 31)
    (hopentab : fs.opentab = update s.fs.opentab i
      { s.fs.opentab i with fileid := (s.fs.opentab i).fileid + maxOpen })
    (hpageref : fs.pageref = update s.fs.pageref (s.fs.opentab i).fd 1) :
    ({ s with
      fs := fs, returned := ((s.fs.opentab i).fileid + maxOpen : Nat) :: s.returned
      latest := update s.latest i (some (fs.opentab i).fileid) } : OpenSys).Sound := by
  have hentry := h.entry i hi
  have hself : fs.opentab i = { s.fs.opentab i with fileid := (s.fs.opentab i).fileid + maxOpen } := by
    rw [hopentab, update_self]
  have hother {j : Nat} (hji : j ≠ i) : fs.opentab j = s.fs.opentab j := by
    rw [hopentab, update_of_ne hji]
  have hslot : ((s.fs.opentab i).fileid + maxOpen) % maxOpen = i := by
    rw [Nat.add_mod_right, hentry.slot]
  have hclients : s.clients i = 0 := by
    by_contra hne
    have := h.latest_of_refs hi (.inr (Nat.pos_of_ne_zero hne))
    omega
  have hle (j : Nat) : (s.fs.opentab j).fileid ≤ (fs.opentab j).fileid := by
    by_cases hji : j = i
    · rw [hji, hself]
      exact Nat.le_add_right _ _
    · rw [hother hji]
  constructor
  case entry =>
    intro j hj
    by_cases hji : j = i
    · subst hji
      constructor
      all_goals simp only [View.refs, hself, hpageref, update_self, hclients]
      exacts [hentry.fd, hslot, hlt, nofun, fun id hid => ⟨(Option.some.inj hid).symm, by decide⟩]
    · have hj' := h.entry j hj
      have hne : (s.fs.opentab j).fd ≠ (s.fs.opentab i).fd := by
        rw [hj'.fd, hentry.fd]
        exact fd_ne hji
      constructor
      all_goals
        simp only [View.refs, hother hji, hpageref, update_of_ne hji,
          update_of_ne hne]
      exacts [hj'.fd, hj'.slot, hj'.lt, hj'.unused, hj'.used]
  case documented =>
    intro r hr
    rcases List.mem_cons.mp hr with rfl | hr
    · exact .inl (Int.natCast_nonneg _)
    · exact h.documented r hr
  case unique =>
    simp only [List.filter_cons, Int.natCast_nonneg, decide_true, if_true]
    refine List.nodup_cons.mpr ⟨fun hmem => ?_, h.unique⟩
    have hold := h.old _ (List.mem_filter.mp hmem).1
    rw [hslot] at hold
    have : 0 < maxOpen := by decide
    omega
  case old =>
    intro id hid
    rcases List.mem_cons.mp hid with hid | hid
    · obtain rfl := Int.natCast_inj.mp hid
      rw [hslot, hself]
    · exact le_trans (h.old id hid) (hle _)

theorem Sound.exec (h : s.Sound) {event : OpenEvent} (hallowed : s.Unwrapped event)
    (hstep : s.exec event = some s') : s'.Sound := by
  cases event with
  | alloc memory =>
      obtain ⟨r, fs, hrun, halloc⟩ : ∃ r fs, openfileAlloc memory s.fs = .ok r fs ∧
        Allocates memory s.fs.toView r fs.toView := openfileAlloc_spec h.fileVa_le
      generalize hview : fs.toView = v at halloc
      cases halloc with
      | maxOpen hfull =>
          simp only [OpenSys.exec, hrun, Option.some.injEq] at hstep
          exact hstep ▸ h.failed hview (.inl rfl)
      | noMem hmemory =>
          simp only [OpenSys.exec, hrun, Option.some.injEq] at hstep
          exact hstep ▸ h.failed hview (.inr rfl)
      | take hfirst hopentab hpageref =>
          rename_i i
          have hlt : (s.fs.opentab i).fileid + maxOpen < 2 ^ 31 :=
            hallowed i ⟨hfirst.lt, hfirst.free, hfirst.first⟩
          have hnext : s.fs.nextId i = (s.fs.opentab i).fileid + maxOpen :=
            Nat.mod_eq_of_lt (by omega)
          rw [hnext] at hrun hopentab
          rw [int32_natCast hlt] at hrun
          simp only [OpenSys.exec, hrun, Option.some.injEq] at hstep
          subst hview
          exact hstep ▸ h.took hfirst.lt hfirst.free hlt hopentab hpageref
  | map i =>
      simp only [OpenSys.exec, Option.ite_none_right_eq_some, Option.some.injEq] at hstep
      obtain ⟨⟨hi, hrefs⟩, rfl⟩ := hstep
      obtain ⟨hused, heq, -⟩ := h.latest_of_refs hi (.inl hrefs)
      have hroom : s.clients i + 2 < 2 ^ 16 := hallowed
      exact h.share hi (by omega) hused
  | unmap i =>
      simp only [OpenSys.exec, Option.ite_none_right_eq_some, Option.some.injEq] at hstep
      obtain ⟨⟨hi, hclients⟩, rfl⟩ := hstep
      obtain ⟨hused, heq, hlt⟩ := h.latest_of_refs hi (.inr hclients)
      exact h.share hi (by omega) hused

theorem Starts.sound (h : s.Starts) : s.Sound where
  entry i hi := by
    obtain ⟨fs, hfs⟩ := h.init
    have hopentab : s.fs.opentab i = { fs.opentab i with fileid := i, fd := fileVa + 4096 * i } := by
      rw [← (EStateM.Result.ok.inj hfs).2]
      exact if_pos hi
    constructor
    all_goals try simp only [hopentab]
    · exact Nat.mod_eq_of_lt hi
    · exact lt_trans hi (by decide)
    · exact fun _ => ⟨h.unmapped i hi, h.clients i⟩
    · intro id hid
      rw [h.latest] at hid
      cases hid
  documented r hr := by
    rw [h.returned] at hr
    cases hr
  unique := by
    rw [h.returned]
    exact List.nodup_nil
  old id hid := by
    rw [h.returned] at hid
    cases hid

/-- In every run in which no id outgrows an `int` and no reference count overflows, ids are unique and
stale ones are rejected. -/
theorem fileids_unique (s : OpenSys) (hreach : Library.Reachable Starts Step Unwrapped s) :
    s.IdsRight :=
  (hreach.invariant (fun _ => Starts.sound) fun _ _ _ h hallowed hstep =>
    Sound.exec h hallowed hstep).idsRight

def booted : OpenSys where
  fs :=
    { mem := fun _ => 0
      trace := []
      opentab := fun i => if i < maxOpen then ⟨i, 0, fileVa + 4096 * i⟩ else ⟨0, 0, 0⟩
      pageref := fun _ => 0
      cache := ⟨fun _ => false, fun _ => false, fun _ => 0, []⟩ }
  clients _ := 0
  latest _ := none
  returned := []

theorem starts_booted : booted.Starts where
  init := ⟨{ booted.fs with opentab := fun _ => ⟨0, 0, 0⟩ }, rfl⟩
  unmapped _ _ := rfl
  clients _ := rfl
  latest _ := rfl
  returned := rfl

theorem unwrapped_booted (memory : Bool) : booted.Unwrapped (.alloc memory) := by
  rintro i ⟨hi, -, -⟩
  have hid : (booted.fs.opentab i).fileid = i := by
    show (if i < maxOpen then (⟨i, 0, fileVa + 4096 * i⟩ : OpenFile) else ⟨0, 0, 0⟩).fileid = i
    rw [if_pos hi]
  rw [hid]
  exact lt_trans (Nat.add_lt_add_right hi _) (by decide)

theorem exec_alloc_zero (hfd : ∀ i < maxOpen, fileVa ≤ (s.fs.opentab i).fd)
    (hfree : s.fs.refs 0 ≤ 1) : ∃ s', s.exec (.alloc true) = some s' ∧
      (∀ i < maxOpen, fileVa ≤ (s'.fs.opentab i).fd) ∧ s'.fs.refs 0 = 1 ∧
      (s'.fs.opentab 0).fileid = s.fs.nextId 0 ∧ s'.returned = int32 (s.fs.nextId 0) :: s.returned ∧
      s'.clients = s.clients := by
  obtain ⟨r, fs, hrun, halloc⟩ : ∃ r fs, openfileAlloc true s.fs = .ok r fs ∧
    Allocates true s.fs.toView r fs.toView := openfileAlloc_spec hfd
  generalize hview : fs.toView = v at halloc
  cases halloc with
  | maxOpen hfull =>
      have := hfull 0 (by decide)
      omega
  | noMem hmemory => cases hmemory
  | take hfirst hopentab hpageref =>
      rename_i i
      have hi : i = 0 := by
        by_contra hne
        have := hfirst.first 0 (Nat.pos_of_ne_zero hne)
        omega
      subst hi hview
      have hexec : s.exec (.alloc true) = some { s with
          fs := fs, returned := int32 (s.fs.nextId 0) :: s.returned
          latest := update s.latest 0 (some (fs.opentab 0).fileid) } := by
        simp only [OpenSys.exec, hrun]
      refine ⟨_, hexec, fun i hi => ?_, ?_, ?_, rfl, rfl⟩
      · simp only [hopentab]
        by_cases hzero : i = 0
        · rw [hzero, update_self]
          exact hfd 0 (by decide)
        · rw [update_of_ne hzero]
          exact hfd i hi
      · simp only [View.refs, hopentab, hpageref, update_self]
      · simp only [hopentab, update_self]

theorem fileids_unique_opened : ∃ s : OpenSys, s.returned = [1024] ∧ s.clients 0 = 1 ∧ s.IdsRight := by
  obtain ⟨s, halloc, -, hrefs, -, hreturned, hclients⟩ :=
    exec_alloc_zero starts_booted.sound.fileVa_le (Nat.zero_le 1)
  have hzero : s.clients 0 = 0 := by rw [hclients]; rfl
  have hmap : s.exec (.map 0) = some (s.share 0 1 2) := by
    simp only [OpenSys.exec, hrefs, hzero]
    rfl
  have hroom : s.Unwrapped (.map 0) := by
    show s.clients 0 + 2 < 2 ^ 16
    rw [hzero]
    decide
  have hreach : Library.Reachable Starts Step Unwrapped (s.share 0 1 2) :=
    .next (.next (.start starts_booted) (unwrapped_booted true) halloc) hroom hmap
  have hid : s.returned = [1024] := by
    rw [hreturned]
    decide
  exact ⟨s.share 0 1 2, hid, rfl, fileids_unique _ hreach⟩

theorem exists_allocs (n : Nat) : ∃ s : OpenSys,
    Library.Reachable Starts Step (fun _ _ => True) s ∧
    (∀ i < maxOpen, fileVa ≤ (s.fs.opentab i).fd) ∧ s.fs.refs 0 ≤ 1 ∧
    (s.fs.opentab 0).fileid = maxOpen * n % 2 ^ 32 := by
  induction n with
  | zero =>
      exact ⟨booted, .start starts_booted, starts_booted.sound.fileVa_le, Nat.zero_le _, rfl⟩
  | succ n ih =>
      obtain ⟨s, hreach, hfd, hfree, hid⟩ := ih
      obtain ⟨s', halloc, hfd', hrefs, hid', -⟩ := exec_alloc_zero hfd hfree
      refine ⟨s', .next hreach trivial halloc, hfd', hrefs.le, ?_⟩
      rw [hid', View.nextId, hid, Nat.mod_add_mod, Nat.mul_succ]

/-- The `2^21`st use of one entry returns a negative number that is no error code. -/
theorem fileid_negative : ∃ s : OpenSys, Library.Reachable Starts Step (fun _ _ => True) s ∧
    -2 ^ 31 ∈ s.returned ∧ ¬s.IdsRight := by
  obtain ⟨s, hreach, hfd, hfree, hid⟩ := exists_allocs (2 ^ 21 - 1)
  obtain ⟨s', halloc, -, -, -, hreturned, -⟩ := exec_alloc_zero hfd hfree
  have hmem : -2 ^ 31 ∈ s'.returned := by
    have hnext : s.fs.nextId 0 = 2 ^ 31 := by
      rw [View.nextId, hid]
      decide
    rw [hreturned, hnext]
    exact List.mem_cons_self
  refine ⟨s', .next hreach trivial halloc, hmem, fun hright => ?_⟩
  have := hright.documented _ hmem
  revert this
  decide

end OpenSys

end Fs

end ZynexOS
