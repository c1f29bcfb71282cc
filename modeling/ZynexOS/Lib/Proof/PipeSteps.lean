import ZynexOS.Lib.Proof.PipeTables

/-!
# Steps of processes with a pipe

A round of `_pipeisclosed` in which the process was not interrupted has read both counts of one state.
-/

namespace ZynexOS

open Library Function

/-! ### Where the processes are -/

def NoPipe (t : Nat → Option Page) : Prop := ∀ pn p, t pn = some p → ¬p.OfPipe

def AfterClose.Ok (t : Nat → Option Page) (fd : Int) : AfterClose → Prop
  | ret => True
  | dup old new => fd = new ∧ FdInRange old
  | closeAll i => fd = i ∧ ∀ j : Nat, j < i → ¬HasEnd t j

namespace FdPc

def lone : FdPc → Option Int
  | unmapData fd _ => some fd
  | dupFd _ new | dupMapFd _ new | dupErrFd new | dupErrData new => some new
  | _ => none

def Ok (t : Nat → Option Page) : FdPc → Prop
  | closeLookup fd after | fdClose fd after | unmapFd fd after => FdInRange fd ∧ after.Ok t fd
  | unmapData fd after | unmapFdAgain fd after => FdInRange fd ∧ after.Ok t fd ∧ ¬HasEnd t fd
  | dupLookup old new => FdInRange old ∧ FdInRange new
  | dupData old new | dupMapData old new => FdInRange old ∧ FdInRange new ∧ ¬HasEnd t new
  | dupFd old new | dupMapFd old new => FdInRange old ∧ FdInRange new ∧ ¬HasEnd t new ∧
      (t (dataPn (fdPn new)) = some .data ↔ HasEnd t old)
  | dupErrFd new | dupErrData new => FdInRange new ∧ ¬HasEnd t new
  | destroy => ∀ i : Nat, i < maxFd → ¬HasEnd t i
  | isClosedLookup fd | readRuns fd | refFd fd _ | readFdRef fd _ _ => FdInRange fd
  | refData fd _ _ | readDataRef fd _ _ _ | compare fd _ _ _ | returned fd _ => FdInRange fd
  | user | dead | embryo _ | forkCopy _ | forkRun _ => True

def simple : FdPc → Bool
  | dead | embryo _ | forkCopy _ | forkRun _ => false
  | refFd _ _ | readFdRef _ _ _ | refData _ _ _ | readDataRef _ _ _ _ | compare _ _ _ _ => false
  | returned _ _ => false
  | _ => true

end FdPc

namespace FdSys

def Within (s : FdSys) (e : EnvSlot) (start k : Nat) : Prop :=
  start + k ≤ s.runs e ∧ s.runs e < start + k + 2 ^ 32

def Undisturbed (s : FdSys) (e : EnvSlot) (start k : Nat) : Prop := e = s.cur ∧ s.runs e = start + k

end FdSys

def FdPc.RoundOk (s : FdSys) (e : EnvSlot) : FdPc → Prop
  | refFd _ start => s.Within e start 0
  | readFdRef fd start pte => s.Within e start 1 ∧ pte = s.table e (fdPn fd)
  | refData fd start a => s.Within e start 1 ∧
      (s.Undisturbed e start 1 → a = s.pageref (s.table e (fdPn fd)))
  | readDataRef fd start a pte => s.Within e start 2 ∧
      (s.Undisturbed e start 2 → a = s.pageref (s.table e (fdPn fd))) ∧
      pte = s.table e (dataPn (fdPn fd))
  | compare fd start a b => s.Within e start 2 ∧
      (s.Undisturbed e start 2 → a = s.pageref (s.table e (fdPn fd)) ∧
        b = s.pageref (s.table e (dataPn (fdPn fd))))
  | _ => True

namespace FdSys

def OtherGone (s : FdSys) (e : EnvSlot) (fd : Int) : Prop :=
  (s.table e (fdPn fd) = some .readFd → s.Gone .writeFd) ∧
    (s.table e (fdPn fd) = some .writeFd → s.Gone .readFd)

/-- What has to hold if process `e`, at `pc`, is in `fork`, has been freed or has been told that the pipe
is closed. -/
structure Settled (s : FdSys) (e : EnvSlot) (pc : FdPc) : Prop where
  child : ∀ c, pc = .forkCopy c ∨ pc = .forkRun c → s.pc c = .embryo e
  new : ∀ c, pc = .forkCopy c → NoPipe (s.table c)
  dead : pc = .dead → NoPipe (s.table e)
  closed : ∀ fd, pc = .returned fd true → s.OtherGone e fd

structure Proc (s : FdSys) (e : EnvSlot) (pc : FdPc) : Prop extends s.Settled e pc where
  placed : Placed (s.table e) pc.lone
  ok : pc.Ok (s.table e)
  round : pc.RoundOk s e

structure Sound (s : FdSys) : Prop where
  counted : s.Counted
  proc : ∀ e, s.Proc e (s.pc e)

end FdSys

section Pc

variable {t : Nat → Option Page} {pc : FdPc} {fd : Int} {after : AfterClose}

theorem FdPc.lone_of_not_changing (hpc : ¬pc.Changing) : pc.lone = none := by
  cases pc <;> first | rfl | exact absurd trivial hpc

theorem FdPc.roundOk_of_simple {s : FdSys} {e : EnvSlot} (hsimple : pc.simple) : pc.RoundOk s e := by
  cases pc <;> trivial

theorem simple_closeAllFrom (i : Nat) : (closeAllFrom i).simple := by
  unfold closeAllFrom
  split <;> rfl

theorem AfterClose.simple_pc (after : AfterClose) : after.pc.simple := by
  cases after with
  | closeAll i => exact simple_closeAllFrom _
  | _ => rfl

theorem lone_closeAllFrom (i : Nat) : (closeAllFrom i).lone = none := by
  unfold closeAllFrom
  split <;> rfl

theorem AfterClose.lone_pc (after : AfterClose) : after.pc.lone = none := by
  cases after with
  | closeAll i => exact lone_closeAllFrom _
  | _ => rfl

theorem ok_closeAllFrom {i : Nat} (hclosed : ∀ j : Nat, j < i → ¬HasEnd t j) :
    (closeAllFrom i).Ok t := by
  unfold closeAllFrom
  split
  · rename_i hi
    exact ⟨fdInRange_natCast hi, rfl, hclosed⟩
  · rename_i hi
    exact fun j hj => hclosed j (by omega)

theorem AfterClose.Ok.ok_pc (h : after.Ok t fd) (hfd : FdInRange fd) (hnot : ¬HasEnd t fd) :
    after.pc.Ok t := by
  cases after with
  | ret => trivial
  | dup old new =>
      obtain ⟨rfl, hold⟩ := h
      exact ⟨hold, hfd, hnot⟩
  | closeAll i =>
      obtain ⟨rfl, hclosed⟩ := h
      refine ok_closeAllFrom fun j hj => ?_
      rcases Nat.lt_succ_iff_lt_or_eq.mp hj with hlt | rfl
      · exact hclosed j hlt
      · exact hnot

theorem AfterClose.Ok.mono {t' : Nat → Option Page} (h : after.Ok t fd)
    (hsub : ∀ fd, FdInRange fd → HasEnd t' fd → HasEnd t fd) (hfd : FdInRange fd) : after.Ok t' fd := by
  cases after with
  | ret => trivial
  | dup old new => exact h
  | closeAll i =>
      obtain ⟨rfl, hclosed⟩ := h
      refine ⟨rfl, fun j hj hend => hclosed j hj (hsub j ?_ hend)⟩
      obtain ⟨-, hlt⟩ := hfd
      exact fdInRange_natCast (by omega)

end Pc

namespace FdSys

variable {s s' : FdSys} {e : EnvSlot} {pc : FdPc} {pn : Nat}

/-! ### Steps of one process -/

theorem roundOk_congr (h : pc.RoundOk s e) (hcur : e = s'.cur → e = s.cur ∧ s'.refs = s.refs)
    (htable : s'.table e = s.table e) (hruns : s'.runs e = s.runs e) : pc.RoundOk s' e := by
  have hwithin (start k : Nat) : s'.Within e start k ↔ s.Within e start k := by
    rw [Within, Within, hruns]
  have hcalm {start k : Nat} (hu : s'.Undisturbed e start k) :
      s.Undisturbed e start k ∧ ∀ pn, s'.pageref (s'.table e pn) = s.pageref (s.table e pn) := by
    obtain ⟨he, hrefs⟩ := hcur hu.1
    refine ⟨⟨he, hruns ▸ hu.2⟩, fun pn => ?_⟩
    rw [htable]
    cases s.table e pn with
    | none => rfl
    | some p => exact congrFun hrefs p
  cases pc with
  | refFd fd start => exact (hwithin _ _).mpr h
  | readFdRef fd start pte => exact ⟨(hwithin _ _).mpr h.1, htable ▸ h.2⟩
  | refData fd start a =>
      refine ⟨(hwithin _ _).mpr h.1, fun hu => ?_⟩
      rw [(hcalm hu).2]
      exact h.2 (hcalm hu).1
  | readDataRef fd start a pte =>
      refine ⟨(hwithin _ _).mpr h.1, fun hu => ?_, htable ▸ h.2.2⟩
      rw [(hcalm hu).2]
      exact h.2.1 (hcalm hu).1
  | compare fd start a b =>
      refine ⟨(hwithin _ _).mpr h.1, fun hu => ?_⟩
      rw [(hcalm hu).2, (hcalm hu).2]
      exact h.2 (hcalm hu).1
  | _ => trivial

theorem OtherGone.mono {fd : Int} (h : s.OtherGone e fd) (htable : s'.table e = s.table e)
    (hgone : ∀ p : Page, p.IsEnd → s.Gone p → s'.Gone p) : s'.OtherGone e fd := by
  rw [OtherGone, htable]
  exact ⟨fun hread => hgone _ (.inr rfl) (h.1 hread), fun hwrite => hgone _ (.inl rfl) (h.2 hwrite)⟩

theorem settled_of_simple (hsimple : pc.simple) : s.Settled e pc := by
  constructor
  · rintro c (rfl | rfl) <;> cases hsimple
  · rintro c rfl
    cases hsimple
  · rintro rfl
    cases hsimple
  · rintro fd rfl
    cases hsimple

theorem Proc.congr (h : s.Proc e pc) (htable : s'.table e = s.table e) (hround : pc.RoundOk s' e)
    (hchild : ∀ c, pc = .forkCopy c ∨ pc = .forkRun c → s'.pc c = s.pc c)
    (hnew : ∀ c, pc = .forkCopy c → s'.table c = s.table c)
    (hgone : ∀ p : Page, p.IsEnd → s.Gone p → s'.Gone p) : s'.Proc e pc where
  child c hc := (hchild c hc).trans (h.child c hc)
  new c hc := by
    rw [hnew c hc]
    exact h.new c hc
  dead hdead := by
    rw [htable]
    exact h.dead hdead
  closed fd hret := (h.closed fd hret).mono htable hgone
  placed := by
    rw [htable]
    exact h.placed
  ok := by
    rw [htable]
    exact h.ok
  round := hround

theorem ne_cur_of_embryo {parent : EnvSlot} (hrunnable : (s.pc s.cur).runnable)
    (he : s.pc e = .embryo parent) : e ≠ s.cur := by
  rintro rfl
  rw [he] at hrunnable
  cases hrunnable

section

variable (h : s.Sound) (hrunnable : (s.pc s.cur).runnable)
include h hrunnable

theorem Sound.own (hcur : s'.cur = s.cur)
    (htable : ∀ e, e ≠ s.cur → s'.table e = s.table e) (hpc : s'.pc = update s.pc s.cur pc)
    (hruns : ∀ e, e ≠ s.cur → s'.runs e = s.runs e)
    (hgone : ∀ p : Page, p.IsEnd → s.Gone p → s'.Gone p) (hcounted : s'.Counted)
    (hproc : s'.Proc s.cur pc) : s'.Sound := by
  have hother (e : EnvSlot) (hne : e ≠ s.cur) : s'.pc e = s.pc e := by
    rw [hpc, update_of_ne hne]
  refine ⟨hcounted, fun e => ?_⟩
  rcases eq_or_ne e s.cur with rfl | hne
  · rwa [hpc, update_self]
  · have hproc := h.proc e
    have hchild (c : EnvSlot) (hc : s.pc e = .forkCopy c ∨ s.pc e = .forkRun c) : c ≠ s.cur :=
      ne_cur_of_embryo hrunnable (hproc.child c hc)
    rw [hother e hne]
    refine hproc.congr (htable e hne) ?_ (fun c hc => hother c (hchild c hc))
      (fun c hc => htable c (hchild c (.inl hc))) hgone
    exact roundOk_congr hproc.round (fun he => absurd (he.trans hcur) hne) (htable e hne) (hruns e hne)

theorem Sound.same (htable : s'.table = s.table) (hrefs : s'.refs = s.refs) (hcur : s'.cur = s.cur)
    (hpc : s'.pc = update s.pc s.cur pc)
    (hruns : ∀ e, e ≠ s.cur → s'.runs e = s.runs e) (hproc : s'.Proc s.cur pc) : s'.Sound := by
  refine h.own hrunnable hcur (fun e _ => by rw [htable]) hpc hruns (fun p _ hp => ?_) (fun p hp => ?_)
    hproc
  · rw [Gone, htable]
    exact hp
  · rw [hrefs, total, htable]
    exact h.counted p hp

theorem Sound.sysret_of (hproc : (s.sysret pc).Proc s.cur pc) : (s.sysret pc).Sound :=
  h.same hrunnable rfl rfl rfl rfl (fun _ hne => update_of_ne hne ..) hproc

theorem Sound.goto_of (hproc : (s.goto pc).Proc s.cur pc) : (s.goto pc).Sound :=
  h.same hrunnable rfl rfl rfl rfl (fun _ _ => rfl) hproc

end

theorem Sound.running (h : s.Sound) (hpc : s.pc s.cur = pc) (hrunnable : pc.runnable) :
    (s.pc s.cur).runnable ∧ Placed (s.table s.cur) pc.lone ∧ pc.Ok (s.table s.cur) := by
  subst hpc
  exact ⟨hrunnable, (h.proc s.cur).placed, (h.proc s.cur).ok⟩

theorem proc_of_simple (hsimple : pc.simple) (hplaced : Placed (s.table e) pc.lone)
    (hok : pc.Ok (s.table e)) : s.Proc e pc :=
  ⟨settled_of_simple hsimple, hplaced, hok, FdPc.roundOk_of_simple hsimple⟩

section

variable (h : s.Sound) (hrunnable : (s.pc s.cur).runnable) (hsimple : pc.simple)
include h hrunnable hsimple

theorem Sound.sysret
    (hplaced : Placed (s.table s.cur) pc.lone) (hok : pc.Ok (s.table s.cur)) : (s.sysret pc).Sound :=
  h.sysret_of hrunnable (proc_of_simple hsimple hplaced hok)

theorem Sound.goto
    (hplaced : Placed (s.table s.cur) pc.lone) (hok : pc.Ok (s.table s.cur)) : (s.goto pc).Sound :=
  h.goto_of hrunnable (proc_of_simple hsimple hplaced hok)

theorem Sound.remap {r : FdSys} {entry : Option Page}
    (htable : r.table = update s.table s.cur (update (s.table s.cur) pn entry))
    (hpc : r.pc = s.pc) (hruns : r.runs = s.runs) (hcur : r.cur = s.cur) (hcounted : r.Counted)
    (hentry : ∀ p, entry = some p → ∃ src, s.table s.cur src = some p)
    (hplaced : Placed (update (s.table s.cur) pn entry) pc.lone)
    (hok : pc.Ok (update (s.table s.cur) pn entry)) : (r.sysret pc).Sound := by
  have hself : r.table s.cur = update (s.table s.cur) pn entry := by
    rw [htable, update_self]
  have hother (e : EnvSlot) (hne : e ≠ s.cur) : r.table e = s.table e := by
    rw [htable, update_of_ne hne]
  have hgoes : (r.sysret pc).pc = update s.pc s.cur pc := by
    rw [FdSys.sysret, FdSys.goto, hpc, hcur]
  refine h.own hrunnable hcur hother hgoes (fun e hne => ?_) (fun p _ hp e pn' hpn => ?_) hcounted ?_
  · rw [FdSys.sysret, hruns, hcur]
    exact update_of_ne hne ..
  · change r.table e pn' = some p at hpn
    rcases eq_or_ne e s.cur with rfl | hne
    · rw [hself] at hpn
      rcases eq_or_ne pn' pn with rfl | hpn'
      · rw [update_self] at hpn
        obtain ⟨src, hsrc⟩ := hentry p hpn
        exact hp _ src hsrc
      · rw [update_of_ne hpn'] at hpn
        exact hp _ pn' hpn
    · rw [hother e hne] at hpn
      exact hp e pn' hpn
  · rw [← hself] at hplaced hok
    exact proc_of_simple hsimple hplaced hok

theorem Sound.unmap
    (hwindow : InWindow pn) (hplaced : Placed (update (s.table s.cur) pn none) pc.lone)
    (hok : pc.Ok (update (s.table s.cur) pn none)) :
    ((s.pageRemove s.cur pn).sysret pc).Sound :=
  h.remap hrunnable hsimple (s.table_pageRemove s.cur pn) pc_pageRemove runs_pageRemove cur_pageRemove
    (h.counted.pageRemove fun _ _ _ => hwindow) nofun hplaced hok

theorem Sound.map {src : Nat} {q : Page} (hsrc : s.table s.cur src = some q) (hwindow : InWindow pn)
    (hplaced : Placed (update (s.table s.cur) pn (some q)) pc.lone)
    (hok : pc.Ok (update (s.table s.cur) pn (some q))) :
    ((s.pageInsert s.cur pn q).sysret pc).Sound :=
  h.remap hrunnable hsimple (s.table_pageInsert s.cur pn q) pc_pageInsert runs_pageInsert
    cur_pageInsert (h.counted.pageInsert hwindow q) (fun _ hp => ⟨src, hsrc.trans hp⟩) hplaced hok

end

/-! ### `close` -/

section Close

variable {fd : Int} {after : AfterClose}

theorem Sound.closeLookup (h : s.Sound) (hpc : s.pc s.cur = .closeLookup fd after) :
    (s.sysret (if s.pte (fdPn fd) = none then after.pc else .fdClose fd after)).Sound := by
  obtain ⟨hrunnable, hplaced, hfd, hafter⟩ := h.running hpc rfl
  split
  · rename_i hnone
    refine h.sysret hrunnable after.simple_pc ?_ (hafter.ok_pc hfd (not_hasEnd_of_none hnone))
    rwa [after.lone_pc]
  · exact h.sysret hrunnable rfl hplaced ⟨hfd, hafter⟩

theorem Sound.fdClose (h : s.Sound) (hpc : s.pc s.cur = .fdClose fd after) :
    (s.sysret (match s.pte (fdPn fd) with
      | none => after.pc
      | some p => if p.isPipe then .unmapFd fd after else .unmapFdAgain fd after)).Sound := by
  obtain ⟨hrunnable, hplaced, hfd, hafter⟩ := h.running hpc rfl
  split
  · rename_i hnone
    refine h.sysret hrunnable after.simple_pc ?_ (hafter.ok_pc hfd (not_hasEnd_of_none hnone))
    rwa [after.lone_pc]
  · rename_i p hp
    split
    · exact h.sysret hrunnable rfl hplaced ⟨hfd, hafter⟩
    · rename_i hpipe
      refine h.sysret hrunnable rfl hplaced ⟨hfd, hafter, ?_⟩
      rintro ⟨q, hq, hend⟩
      cases hp.symm.trans hq
      rcases hend with rfl | rfl <;> exact hpipe rfl

theorem Sound.unmapFd (h : s.Sound) (hpc : s.pc s.cur = .unmapFd fd after) :
    ((s.pageRemove s.cur (fdPn fd)).sysret (.unmapData fd after)).Sound := by
  obtain ⟨hrunnable, hplaced, hfd, hafter⟩ := h.running hpc rfl
  exact h.unmap hrunnable rfl (inWindow_fdPn hfd) (Placed.removeFd hplaced hfd)
    ⟨hfd, hafter.mono (fun _ hfd' => hasEnd_of_remove hfd hfd') hfd, not_hasEnd_remove⟩

theorem Sound.unmapData (h : s.Sound) (hpc : s.pc s.cur = .unmapData fd after) :
    ((s.pageRemove s.cur (dataPn (fdPn fd))).sysret (.unmapFdAgain fd after)).Sound := by
  obtain ⟨hrunnable, hplaced, hfd, hafter, hnot⟩ := h.running hpc rfl
  refine h.unmap hrunnable rfl (inWindow_dataPn hfd) (Placed.removeData hplaced hfd hnot) ⟨hfd, ?_, ?_⟩
  · exact hafter.mono (fun _ hfd' => (hasEnd_update_data hfd hfd').mp) hfd
  · rwa [hasEnd_update_data hfd hfd]

theorem Sound.unmapFdAgain (h : s.Sound) (hpc : s.pc s.cur = .unmapFdAgain fd after) :
    ((s.pageRemove s.cur (fdPn fd)).sysret after.pc).Sound := by
  obtain ⟨hrunnable, hplaced, hfd, hafter, hnot⟩ := h.running hpc rfl
  refine h.unmap hrunnable after.simple_pc (inWindow_fdPn hfd) ?_ ?_
  · rw [after.lone_pc]
    exact Placed.removeFd_of_not_hasEnd hplaced hfd hnot
  · exact (hafter.mono (fun _ hfd' => hasEnd_of_remove hfd hfd') hfd).ok_pc hfd not_hasEnd_remove

end Close

/-! ### `dup` -/

section Dup

variable {old new : Int}

theorem Sound.dupLookup (h : s.Sound) (hpc : s.pc s.cur = .dupLookup old new) :
    (s.sysret (if s.pte (fdPn old) = none then .user else closePc new (.dup old new))).Sound := by
  obtain ⟨hrunnable, hplaced, hold, hnew⟩ := h.running hpc rfl
  split
  · exact h.sysret hrunnable rfl hplaced trivial
  · rw [closePc, if_pos hnew]
    exact h.sysret hrunnable rfl hplaced ⟨hnew, rfl, hold⟩

theorem Sound.dupData (h : s.Sound) (hpc : s.pc s.cur = .dupData old new) :
    (s.sysret (if s.pte (dataPn (fdPn old)) = none then .dupFd old new
      else .dupMapData old new)).Sound := by
  obtain ⟨hrunnable, hplaced, hold, hnew, hnot⟩ := h.running hpc rfl
  split
  · rename_i hnone
    refine h.sysret hrunnable rfl (Placed.mono hplaced) ⟨hold, hnew, hnot, ?_⟩
    -- neither descriptor is an end
    constructor
    · exact fun hdata => absurd (hplaced.single new hnew nofun hdata) hnot
    · intro hend
      have hdata := hplaced.paired old hold hend
      rw [FdSys.pte, hdata] at hnone
      cases hnone
  · exact h.sysret hrunnable rfl hplaced ⟨hold, hnew, hnot⟩

theorem Sound.dupMapData {p : Page} (h : s.Sound) (hpc : s.pc s.cur = .dupMapData old new)
    (hp : s.pte (dataPn (fdPn old)) = some p) :
    ((s.pageInsert s.cur (dataPn (fdPn new)) p).sysret (.dupFd old new)).Sound := by
  obtain ⟨hrunnable, hplaced, hold, hnew, hnot⟩ := h.running hpc rfl
  refine h.map hrunnable rfl hp (inWindow_dataPn hnew)
    (Placed.insertData hplaced hnew hnot (hplaced.not_isEnd_data hold hp)) ⟨hold, hnew, ?_, ?_⟩
  · rwa [hasEnd_update_data hnew hnew]
  · rw [update_self, hasEnd_update_data hnew hold, ← hp]
    exact ⟨hplaced.single old hold nofun, hplaced.paired old hold⟩

theorem Sound.dupMapFd {p : Page} (h : s.Sound) (hpc : s.pc s.cur = .dupMapFd old new)
    (hp : s.pte (fdPn old) = some p) :
    ((s.pageInsert s.cur (fdPn new) p).sysret .user).Sound := by
  obtain ⟨hrunnable, hplaced, hold, hnew, hnot, hpair⟩ := h.running hpc rfl
  have hend : HasEnd (s.table s.cur) old ↔ p.IsEnd := by
    constructor
    · rintro ⟨q, hq, hend⟩
      cases hp.symm.trans hq
      exact hend
    · exact fun hend => ⟨p, hp, hend⟩
  have hdata : p ≠ .data := by
    rintro rfl
    exact hplaced.fd_ne_data hold hp
  exact h.map hrunnable rfl hp (inWindow_fdPn hnew)
    (Placed.insertFd hplaced hnew hdata (hpair.trans hend)) trivial

theorem Sound.dupErrFd (h : s.Sound) (hpc : s.pc s.cur = .dupErrFd new) :
    ((s.pageRemove s.cur (fdPn new)).sysret (.dupErrData new)).Sound := by
  obtain ⟨hrunnable, hplaced, hnew, hnot⟩ := h.running hpc rfl
  exact h.unmap hrunnable rfl (inWindow_fdPn hnew) (hplaced.removeFd_of_not_hasEnd hnew hnot)
    ⟨hnew, not_hasEnd_remove⟩

theorem Sound.dupErrData (h : s.Sound) (hpc : s.pc s.cur = .dupErrData new) :
    ((s.pageRemove s.cur (dataPn (fdPn new))).sysret .user).Sound := by
  obtain ⟨hrunnable, hplaced, hnew, hnot⟩ := h.running hpc rfl
  exact h.unmap hrunnable rfl (inWindow_dataPn hnew) (Placed.removeData hplaced hnew hnot) trivial

end Dup

/-! ### `_pipeisclosed` -/

section Round

variable {fd : Int} {start a b : Nat} {pte : Option Page}

theorem Sound.readRuns (h : s.Sound) (hpc : s.pc s.cur = .readRuns fd) :
    (s.goto (.refFd fd (s.runs s.cur))).Sound := by
  obtain ⟨hrunnable, hplaced, hfd⟩ := h.running hpc rfl
  refine h.goto_of hrunnable ⟨⟨nofun, nofun, nofun, nofun⟩, hplaced, hfd, le_rfl, ?_⟩
  change s.runs s.cur < _
  omega

theorem runs_sysret (s : FdSys) (pc : FdPc) : (s.sysret pc).runs s.cur = s.runs s.cur + 1 :=
  update_self ..

theorem Within.sysret {k : Nat} (h : s.Within s.cur start k) :
    (s.sysret pc).Within s.cur start (k + 1) := by
  rw [Within, runs_sysret]
  obtain ⟨hle, hlt⟩ := h
  omega

theorem Undisturbed.of_sysret {k : Nat} (h : (s.sysret pc).Undisturbed s.cur start (k + 1)) :
    s.Undisturbed s.cur start k := by
  obtain ⟨-, hruns⟩ := h
  rw [runs_sysret] at hruns
  exact ⟨rfl, by omega⟩

theorem Sound.refFd (h : s.Sound) (hpc : s.pc s.cur = .refFd fd start) :
    (s.sysret (.readFdRef fd start (s.pte (fdPn fd)))).Sound := by
  obtain ⟨hrunnable, hplaced, hfd⟩ := h.running hpc rfl
  have hround := (h.proc s.cur).round
  rw [hpc] at hround
  exact h.sysret_of hrunnable
    ⟨⟨nofun, nofun, nofun, nofun⟩, hplaced, hfd, Within.sysret hround, rfl⟩

theorem Sound.readFdRef (h : s.Sound) (hpc : s.pc s.cur = .readFdRef fd start pte) :
    (s.goto (.refData fd start (s.pageref pte))).Sound := by
  obtain ⟨hrunnable, hplaced, hfd⟩ := h.running hpc rfl
  have hround := (h.proc s.cur).round
  rw [hpc] at hround
  obtain ⟨hwithin, hpte⟩ := hround
  exact h.goto_of hrunnable
    ⟨⟨nofun, nofun, nofun, nofun⟩, hplaced, hfd, hwithin, fun _ => congrArg s.pageref hpte⟩

theorem Sound.refData (h : s.Sound) (hpc : s.pc s.cur = .refData fd start a) :
    (s.sysret (.readDataRef fd start a (s.pte (dataPn (fdPn fd))))).Sound := by
  obtain ⟨hrunnable, hplaced, hfd⟩ := h.running hpc rfl
  have hround := (h.proc s.cur).round
  rw [hpc] at hround
  obtain ⟨hwithin, ha⟩ := hround
  exact h.sysret_of hrunnable ⟨⟨nofun, nofun, nofun, nofun⟩, hplaced, hfd, Within.sysret hwithin,
    fun hcalm => ha (Undisturbed.of_sysret hcalm), rfl⟩

theorem Sound.readDataRef (h : s.Sound) (hpc : s.pc s.cur = .readDataRef fd start a pte) :
    (s.goto (.compare fd start a (s.pageref pte))).Sound := by
  obtain ⟨hrunnable, hplaced, hfd⟩ := h.running hpc rfl
  have hround := (h.proc s.cur).round
  rw [hpc] at hround
  obtain ⟨hwithin, ha, hpte⟩ := hround
  exact h.goto_of hrunnable ⟨⟨nofun, nofun, nofun, nofun⟩, hplaced, hfd, hwithin,
    fun hcalm => ⟨ha hcalm, congrArg s.pageref hpte⟩⟩

theorem Within.undisturbed (h : s.Within s.cur start 2)
    (hruns : BitVec.ofNat 32 start = BitVec.ofNat 32 (s.runs s.cur) - 2) :
    s.Undisturbed s.cur start 2 := by
  obtain ⟨hle, hlt⟩ := h
  have hnat := congrArg BitVec.toNat hruns
  have htwo : (2 : BitVec 32).toNat = 2 := rfl
  simp only [BitVec.toNat_sub, BitVec.toNat_ofNat, htwo] at hnat
  exact ⟨rfl, by omega⟩

theorem Sound.otherGone (h : s.Sound) (hplaced : Placed (s.table s.cur) none) (hfd : FdInRange fd)
    (hsame : s.pageref (s.table s.cur (fdPn fd)) = s.pageref (s.table s.cur (dataPn (fdPn fd)))) :
    s.OtherGone s.cur fd := by
  have hall (e : EnvSlot) : ∃ lone, Placed (s.table e) lone := ⟨_, (h.proc e).placed⟩
  have hdata := h.counted.refs_eq hall (p := .data) (.inr rfl)
  have hread := h.counted.refs_eq hall (p := .readFd) (.inl (.inl rfl))
  have hwrite := h.counted.refs_eq hall (p := .writeFd) (.inl (.inr rfl))
  have hle := total_ends_le hall
  constructor
  · intro hend
    rw [hend, hplaced.paired fd hfd ⟨_, hend, .inl rfl⟩] at hsame
    simp only [pageref] at hsame
    exact gone_of_total_eq_zero hall (.inr rfl) (by omega)
  · intro hend
    rw [hend, hplaced.paired fd hfd ⟨_, hend, .inr rfl⟩] at hsame
    simp only [pageref] at hsame
    exact gone_of_total_eq_zero hall (.inl rfl) (by omega)

theorem Sound.compare (h : s.Sound) (hpc : s.pc s.cur = .compare fd start a b)
    (hruns : BitVec.ofNat 32 start = BitVec.ofNat 32 (s.runs s.cur) - 2) :
    (s.goto (.returned fd (a = b))).Sound := by
  obtain ⟨hrunnable, hplaced, hfd⟩ := h.running hpc rfl
  have hround := (h.proc s.cur).round
  rw [hpc] at hround
  obtain ⟨hwithin, hcounts⟩ := hround
  obtain ⟨ha, hb⟩ := hcounts (hwithin.undisturbed hruns)
  refine h.goto_of hrunnable ⟨⟨nofun, nofun, nofun, fun fd' hret => ?_⟩, hplaced, hfd, trivial⟩
  obtain ⟨rfl, hab⟩ : fd = fd' ∧ decide (a = b) = true := by simpa using hret
  rw [decide_eq_true_eq, ha, hb] at hab
  exact h.otherGone hplaced hfd hab

end Round

/-! ### `exit` -/

theorem noPipe_of_closed {t : Nat → Option Page} (hplaced : Placed t none)
    (hclosed : ∀ i : Nat, i < maxFd → ¬HasEnd t i) : NoPipe t := by
  intro pn p hp hpipe
  rcases hpipe with hend | rfl
  · obtain ⟨fd, hfd, rfl⟩ := hplaced.ends pn p hp hend
    obtain ⟨i, hi, rfl⟩ := hfd.exists_natCast
    exact hclosed i hi ⟨p, hp, hend⟩
  · obtain ⟨fd, hfd, rfl⟩ := hplaced.datas pn hp
    obtain ⟨i, hi, rfl⟩ := hfd.exists_natCast
    exact hclosed i hi (hplaced.single i hfd nofun hp)

theorem placed_of_noPipe {t : Nat → Option Page} (h : NoPipe t) (lone : Option Int) :
    Placed t lone where
  ends := fun pn p hp hend => absurd (.inl hend) (h pn p hp)
  datas := fun pn hp => absurd (.inr rfl) (h pn _ hp)
  paired := by
    rintro fd - ⟨p, hp, hend⟩
    exact absurd (.inl hend) (h _ p hp)
  single := fun fd _ _ hp => absurd (.inr rfl) (h _ _ hp)

structure Removes (s s' : FdSys) (e : EnvSlot) : Prop where
  table : ∀ e', e' ≠ e → s'.table e' = s.table e'
  entries : ∀ pn p, s'.table e pn = some p → s.table e pn = some p
  pc : s'.pc = s.pc
  runs : s'.runs = s.runs
  cur : s'.cur = s.cur
  counted : s'.Counted

theorem removes_foldl (pns : List Nat) (hcounted : s.Counted) (hno : NoPipe (s.table e)) :
    s.Removes (pns.foldl (fun s pn => s.pageRemove e pn) s) e := by
  induction pns generalizing s with
  | nil => exact ⟨fun _ _ => rfl, fun _ _ => id, rfl, rfl, rfl, hcounted⟩
  | cons pn pns ih =>
      have hentries (pn' : Nat) (p : Page) (hp : (s.pageRemove e pn).table e pn' = some p) :
          s.table e pn' = some p := by
        rw [table_pageRemove, update_self] at hp
        rcases eq_or_ne pn' pn with rfl | hne
        · simp at hp
        · rwa [update_of_ne hne] at hp
      have hrest := ih (hcounted.pageRemove fun p hp hpipe => absurd hpipe (hno pn p hp))
        fun pn' p hp => hno pn' p (hentries pn' p hp)
      refine ⟨fun e' hne => ?_, fun pn' p hp => hentries pn' p (hrest.entries pn' p hp), ?_, ?_, ?_,
        hrest.counted⟩
      · rw [List.foldl_cons, hrest.table e' hne, table_pageRemove, update_of_ne hne]
      · exact hrest.pc.trans pc_pageRemove
      · exact hrest.runs.trans runs_pageRemove
      · exact hrest.cur.trans cur_pageRemove

theorem removes_envFree (hcounted : s.Counted) (hno : NoPipe (s.table e)) :
    s.Removes (s.envFree e) e := by
  rw [envFree]
  exact removes_foldl _ hcounted hno

theorem Sound.freed {r : FdSys} (h : s.Sound) (hrunnable : (s.pc s.cur).runnable)
    (hno : NoPipe (s.table s.cur)) (hfree : s.Removes r s.cur) : (r.goto .dead).Sound := by
  have hno' : NoPipe (r.table s.cur) := fun pn p hp => hno pn p (hfree.entries pn p hp)
  have hdead : (r.goto .dead).pc = update s.pc s.cur .dead := by
    rw [FdSys.goto, hfree.cur, hfree.pc]
  refine h.own hrunnable hfree.cur hfree.table hdead (fun e _ => congrFun hfree.runs e)
    (fun p _ hp e pn hpn => ?_) hfree.counted
    ⟨⟨nofun, nofun, fun _ => hno', nofun⟩, placed_of_noPipe hno' _, trivial, trivial⟩
  rcases eq_or_ne e s.cur with rfl | hne
  · exact hp _ pn (hfree.entries pn p hpn)
  · exact hp e pn ((congrFun (hfree.table e hne) pn).symm.trans hpn)

theorem Sound.destroy (h : s.Sound) (hpc : s.pc s.cur = .destroy) :
    ((s.envFree s.cur).goto .dead).Sound := by
  obtain ⟨hrunnable, hplaced, hclosed⟩ := h.running hpc rfl
  have hno := noPipe_of_closed hplaced hclosed
  exact h.freed hrunnable hno (removes_envFree h.counted hno)

/-! ### `fork` -/

section Fork

variable {child : EnvSlot}

theorem tableCount_of_noPipe {t : Nat → Option Page} {p : Page} (h : NoPipe t) (hp : p.OfPipe) :
    tableCount t p = 0 :=
  count_eq_zero_iff.mpr fun pn _ hpn => h pn p hpn hp

theorem Sound.exofork (h : s.Sound) (hchild : s.pc child = .dead) (hcur : child ≠ s.cur) :
    (s.exofork child).Sound := by
  have hother (e : EnvSlot) (hne : e ≠ child) : (s.exofork child).pc e = s.pc e :=
    update_of_ne hne ..
  have htable (e : EnvSlot) (hne : e ≠ child) : (s.exofork child).table e = s.table e :=
    update_of_ne hne ..
  have hempty : (s.exofork child).table child = fun _ => none := update_self ..
  have hnone : NoPipe fun _ => none := nofun
  have hembryo (e c : EnvSlot) (hc : s.pc c = .embryo e) : c ≠ child := by
    rintro rfl
    cases hchild.symm.trans hc
  refine ⟨fun p hp => ?_, fun e => ?_⟩
  · have htotal : (s.exofork child).total p + tableCount (s.table child) p =
        s.total p + tableCount (fun _ => none) p := total_update rfl p
    rw [tableCount_of_noPipe ((h.proc child).dead hchild) hp, tableCount_of_noPipe hnone hp] at htotal
    exact (h.counted p hp).trans (by rw [Nat.add_right_cancel htotal])
  · rcases eq_or_ne e child with rfl | hne
    · have hself : (s.exofork e).pc e = .embryo s.cur := update_self ..
      rw [hself]
      exact ⟨⟨nofun, nofun, nofun, nofun⟩, hempty ▸ placed_of_noPipe hnone _, trivial, trivial⟩
    · have hproc := h.proc e
      rw [hother e hne]
      refine hproc.congr (htable e hne) ?_ (fun c hc => hother c (hembryo e c (hproc.child c hc)))
        (fun c hc => htable c (hembryo e c (hproc.child c (.inl hc)))) fun p _ hp e' pn => ?_
      · exact roundOk_congr hproc.round (fun he => ⟨he, rfl⟩) (htable e hne)
          (update_of_ne hne ..)
      · rcases eq_or_ne e' child with rfl | hne'
        · rw [hempty]
          nofun
        · rw [htable e' hne']
          exact hp e' pn

theorem Sound.fork (h : s.Sound) (hpc : s.pc s.cur = .user) (hchild : s.pc child = .dead) :
    ((s.exofork child).sysret (.forkCopy child)).Sound := by
  have hne : child ≠ s.cur := by
    rintro rfl
    cases hpc.symm.trans hchild
  have hself : (s.exofork child).pc s.cur = .user := (update_of_ne hne.symm ..).trans hpc
  have hforked := h.exofork hchild hne
  obtain ⟨hrunnable, hplaced, -⟩ := hforked.running hself rfl
  refine hforked.sysret_of hrunnable
    ⟨⟨fun c hc => ?_, fun c hc => ?_, nofun, nofun⟩, hplaced, trivial, trivial⟩
  · obtain rfl : child = c := by simpa using hc
    exact (update_of_ne hne ..).trans (update_self ..)
  · cases hc
    change NoPipe (update s.table child (fun _ => none) child)
    rw [update_self]
    nofun

def copied : Option Page → Option Page → Option Page
  | none, entry => entry
  | some p, entry => if p.share then some p else entry

theorem copied_copied (parent entry : Option Page) :
    copied parent (copied parent entry) = copied parent entry := by
  cases parent with
  | none => rfl
  | some p =>
      simp only [copied]
      split <;> rfl

/-- From `s` to `s'`, the running process copies its pages `pns` for the child. -/
structure Copies (s s' : FdSys) (child : EnvSlot) (pns : List Nat) : Prop where
  table : ∀ e, e ≠ child → s'.table e = s.table e
  entries : ∀ pn, s'.table child pn =
    if pn ∈ pns then copied (s.table s.cur pn) (s.table child pn) else s.table child pn
  pc : s'.pc = s.pc
  runs : s'.runs = s.runs
  cur : s'.cur = s.cur
  counted : s'.Counted

theorem copies_copyPage (child : EnvSlot) (hcounted : s.Counted) (hwindow : InWindow pn) :
    s.Copies (copyPage child s pn) child [pn] := by
  unfold copyPage
  split
  · rename_i hnone
    refine ⟨fun _ _ => rfl, fun pn' => ?_, rfl, rfl, rfl, hcounted⟩
    split
    · rename_i hmem
      rw [List.mem_singleton.mp hmem, hnone, copied]
    · rfl
  · rename_i p hp
    split
    · rename_i hshare
      refine ⟨fun e he => ?_, fun pn' => ?_, pc_pageInsert, runs_pageInsert, cur_pageInsert,
        hcounted.pageInsert hwindow p⟩
      · rw [table_pageInsert, update_of_ne he]
      · rw [table_pageInsert, update_self]
        split
        · rename_i hmem
          rw [List.mem_singleton.mp hmem, update_self, hp, copied, if_pos hshare]
        · rename_i hmem
          rw [update_of_ne (by simpa using hmem)]
    · rename_i hshare
      refine ⟨fun _ _ => rfl, fun pn' => ?_, rfl, rfl, rfl, hcounted⟩
      split
      · rename_i hmem
        rw [List.mem_singleton.mp hmem, hp, copied, if_neg hshare]
      · rfl

theorem copies_foldl (pns : List Nat) (hcounted : s.Counted) (hne : child ≠ s.cur)
    (hwindow : ∀ pn ∈ pns, InWindow pn) : s.Copies (pns.foldl (copyPage child) s) child pns := by
  induction pns generalizing s with
  | nil => exact ⟨fun _ _ => rfl, fun pn => by simp, rfl, rfl, rfl, hcounted⟩
  | cons pn pns ih =>
      have hfirst := copies_copyPage child hcounted (hwindow pn List.mem_cons_self)
      have hrest := ih hfirst.counted (by rwa [hfirst.cur])
        fun pn' hpn' => hwindow pn' (List.mem_cons_of_mem _ hpn')
      refine ⟨fun e he => (hrest.table e he).trans (hfirst.table e he), fun pn' => ?_,
        hrest.pc.trans hfirst.pc, hrest.runs.trans hfirst.runs, hrest.cur.trans hfirst.cur,
        hrest.counted⟩
      rw [List.foldl_cons, hrest.entries, hfirst.entries, hfirst.cur, hfirst.table _ hne.symm]
      by_cases hhead : pn' = pn <;> by_cases htail : pn' ∈ pns <;>
        simp [hhead, htail, copied_copied]

theorem copies_copyShared (hcounted : s.Counted) (hne : child ≠ s.cur) :
    s.Copies (s.copyShared child) child (List.range' pnWindow 64) := by
  refine copies_foldl _ hcounted hne fun pn hpn => ?_
  obtain ⟨hle, hlt⟩ := List.mem_range'_1.mp hpn
  exact ⟨hle, hlt⟩

theorem Copies.eq_some_iff (h : s.Copies s' child (List.range' pnWindow 64))
    (hplaced : Placed (s.table s.cur) none) (hno : NoPipe (s.table child)) (pn : Nat) (p : Page)
    (hp : p.OfPipe) : s'.table child pn = some p ↔ s.table s.cur pn = some p := by
  have hshare : p.share = true := by
    rcases hp with (rfl | rfl) | rfl <;> rfl
  have hchild : s.table child pn ≠ some p := fun hpn => hno pn p hpn hp
  rw [h.entries]
  constructor
  · intro hentry
    split at hentry
    · rename_i hmem
      cases hparent : s.table s.cur pn with
      | none =>
          rw [hparent] at hentry
          exact absurd hentry hchild
      | some q =>
          rw [hparent, copied] at hentry
          split at hentry
          · exact hentry
          · exact absurd hentry hchild
    · exact absurd hentry hchild
  · intro hparent
    have hwindow : InWindow pn := by
      rcases hp with hend | rfl
      · obtain ⟨fd, hfd, rfl⟩ := hplaced.ends pn p hparent hend
        exact inWindow_fdPn hfd
      · obtain ⟨fd, hfd, rfl⟩ := hplaced.datas pn hparent
        exact inWindow_dataPn hfd
    rw [if_pos (List.mem_range'_1.mpr hwindow), hparent, copied, if_pos hshare]

theorem placed_congr {t t' : Nat → Option Page} {lone : Option Int}
    (hsame : ∀ pn p, p.OfPipe → (t' pn = some p ↔ t pn = some p)) (h : Placed t lone) :
    Placed t' lone := by
  have hend (fd : Int) : HasEnd t' fd ↔ HasEnd t fd := by
    constructor
    · rintro ⟨p, hp, hend⟩
      exact ⟨p, (hsame _ p (.inl hend)).mp hp, hend⟩
    · rintro ⟨p, hp, hend⟩
      exact ⟨p, (hsame _ p (.inl hend)).mpr hp, hend⟩
  constructor
  · exact fun pn p hp hend => h.ends pn p ((hsame pn p (.inl hend)).mp hp) hend
  · exact fun pn hp => h.datas pn ((hsame pn _ (.inr rfl)).mp hp)
  · exact fun fd hfd hfdend => (hsame _ _ (.inr rfl)).mpr (h.paired fd hfd ((hend fd).mp hfdend))
  · exact fun fd hfd hlone hp =>
      (hend fd).mpr (h.single fd hfd hlone ((hsame _ _ (.inr rfl)).mp hp))

theorem Sound.childTable (h : s.Sound) (hpc : s.pc s.cur = .forkRun child)
    (htable : ∀ e, e ≠ child → s'.table e = s.table e) (hpc' : s'.pc = s.pc)
    (hruns : s'.runs = s.runs) (hcur : s'.cur = s.cur) (hcounted : s'.Counted)
    (hplaced : Placed (s'.table child) none)
    (hgone : ∀ p : Page, p.IsEnd → s.Gone p → s'.Gone p) : s'.Sound := by
  have hchild := (h.proc s.cur).child child (.inr hpc)
  refine ⟨hcounted, fun e => ?_⟩
  rw [hpc']
  rcases eq_or_ne e child with rfl | hne
  · rw [hchild]
    exact ⟨⟨nofun, nofun, nofun, nofun⟩, hplaced, trivial, trivial⟩
  · have hproc := h.proc e
    refine hproc.congr (htable e hne) ?_ (fun c _ => by rw [hpc']) (fun c hc => htable c ?_) hgone
    · rcases eq_or_ne e s.cur with rfl | hself
      · rw [hpc]
        trivial
      · exact roundOk_congr hproc.round (fun he => absurd (he.trans hcur) hself) (htable e hne)
          (congrFun hruns e)
    · rintro rfl
      cases (hproc.child c (.inl hc)).symm.trans hchild
      cases hpc.symm.trans hc

theorem Sound.copyShared (h : s.Sound) (hpc : s.pc s.cur = .forkCopy child) :
    ((s.copyShared child).sysret (.forkRun child)).Sound := by
  obtain ⟨hrunnable, hplaced, -⟩ := h.running hpc rfl
  have hchild := (h.proc s.cur).child child (.inl hpc)
  have hne := ne_cur_of_embryo hrunnable hchild
  have hcopy := copies_copyShared h.counted hne
  have hsame := hcopy.eq_some_iff hplaced ((h.proc s.cur).new child hpc)
  generalize s.copyShared child = r at hcopy hsame ⊢
  have hmoved : (s.sysret (.forkRun child)).Sound := by
    refine h.sysret_of hrunnable ⟨⟨fun c hc => ?_, nofun, nofun, nofun⟩, hplaced, trivial, trivial⟩
    obtain rfl : child = c := by simpa using hc
    exact (update_of_ne hne ..).trans hchild
  refine hmoved.childTable (update_self ..) hcopy.table ?_ ?_ hcopy.cur hcopy.counted
    (placed_congr hsame hplaced) fun p hp hgone e pn hpn => ?_
  · rw [FdSys.sysret, FdSys.goto, hcopy.pc, hcopy.cur, FdSys.sysret, FdSys.goto]
  · rw [FdSys.sysret, hcopy.runs, hcopy.cur, FdSys.sysret]
  · rcases eq_or_ne e child with rfl | hne'
    · exact hgone s.cur pn ((hsame pn p (.inl hp)).mp hpn)
    · exact hgone e pn ((congrFun (hcopy.table e hne') pn).symm.trans hpn)

theorem Sound.start {parent : EnvSlot} (h : s.Sound) (hchild : s.pc child = .embryo parent)
    (hnot : ∀ e, s.pc e ≠ .forkCopy child ∧ s.pc e ≠ .forkRun child) :
    FdSys.Sound { s with pc := update s.pc child .user } := by
  have hother (e : EnvSlot) (hne : e ≠ child) : update s.pc child .user e = s.pc e :=
    update_of_ne hne ..
  refine ⟨h.counted, fun e => ?_⟩
  have hproc := h.proc e
  dsimp only
  rcases eq_or_ne e child with rfl | hne
  · rw [hchild] at hproc
    rw [update_self]
    exact proc_of_simple rfl hproc.placed trivial
  · rw [hother e hne]
    refine hproc.congr rfl (roundOk_congr hproc.round (fun he => ⟨he, rfl⟩) rfl rfl)
      (fun c hc => hother c ?_) (fun _ _ => rfl) fun _ _ => id
    rintro rfl
    exact hc.elim (hnot e).1 (hnot e).2

theorem Sound.forkRun (h : s.Sound) (hpc : s.pc s.cur = .forkRun child) :
    (FdSys.sysret { s with pc := update s.pc child .user } .user).Sound := by
  obtain ⟨hrunnable, hplaced, -⟩ := h.running hpc rfl
  have hchild := (h.proc s.cur).child child (.inr hpc)
  have hne := ne_cur_of_embryo hrunnable hchild
  have hmoved : (s.sysret .user).Sound := h.sysret hrunnable rfl hplaced trivial
  have hembryo : (s.sysret .user).pc child = .embryo s.cur :=
    (update_of_ne hne ..).trans hchild
  have hstart := hmoved.start hembryo fun e => by
    have hparent (he : s.pc e = .forkCopy child ∨ s.pc e = .forkRun child) : e = s.cur := by
      cases ((h.proc e).child child he).symm.trans hchild
      rfl
    rcases eq_or_ne e s.cur with rfl | hother
    · simp [FdSys.sysret, FdSys.goto]
    · have hsame : (s.sysret .user).pc e = s.pc e := update_of_ne hother ..
      rw [hsame]
      exact ⟨fun he => hother (hparent (.inl he)), fun he => hother (hparent (.inr he))⟩
  have hcomm : update (update s.pc child .user) s.cur .user =
      update (update s.pc s.cur .user) child .user := update_comm hne ..
  simp only [FdSys.sysret, FdSys.goto] at hstart ⊢
  rwa [hcomm]

end Fork

/-! ### All steps -/

theorem Sound.advance (h : s.Sound) (hstep : s.advance (s.pc s.cur) = some s') : s'.Sound := by
  generalize hpc : s.pc s.cur = pc at hstep
  cases pc with
  | user | dead | embryo parent => cases hstep
  | closeLookup fd after =>
      cases hstep
      exact h.closeLookup hpc
  | fdClose fd after =>
      cases hstep
      exact h.fdClose hpc
  | unmapFd fd after =>
      cases hstep
      exact h.unmapFd hpc
  | unmapData fd after =>
      cases hstep
      exact h.unmapData hpc
  | unmapFdAgain fd after =>
      cases hstep
      exact h.unmapFdAgain hpc
  | dupLookup old new =>
      cases hstep
      exact h.dupLookup hpc
  | dupData old new =>
      cases hstep
      exact h.dupData hpc
  | dupMapData old new =>
      obtain ⟨hrunnable, hplaced, -, hnew, hnot⟩ := h.running hpc rfl
      simp only [FdSys.advance] at hstep
      split at hstep
      · cases hstep
        exact h.sysret hrunnable rfl (Placed.mono hplaced) ⟨hnew, hnot⟩
      · rename_i p hp
        cases hstep
        exact h.dupMapData hpc hp
  | dupFd old new =>
      obtain ⟨hrunnable, hplaced, hok⟩ := h.running hpc rfl
      cases hstep
      exact h.sysret hrunnable rfl hplaced hok
  | dupMapFd old new =>
      obtain ⟨hrunnable, hplaced, -, hnew, hnot, -⟩ := h.running hpc rfl
      simp only [FdSys.advance] at hstep
      split at hstep
      · cases hstep
        exact h.sysret hrunnable rfl hplaced ⟨hnew, hnot⟩
      · rename_i p hp
        cases hstep
        exact h.dupMapFd hpc hp
  | dupErrFd new =>
      cases hstep
      exact h.dupErrFd hpc
  | dupErrData new =>
      cases hstep
      exact h.dupErrData hpc
  | forkCopy child =>
      cases hstep
      exact h.copyShared hpc
  | forkRun child =>
      cases hstep
      exact h.forkRun hpc
  | destroy =>
      simp only [FdSys.advance, Option.some.injEq] at hstep
      subst hstep
      exact h.destroy hpc
  | isClosedLookup fd =>
      obtain ⟨hrunnable, hplaced, hfd⟩ := h.running hpc rfl
      simp only [FdSys.advance, Option.some.injEq] at hstep
      subst hstep
      split
      · exact h.sysret hrunnable rfl hplaced trivial
      · exact h.sysret hrunnable rfl hplaced hfd
  | readRuns fd =>
      cases hstep
      exact h.readRuns hpc
  | refFd fd start =>
      cases hstep
      exact h.refFd hpc
  | readFdRef fd start pte =>
      cases hstep
      exact h.readFdRef hpc
  | refData fd start a =>
      cases hstep
      exact h.refData hpc
  | readDataRef fd start a pte =>
      cases hstep
      exact h.readDataRef hpc
  | compare fd start a b =>
      obtain ⟨hrunnable, hplaced, hfd⟩ := h.running hpc rfl
      simp only [FdSys.advance] at hstep
      split at hstep
      · rename_i hruns
        cases hstep
        exact h.compare hpc hruns
      · cases hstep
        exact h.goto hrunnable rfl hplaced hfd
  | returned fd closed =>
      obtain ⟨hrunnable, hplaced, -⟩ := h.running hpc rfl
      cases hstep
      exact h.goto hrunnable rfl hplaced trivial

theorem Sound.call (h : s.Sound) (hstep : s.call pc = some s') (hsimple : pc.simple)
    (hlone : pc.lone = none) (hok : pc.Ok (s.table s.cur)) : s'.Sound := by
  unfold FdSys.call at hstep
  split at hstep
  · rename_i hpc
    obtain ⟨hrunnable, hplaced, -⟩ := h.running hpc rfl
    cases hstep
    exact h.goto hrunnable hsimple (by rwa [hlone]) hok
  · cases hstep

theorem roundOk_interrupted (h : pc.RoundOk s e) (htable : s'.table e = s.table e)
    (hruns : s'.runs e = s.runs e + 1)
    (hbound : ∀ start, pc.round = some start → s.runs e + 1 < start + 2 ^ 32) : pc.RoundOk s' e := by
  have hwithin {start k : Nat} (hstart : pc.round = some start) (hw : s.Within e start k) :
      s'.Within e start k := by
    have hlt := hbound start hstart
    obtain ⟨hle, -⟩ := hw
    rw [Within, hruns]
    omega
  have hnot {start k : Nat} (hw : s.Within e start k) : ¬s'.Undisturbed e start k := by
    rintro ⟨-, hsame⟩
    obtain ⟨hle, -⟩ := hw
    omega
  cases pc with
  | refFd fd start => exact hwithin rfl h
  | readFdRef fd start pte => exact ⟨hwithin rfl h.1, htable ▸ h.2⟩
  | refData fd start a => exact ⟨hwithin rfl h.1, fun hu => absurd hu (hnot h.1)⟩
  | readDataRef fd start a pte =>
      exact ⟨hwithin rfl h.1, fun hu => absurd hu (hnot h.1), htable ▸ h.2.2⟩
  | compare fd start a b => exact ⟨hwithin rfl h.1, fun hu => absurd hu (hnot h.1)⟩
  | _ => trivial

theorem Sound.resume {next : EnvSlot} (h : s.Sound)
    (hbound : ∀ start, (s.pc next).round = some start → s.runs next + 1 < start + 2 ^ 32) :
    FdSys.Sound { s with cur := next, runs := update s.runs next (s.runs next + 1) } := by
  refine ⟨h.counted, fun e => ?_⟩
  have hproc := h.proc e
  refine hproc.congr rfl ?_ (fun _ _ => rfl) (fun _ _ => rfl) fun _ _ => id
  rcases eq_or_ne e next with rfl | hne
  · exact roundOk_interrupted hproc.round rfl (update_self ..) hbound
  · exact roundOk_congr hproc.round (fun he => absurd he hne) rfl (update_of_ne hne ..)

theorem Sound.step {event : FdEvent} (h : s.Sound) (hbound : s.InBounds event)
    (hstep : s.Step event s') : s'.Sound := by
  cases event with
  | dup old new =>
      have hcall : s.call (if FdInRange old then .dupLookup old new else .user) = some s' := hstep
      split at hcall
      · rename_i hold
        exact h.call hcall rfl rfl ⟨hold, hbound⟩
      · exact h.call hcall rfl rfl trivial
  | close fd =>
      have hcall : s.call (if FdInRange fd then .closeLookup fd .ret else .user) = some s' := hstep
      split at hcall
      · rename_i hfd
        exact h.call hcall rfl rfl ⟨hfd, trivial⟩
      · exact h.call hcall rfl rfl trivial
  | fork child =>
      simp only [Step, exec] at hstep
      split at hstep
      · rename_i hpc hchild
        cases hstep
        exact h.fork hpc hchild
      · cases hstep
  | exit =>
      exact h.call hstep (simple_closeAllFrom 0) (lone_closeAllFrom 0)
        (ok_closeAllFrom fun j hj => absurd hj (Nat.not_lt_zero j))
  | pipeisclosed fd =>
      have hcall : s.call (if FdInRange fd then .isClosedLookup fd else .user) = some s' := hstep
      split at hcall
      · rename_i hfd
        exact h.call hcall rfl rfl hfd
      · exact h.call hcall rfl rfl trivial
  | step => exact h.advance hstep
  | resume next =>
      simp only [Step, exec] at hstep
      split at hstep
      · cases hstep
        exact h.resume hbound
      · cases hstep

end FdSys

end ZynexOS
