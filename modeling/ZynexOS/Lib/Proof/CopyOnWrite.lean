import ZynexOS.Lib.Proof.Sharing

/-!
# What `fork` copies

After `fork` and the handler, a page that is writable is mapped once.
-/

namespace ZynexOS

open Function

namespace Family

variable {s t t' : Family} {side : Side} {pn off : Nat} {byte : BitVec 8} {m : Mapping}
variable {endVa : Nat} {pages : List Nat}

/-! ### The handler -/

def privatized (t : Family) (side : Side) (pn : Nat) (m : Mapping) : Family :=
  { (t.set side pn (some ⟨t.next, .all⟩)).set side pnTemp none with
    data := update t.data t.next (t.data m.frame), next := t.next + 1 }

theorem pgfault_run (hm : t.space side pn = some m) (hlt : m.frame < t.next) (hpn : pn ≠ pnTemp) :
    t.pgfault side pn = some (t.privatized side pn m) := by
  have hm' : (t.pageAlloc side pnTemp .all).space side pn = some m := by
    rw [space_pageAlloc, space_set_self, update_of_ne hpn, hm]
  have hold : (t.pageAlloc side pnTemp .all).data m.frame = t.data m.frame :=
    update_of_ne (Nat.ne_of_lt hlt) ..
  have htemp : (t.pageAlloc side pnTemp .all).space side pnTemp = some ⟨t.next, .all⟩ := by
    rw [space_pageAlloc, space_set_self, update_self]
  -- `UTEMP` is unmapped again, whatever was there.
  have htwice (f : Space) (a b : Option Mapping) :
      update (update (update f pnTemp a) pn b) pnTemp none =
        update (update f pn b) pnTemp none := by
    rw [update_comm hpn.symm, update_idem]
  simp only [pgfault, pageMap, hm', htemp, bind, Option.bind, pure, and_not_self, if_false, hold]
  simp only [privatized, set, pageAlloc, update_self, update_idem, htwice]

/-! ### Writes -/

structure Separate (M : Nat → Prop) (t : Family) : Prop where
  temp : ¬M pnTemp
  mapped : ∀ side pn, M pn → ∃ m, t.space side pn = some m
  bound : ∀ side pn m, M pn → t.space side pn = some m → m.frame < t.next
  once : ∀ side pn m, M pn → t.space side pn = some m → m.perm.write = true →
    ∀ side' pn' m', M pn' → t.space side' pn' = some m' → m'.frame = m.frame →
      side' = side ∧ pn' = pn

variable {M : Nat → Prop}

theorem Separate.ne_temp (h : t.Separate M) (hpn : M pn) : pn ≠ pnTemp := fun heq => h.temp (heq ▸ hpn)

def Writes (M : Nat → Prop) (t t' : Family) (side : Side) (pn off : Nat) (byte : BitVec 8) : Prop :=
  ∀ side' pn' off', M pn' → t'.read side' pn' off' =
    if side = side' ∧ pn = pn' ∧ off = off' then some byte else t.read side' pn' off'

theorem Separate.store (h : t.Separate M) (hpn : M pn) (hm : t.space side pn = some m)
    (hwrite : m.perm.write = true) :
    (t.store m off byte).Separate M ∧ Writes M t (t.store m off byte) side pn off byte := by
  refine ⟨⟨h.temp, h.mapped, h.bound, h.once⟩, fun side' pn' off' hpn' => ?_⟩
  obtain ⟨m', hm'⟩ := h.mapped side' pn' hpn'
  have hspace : (t.store m off byte).space side' pn' = some m' := hm'
  simp only [read, hspace, hm', Option.map_some]
  by_cases hframe : m'.frame = m.frame
  · obtain ⟨rfl, rfl⟩ := h.once side pn m hpn hm hwrite side' pn' m' hpn' hm' hframe
    by_cases hoff : off = off'
    · simp [Family.store, hframe, hoff]
    · simp [Family.store, hframe, hoff, Ne.symm hoff]
  · have hother : ¬(side = side' ∧ pn = pn' ∧ off = off') := by
      rintro ⟨rfl, rfl, rfl⟩
      rw [hm] at hm'
      cases hm'
      exact hframe rfl
    rw [if_neg hother]
    simp [Family.store, hframe]

theorem Separate.space_privatized (h : t.Separate M) {side' : Side} {pn' : Nat} (hpn' : M pn')
    (m : Mapping) : (t.privatized side pn m).space side' pn' =
      if side' = side ∧ pn' = pn then some ⟨t.next, .all⟩ else t.space side' pn' := by
  have hne := h.ne_temp hpn'
  show ((t.set side pn _).set side pnTemp none).space side' pn' = _
  by_cases hside : side' = side
  · subst hside
    rw [space_set_self, update_of_ne hne, space_set_self]
    by_cases hpn : pn' = pn
    · simp [hpn]
    · simp [hpn]
  · rw [space_set_of_ne hside, space_set_of_ne hside]
    simp [hside]

theorem Separate.privatized (h : t.Separate M) (hm : t.space side pn = some m) :
    (t.privatized side pn m).Separate M ∧
      ∀ side' pn' off', M pn' → (t.privatized side pn m).read side' pn' off' = t.read side' pn' off' := by
  constructor
  · refine ⟨h.temp, fun side' pn' hpn' => ?_, fun side' pn' m' hpn' hm' => ?_, ?_⟩
    · rw [h.space_privatized hpn']
      split
      · exact ⟨_, rfl⟩
      · exact h.mapped side' pn' hpn'
    · rw [h.space_privatized hpn'] at hm'
      split at hm'
      · cases hm'
        exact Nat.lt_succ_self _
      · exact Nat.lt_succ_of_lt (h.bound side' pn' m' hpn' hm')
    · intro side₁ pn₁ m₁ hpn₁ hm₁ hwrite side₂ pn₂ m₂ hpn₂ hm₂ hframe
      rw [h.space_privatized hpn₁] at hm₁
      rw [h.space_privatized hpn₂] at hm₂
      split at hm₁ <;> split at hm₂
      · rename_i h₁ h₂
        exact ⟨h₂.1.trans h₁.1.symm, h₂.2.trans h₁.2.symm⟩
      · cases hm₁
        have := h.bound side₂ pn₂ m₂ hpn₂ hm₂
        simp only at hframe
        omega
      · cases hm₂
        have := h.bound side₁ pn₁ m₁ hpn₁ hm₁
        simp only at hframe
        omega
      · exact h.once side₁ pn₁ m₁ hpn₁ hm₁ hwrite side₂ pn₂ m₂ hpn₂ hm₂ hframe
  · intro side' pn' off' hpn'
    rw [read, read, h.space_privatized hpn']
    split
    · rename_i heq
      rw [heq.1, heq.2, hm]
      simp [Family.privatized]
    · obtain ⟨m', hm'⟩ := h.mapped side' pn' hpn'
      have hne : m'.frame ≠ t.next := Nat.ne_of_lt (h.bound side' pn' m' hpn' hm')
      simp [Family.privatized, hm', hne]

theorem Separate.write (h : t.Separate M) (hpn : M pn) :
    ∃ t', t.write side pn off byte = some t' ∧ t'.Separate M ∧
      Writes M t t' side pn off byte := by
  obtain ⟨m, hm⟩ := h.mapped side pn hpn
  by_cases hwrite : m.perm.write = true
  · refine ⟨t.store m off byte, ?_, h.store hpn hm hwrite⟩
    simp [Family.write, hm, hwrite]
  · obtain ⟨hsep, hreads⟩ := h.privatized hm
    have hnew : (t.privatized side pn m).space side pn = some ⟨t.next, .all⟩ := by
      rw [h.space_privatized hpn]
      simp
    obtain ⟨hsep', hwrites⟩ : ((t.privatized side pn m).store ⟨t.next, .all⟩ off byte).Separate M ∧
      Writes M (t.privatized side pn m) _ side pn off byte := hsep.store hpn hnew rfl
    refine ⟨_, ?_, hsep', fun side' pn' off' hpn' => ?_⟩
    · simp only [Family.write, bind, Option.bind, hm, hwrite, if_false, Bool.false_eq_true,
        pgfault_run hm (h.bound side pn m hpn hm) (h.ne_temp hpn), hnew]
      rfl
    · rw [hwrites side' pn' off' hpn', hreads side' pn' off' hpn']

theorem ownView_cons (w : Write) (writes : List Write) (side : Side) (pn off : Nat) (old : BitVec 8) :
    ownView (w :: writes) side pn off old = ownView writes side pn off
      (if w.side = side ∧ w.pn = pn ∧ w.off = off then w.byte else old) := rfl

theorem Separate.run (h : t.Separate M) (writes : List Write) (hwrites : ∀ w ∈ writes, M w.pn) :
    ∃ t', t.run writes = some t' ∧ ∀ side pn off, M pn →
      t'.read side pn off = (t.read side pn off).map (ownView writes side pn off) := by
  induction writes generalizing t with
  | nil => exact ⟨t, rfl, fun side pn off _ => (congrFun Option.map_id _).symm⟩
  | cons w writes ih =>
      obtain ⟨t₁, hrun₁, hsep₁, hread₁⟩ : ∃ t₁, t.write w.side w.pn w.off w.byte = some t₁ ∧
        t₁.Separate M ∧ Writes M t t₁ w.side w.pn w.off w.byte := h.write (hwrites w List.mem_cons_self)
      obtain ⟨t', hrun, hread⟩ := ih hsep₁ fun w' hw' => hwrites w' (List.mem_cons_of_mem w hw')
      refine ⟨t', ?_, fun side pn off hpn => ?_⟩
      · rw [Family.run, List.foldlM_cons, hrun₁]
        exact hrun
      · rw [hread side pn off hpn, hread₁ side pn off hpn]
        obtain ⟨m, hm⟩ := h.mapped side pn hpn
        simp only [read, hm, Option.map_some, ownView_cons]
        split <;> rfl

/-! ### `fork` -/

theorem pnTemp_not_mem (endVa : Nat) : pnTemp ∉ dupPages endVa := by
  intro h
  rcases List.mem_append.mp h with h | h
  · have hle := (List.mem_range'_1.mp h).1
    revert hle
    decide
  · revert h
    decide

structure Copied (t : Family) (m : Mapping) (pn : Nat) : Prop where
  copied : ∀ side, ∃ m', t.space side pn = some m' ∧ m'.frame = m.frame ∧ m'.perm.write = false

theorem Forks.copied (h : s.Forks endVa) (hpn : s.Maps pn)
    (hm : s.space .parent pn = some m) : (s.forked endVa).Copied m pn := by
  rcases Decidable.em (pn ∈ dupPages endVa) with hdup | hdup
  · refine ⟨fun side => ⟨asCow m, ?_, rfl, rfl⟩⟩
    cases side with
    | parent => rw [forked_parent, if_pos hdup, hm]; rfl
    | child => exact forked_child_of_mem hm hpn.1 hdup
  · obtain ⟨hwindow, hcow, hwrite⟩ := (h.covered pn m hpn hm).resolve_left hdup
    refine ⟨fun side => ?_⟩
    cases side with
    | parent => exact ⟨m, by rw [forked_parent, if_neg hdup, hm], rfl, hwrite⟩
    | child =>
        refine ⟨⟨m.frame, { m.perm with bit9 := true, user := true }⟩, ?_, rfl, hwrite⟩
        rw [forked_child_of_not_mem hm hpn.1 hdup, if_pos hwindow]
        exact sharedCopy_eq_some.mpr ⟨hcow.1, rfl⟩

theorem dupped_exofork (s : Family) (dup : List Nat) :
    (s.exofork.dupped dup).data = s.data ∧ (s.exofork.dupped dup).next = s.next := ⟨rfl, rfl⟩

theorem forked_data (s : Family) (endVa : Nat) {frame : Nat} (hlt : frame < s.next) :
    (s.forked endVa).data frame = s.data frame := by
  obtain ⟨hdata, hnext⟩ := copySharedPages_data (s.exofork.dupped (dupPages endVa))
  obtain ⟨hdata', hnext'⟩ := dupped_exofork s (dupPages endVa)
  rw [forked, pageAlloc]
  simp only [hdata, hnext, hdata', hnext', update_of_ne (Nat.ne_of_lt hlt)]

theorem forked_next (s : Family) (endVa : Nat) : (s.forked endVa).next = s.next + 1 := by
  obtain ⟨-, hnext⟩ := copySharedPages_data (s.exofork.dupped (dupPages endVa))
  rw [forked, pageAlloc]
  simp only [hnext, (dupped_exofork s (dupPages endVa)).2]

theorem Forks.separate (hbounded : s.Bounded) (h : s.Forks endVa) :
    (s.forked endVa).Separate s.Maps := by
  have hcopied (side : Side) {pn : Nat} (hpn : s.Maps pn) : ∃ m m', s.space .parent pn = some m ∧
      (s.forked endVa).space side pn = some m' ∧ m'.frame = m.frame ∧ m'.perm.write = false := by
    obtain ⟨m, hm⟩ := Option.isSome_iff_exists.mp hpn.2
    obtain ⟨m', hm'⟩ := (h.copied hpn hm).copied side
    exact ⟨m, m', hm, hm'⟩
  refine ⟨fun htemp => ?_, fun side pn hpn => ?_, fun side pn m' hpn hm' => ?_, ?_⟩
  · obtain ⟨m, hm⟩ := Option.isSome_iff_exists.mp htemp.2
    rcases h.covered pnTemp m htemp hm with hdup | ⟨hwindow, -⟩
    · exact pnTemp_not_mem endVa hdup
    · exact hwindow.ne_pnTemp rfl
  · obtain ⟨m, m', -, hm', -⟩ := hcopied side hpn
    exact ⟨m', hm'⟩
  · obtain ⟨m, m'', hm, hm'', hframe, -⟩ := hcopied side hpn
    rw [hm''] at hm'
    cases hm'
    rw [hframe, forked_next]
    exact Nat.lt_succ_of_lt (hbounded .parent pn m hm)
  · intro side pn m₁ hpn hm₁ hwrite
    obtain ⟨m, m', -, hm', -, hnot⟩ := hcopied side hpn
    rw [hm'] at hm₁
    cases hm₁
    rw [hnot] at hwrite
    cases hwrite

theorem Forks.read_forked (hbounded : s.Bounded) (h : s.Forks endVa) (hpn : s.Maps pn)
    (side : Side) (off : Nat) : (s.forked endVa).read side pn off = s.read .parent pn off := by
  obtain ⟨m, hm⟩ := Option.isSome_iff_exists.mp hpn.2
  obtain ⟨m', hm', hframe, -⟩ := (h.copied hpn hm).copied side
  simp only [read, hm, hm', Option.map_some, hframe]
  rw [forked_data s endVa (hbounded .parent pn m hm)]

theorem Forks.forkCopies (hbounded : s.Bounded) (h : s.Forks endVa) :
    s.ForkCopies endVa := by
  refine ⟨s.forked endVa, fork_of_forkable h.mapped,
    fun pn hpn off => h.read_forked hbounded hpn .child off, fun writes hwrites => ?_⟩
  obtain ⟨t, hrun, hread⟩ := (h.separate hbounded).run writes hwrites
  refine ⟨t, hrun, fun side pn off hpn => ?_⟩
  rw [hread side pn off hpn, h.read_forked hbounded hpn]

theorem write_seen {m' : Mapping} (byte : BitVec 8) (hparent : t.space .parent pn = some m)
    (hchild : t.space .child pn = some m') (hframe : m'.frame = m.frame)
    (hwrite : m'.perm.write = true) : ∃ t', t.run [⟨.child, pn, 0, byte⟩] = some t' ∧
      t'.read .parent pn 0 = some byte := by
  refine ⟨t.store m' 0 byte, ?_, ?_⟩
  · simp [Family.run, Family.write, hchild, hwrite]
  · simp [read, Family.store, hparent, hframe]

/-- `fork` copies the address space if and only if it consists of the program and the page of the stack,
and all of that is mapped. -/
theorem fork_copies_iff (s : Family) (endVa : Nat) (hbounded : s.Bounded) (hprivate : s.Private) :
    s.ForkCopies endVa ↔ s.Forks endVa := by
  constructor
  · rintro ⟨s', hfork, hsame, hwrites⟩
    have hforkable := forkable_of_fork hfork
    rw [fork_of_forkable hforkable] at hfork
    cases hfork
    refine ⟨hforkable, fun pn m hpn hm => ?_⟩
    by_cases hdup : pn ∈ dupPages endVa
    · exact .inl hdup
    · right
      have hchild : (s.forked endVa).space .child pn = if InWindow pn then sharedCopy m else none :=
        forked_child_of_not_mem hm hpn.1 hdup
      have hparent : (s.forked endVa).space .parent pn = some m := by
        rw [forked_parent, if_neg hdup, hm]
      have hread := hsame pn hpn 0
      have hwindow : InWindow pn := by
        by_contra hnot
        rw [read, hchild, if_neg hnot, read, hm] at hread
        cases hread
      rw [if_pos hwindow] at hchild
      have hbit9 : m.perm.bit9 = true := by
        by_contra hnot
        rw [read, hchild, sharedCopy, if_neg hnot, read, hm] at hread
        cases hread
      refine ⟨hwindow, (isShare_or_isCow hbit9).resolve_left (hprivate pn m hpn hm), ?_⟩
      by_contra hwrite
      rw [Bool.not_eq_false] at hwrite
      rw [sharedCopy, if_pos hbit9] at hchild
      -- The child writes another byte, and the parent sees it.
      obtain ⟨t, hrun, hseen⟩ := write_seen (s.data m.frame 0 + 1) hparent hchild rfl hwrite
      obtain ⟨t', hrun', hview⟩ := hwrites [⟨.child, pn, 0, s.data m.frame 0 + 1⟩]
        fun w hw => by
          obtain rfl := List.mem_singleton.mp hw
          exact hpn
      rw [hrun] at hrun'
      cases hrun'
      have hown := hview .parent pn 0 hpn
      rw [hseen] at hown
      simp [read, hm, ownView] at hown
  · exact Forks.forkCopies hbounded

def ofPages (pages : List Nat) : Family where
  space side q := if side = .parent ∧ q ∈ pages then some ⟨q, .readWrite⟩ else none
  data _ _ := 0
  next := 2 ^ 52

theorem eq_of_ofPages (hm : (ofPages pages).space side pn = some m) :
    pn ∈ pages ∧ m = ⟨pn, .readWrite⟩ := by
  simp only [ofPages] at hm
  split at hm
  · rename_i hpn
    exact ⟨hpn.2, (Option.some.inj hm).symm⟩
  · cases hm

theorem ofPages_parent (hpn : pn ∈ pages) :
    (ofPages pages).space .parent pn = some ⟨pn, .readWrite⟩ := if_pos ⟨rfl, hpn⟩

theorem bounded_ofPages (h : ∀ pn ∈ pages, pn < 2 ^ 52) : (ofPages pages).Bounded := by
  intro side pn m hm
  obtain ⟨hpn, rfl⟩ := eq_of_ofPages hm
  exact h pn hpn

theorem private_ofPages (pages : List Nat) : (ofPages pages).Private := by
  intro pn m _ hm hshare
  obtain ⟨-, rfl⟩ := eq_of_ofPages hm
  exact Bool.false_ne_true hshare.1

theorem dupPages_one : dupPages 0x801000 = [0x800, pnStack] := by decide

theorem fork_copies_program : (ofPages [0x800, pnStack]).ForkCopies 0x801000 := by
  refine (fork_copies_iff _ _ (bounded_ofPages (by decide)) (private_ofPages _)).mpr ⟨?_, ?_⟩
  · intro pn hpn
    rw [dupPages_one] at hpn
    rw [ofPages_parent hpn]
    rfl
  · intro pn m _ hm
    rw [dupPages_one]
    exact .inl (eq_of_ofPages hm).1

/-- The first page that `malloc` hands out is not there in the child. -/
theorem fork_loses_heap : (ofPages [0x800, 0x8000, pnStack]).Bounded ∧
    (ofPages [0x800, 0x8000, pnStack]).Private ∧ ∃ s',
      (ofPages [0x800, 0x8000, pnStack]).fork 0x801000 = some s' ∧
      s'.space .child 0x8000 = none ∧ ¬(ofPages [0x800, 0x8000, pnStack]).ForkCopies 0x801000 := by
  have hfork : (ofPages [0x800, 0x8000, pnStack]).Forkable 0x801000 := by
    intro pn hpn
    rw [dupPages_one] at hpn
    have hmem : pn ∈ [0x800, 0x8000, pnStack] := by
      rcases List.mem_cons.mp hpn with rfl | hpn
      · exact List.mem_cons_self
      · exact List.mem_cons_of_mem _ (List.mem_cons_of_mem _ hpn)
    rw [ofPages_parent hmem]
    rfl
  have hm : (ofPages [0x800, 0x8000, pnStack]).space .parent 0x8000 = some ⟨0x8000, .readWrite⟩ :=
    ofPages_parent (by decide)
  have hchild : ((ofPages [0x800, 0x8000, pnStack]).forked 0x801000).space .child 0x8000 = none := by
    rw [forked_child_of_not_mem hm (by decide) (by rw [dupPages_one]; decide), if_neg (by decide)]
  refine ⟨bounded_ofPages (by decide), private_ofPages _, _, fork_of_forkable hfork, hchild, ?_⟩
  rintro ⟨s', hs', hsame, -⟩
  rw [fork_of_forkable hfork] at hs'
  cases hs'
  have hread := hsame 0x8000 ⟨by decide, by rw [hm]; rfl⟩ 0
  rw [read, hchild, read, hm] at hread
  cases hread

end Family

end ZynexOS
