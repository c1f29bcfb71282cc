import Mathlib

/-!
# Round robin

Members take turns in the order of a queue. Between two turns of one member each member that was there
throughout has exactly one turn.
-/

namespace Library

open Function

/-- `ran` lists the turns, newest first. `born` and `gone` say how many turns there had been when a
member was let in and when it ended. -/
structure Rotation (ι : Type*) where
  cur : Option ι
  ready : List ι
  ran : List ι
  born : ι → Option Nat
  gone : ι → Option Nat

namespace Rotation

variable {ι : Type*} {r : Rotation ι} {x c n : ι} {q : List ι}

def next (r : Rotation ι) : Rotation ι :=
  match r.ready with
  | [] => r
  | n :: q => { r with cur := some n, ready := q ++ r.cur.toList, ran := n :: r.ran }

theorem next_cons (hready : r.ready = n :: q) :
    r.next = { r with cur := some n, ready := q ++ r.cur.toList, ran := n :: r.ran } := by
  simp [next, hready]

theorem concat_eq_split {before after : List ι} (hsplit : q ++ [c] = before ++ x :: after) :
    (∃ rest, q = before ++ x :: rest ∧ after = rest ++ [c]) ∨ q = before ∧ c = x ∧ after = [] := by
  obtain rfl | ⟨rest, d, rfl⟩ := List.eq_nil_or_concat after
  · obtain ⟨rfl, hlast⟩ := List.append_inj' hsplit rfl
    exact .inr ⟨rfl, List.singleton_inj.mp hlast, rfl⟩
  · have hsplit' : q ++ [c] = (before ++ x :: rest) ++ [d] := by simpa using hsplit
    obtain ⟨rfl, hlast⟩ := List.append_inj' hsplit' rfl
    exact .inl ⟨rest, rfl, by rw [List.singleton_inj.mp hlast, List.concat_eq_append]⟩

variable [DecidableEq ι]

def add (r : Rotation ι) (x : ι) : Rotation ι :=
  { r with ready := r.ready ++ [x], born := update r.born x (some r.ran.length) }

def drop (r : Rotation ι) : Rotation ι :=
  match r.cur with
  | none => r
  | some c => { r with cur := none, gone := update r.gone c (some r.ran.length) }

/-- Between two consecutive turns of `t`, each other member that was let in before the first and has
not ended before the second has one turn. -/
def RoundRobin (r : Rotation ι) : Prop :=
  ∀ later mid earlier t u b, r.ran = later ++ t :: (mid ++ t :: earlier) → t ∉ mid → u ≠ t →
    r.born u = some b → b ≤ earlier.length →
    (∀ n, r.gone u = some n → earlier.length + mid.length + 1 < n) → mid.count u = 1

/-- Since the last turn of a waiting member `x`, the members before it in the queue have had no turn,
and the others that were there then have had one. -/
def Waits (r : Rotation ι) : Prop :=
  ∀ before x after mid earlier y b, r.ready = before ++ x :: after → r.ran = mid ++ x :: earlier →
    x ∉ mid → r.born y = some b → b ≤ earlier.length →
    (y ∈ before → mid.count y = 0) ∧ (y ∈ after ∨ r.cur = some y → mid.count y = 1)

structure Members (r : Rotation ι) : Prop where
  nodup : (r.cur.toList ++ r.ready).Nodup
  here : ∀ x ∈ r.cur.toList ++ r.ready, r.born x ≠ none ∧ r.gone x = none
  stays : ∀ x, r.born x ≠ none → r.gone x = none → x ∈ r.cur.toList ++ r.ready
  born : ∀ x, x ∈ r.ran ∨ r.gone x ≠ none → r.born x ≠ none
  gone : ∀ x n, r.gone x = some n → n ≤ r.ran.length
  turn : ∀ c, r.cur = some c → ∃ rest, r.ran = c :: rest

structure Fair (r : Rotation ι) : Prop where
  members : r.Members
  waits : r.Waits
  roundRobin : r.RoundRobin

theorem fair_start (hcur : r.cur = none) (hready : r.ready = []) (hran : r.ran = [])
    (hborn : ∀ x, r.born x = none) (hgone : ∀ x, r.gone x = none) : r.Fair := by
  refine ⟨⟨?_, ?_, ?_, ?_, ?_, ?_⟩, ?_, ?_⟩
  · simp [hcur, hready]
  · simp [hcur, hready]
  · intro x hx
    exact absurd (hborn x) hx
  · intro x hx
    simp [hran, hgone] at hx
  · intro x n hn
    simp [hgone] at hn
  · intro c hc
    simp [hcur] at hc
  · intro before x after mid earlier y b hsplit
    simp [hready] at hsplit
  · intro later mid earlier t u b hsplit
    simp [hran] at hsplit

section Add

theorem Members.add (hr : r.Members) (hx : r.born x = none) : (r.add x).Members := by
  have hnew : x ∉ r.cur.toList ++ r.ready := fun hmem => (hr.here x hmem).1 hx
  have hborn : ∀ y, y ≠ x → (r.add x).born y = r.born y := fun y hy => update_of_ne hy _ _
  have hself : (r.add x).born x ≠ none := by simp [Rotation.add]
  refine ⟨?_, ?_, ?_, ?_, hr.gone, hr.turn⟩
  · show (r.cur.toList ++ (r.ready ++ [x])).Nodup
    rw [← List.append_assoc, ← List.concat_eq_append]
    exact hr.nodup.concat hnew
  · intro y hy
    by_cases hxy : y = x
    · subst hxy
      refine ⟨hself, ?_⟩
      by_contra hgone
      exact hr.born y (.inr hgone) hx
    · rw [hborn y hxy]
      refine hr.here y ?_
      simpa [Rotation.add, hxy] using hy
  · intro y hy hgone
    by_cases hxy : y = x
    · simp [Rotation.add, hxy]
    · rw [hborn y hxy] at hy
      have := hr.stays y hy hgone
      simp only [Rotation.add, List.mem_append] at this ⊢
      tauto
  · intro y hy
    by_cases hxy : y = x
    · exact hxy ▸ hself
    · rw [hborn y hxy]
      exact hr.born y hy

theorem Fair.add (hr : r.Fair) (hx : r.born x = none) : (r.add x).Fair := by
  have hran : x ∉ r.ran := fun hmem => hr.members.born x (.inl hmem) hx
  -- a turn that counts was taken before the new member came
  have hold : ∀ {y b} {l l' : List ι} {z : ι}, (r.add x).born y = some b → r.ran = l ++ z :: l' →
      b ≤ l'.length → y ≠ x ∧ r.born y = some b := by
    intro y b l l' z hb hsplit hle
    by_cases hxy : y = x
    · subst hxy
      have hlen := congrArg List.length hsplit
      simp only [Rotation.add, update_self, Option.some.injEq] at hb
      simp only [List.length_append, List.length_cons] at hlen
      omega
    · exact ⟨hxy, by simpa [Rotation.add, update_of_ne hxy] using hb⟩
  refine ⟨hr.members.add hx, ?_, ?_⟩
  · intro before z after mid earlier y b hready hsplit hmid hb hle
    obtain ⟨hxy, hb⟩ := hold hb hsplit hle
    obtain ⟨rest, hrest, rfl⟩ | ⟨_, rfl, _⟩ := concat_eq_split hready
    · obtain ⟨hbefore, hafter⟩ := hr.waits before z rest mid earlier y b hrest hsplit hmid hb hle
      refine ⟨hbefore, fun hy => hafter ?_⟩
      simpa [Rotation.add, hxy] using hy
    · refine absurd ?_ hran
      rw [show r.ran = mid ++ x :: earlier from hsplit]
      simp
  · intro later mid earlier t u b hsplit hmid hne hb hle hgone
    have hsplit' : r.ran = (later ++ t :: mid) ++ t :: earlier := by
      rw [show r.ran = later ++ t :: (mid ++ t :: earlier) from hsplit]
      simp
    obtain ⟨_, hb⟩ := hold hb hsplit' hle
    exact hr.roundRobin later mid earlier t u b hsplit hmid hne hb hle hgone

end Add

section Drop

theorem Members.drop (hr : r.Members) (hc : r.cur = some c) : r.drop.Members := by
  have hnodup := hr.nodup
  have hturn := hr.turn c hc
  have hhere := hr.here
  have hstays := hr.stays
  simp only [hc, Option.toList_some, List.singleton_append] at hnodup hhere hstays
  have hself : ∀ x ∈ r.ready, x ≠ c := fun x hx hxc => (List.nodup_cons.mp hnodup).1 (hxc ▸ hx)
  have hdrop : r.drop =
      { r with cur := none, gone := update r.gone c (some r.ran.length) } := by
    simp [Rotation.drop, hc]
  rw [hdrop]
  refine ⟨?_, ?_, ?_, ?_, ?_, ?_⟩
  · exact (List.nodup_cons.mp hnodup).2
  · intro x hx
    obtain ⟨hborn, hgone⟩ := hhere x (List.mem_cons_of_mem c hx)
    exact ⟨hborn, by simpa [update_of_ne (hself x hx)] using hgone⟩
  · intro x hborn hgone
    by_cases hxc : x = c
    · simp [hxc] at hgone
    · simp only [update_of_ne hxc] at hgone
      exact (List.mem_cons.mp (hstays x hborn hgone)).resolve_left hxc
  · intro x hx
    by_cases hxc : x = c
    · exact hxc ▸ (hhere c List.mem_cons_self).1
    · simp only [update_of_ne hxc] at hx
      exact hr.born x hx
  · intro x n hn
    by_cases hxc : x = c
    · simp only [hxc, update_self, Option.some.injEq] at hn
      exact hn.ge
    · simp only [update_of_ne hxc] at hn
      exact hr.gone x n hn
  · nofun

theorem Fair.drop (hr : r.Fair) (hc : r.cur = some c) : r.drop.Fair := by
  refine ⟨hr.members.drop hc, ?_, ?_⟩
  · simp only [Rotation.drop, hc]
    intro before x after mid earlier y b hready hsplit hmid hb hle
    obtain ⟨hbefore, hafter⟩ := hr.waits before x after mid earlier y b hready hsplit hmid hb hle
    refine ⟨hbefore, fun hy => hafter (hy.imp_right ?_)⟩
    nofun
  · simp only [Rotation.drop, hc]
    intro later mid earlier t u b hsplit hmid hne hb hle hgone
    refine hr.roundRobin later mid earlier t u b hsplit hmid hne hb hle fun n hn => ?_
    by_cases huc : u = c
    · subst huc
      have hhere := (hr.members.here u (by simp [hc])).2
      rw [hn] at hhere
      cases hhere
    · exact hgone n (by simpa [update_of_ne huc] using hn)

end Drop

section Next

omit [DecidableEq ι] in
theorem Members.next (hr : r.Members) (hready : r.ready = n :: q) : r.next.Members := by
  have hperm : ([n] ++ (q ++ r.cur.toList)).Perm (r.cur.toList ++ r.ready) := by
    rw [hready]
    show (n :: q ++ r.cur.toList).Perm (r.cur.toList ++ n :: q)
    exact List.perm_append_comm
  rw [next_cons hready]
  refine ⟨?_, ?_, ?_, ?_, ?_, ?_⟩
  · exact hperm.nodup_iff.mpr hr.nodup
  · intro x hx
    exact hr.here x (hperm.mem_iff.mp hx)
  · intro x hborn hgone
    exact hperm.mem_iff.mpr (hr.stays x hborn hgone)
  · intro x hx
    have hn := (hr.here n (by simp [hready])).1
    obtain hx | hx := hx
    · obtain rfl | hx := List.mem_cons.mp hx
      · exact hn
      · exact hr.born x (.inl hx)
    · exact hr.born x (.inr hx)
  · intro x m hm
    exact (hr.gone x m hm).trans (Nat.le_succ _)
  · intro c hc
    cases hc
    exact ⟨r.ran, rfl⟩

theorem Waits.next (hr : r.Waits) (hm : r.Members) (hready : r.ready = n :: q) : r.next.Waits := by
  have hnodup := hm.nodup
  rw [hready] at hnodup
  rw [next_cons hready]
  intro before x after mid earlier y b hsplit hran hmid hb hle
  have hx : x ∈ q ++ r.cur.toList := by
    rw [show q ++ r.cur.toList = before ++ x :: after from hsplit]
    simp
  have hne : ∀ z ∈ q ++ r.cur.toList, z ≠ n := by
    rintro z hz rfl
    have hperm : (r.cur.toList ++ z :: q).Perm (z :: q ++ r.cur.toList) := List.perm_append_comm
    exact (List.nodup_cons.mp (hperm.nodup_iff.mp hnodup)).1 hz
  -- the new turn is not the last one of `x`
  obtain ⟨rest, rfl, hturns⟩ : ∃ rest, mid = n :: rest ∧ r.ran = rest ++ x :: earlier := by
    cases mid with
    | nil => exact absurd (List.cons.inj hran).1.symm (hne x hx)
    | cons m rest =>
        obtain ⟨rfl, hrest⟩ := List.cons.inj hran
        exact ⟨rest, rfl, hrest⟩
  have hrest : x ∉ rest := fun hmem => hmid (List.mem_cons_of_mem n hmem)
  have hcount : ∀ z ∈ q ++ r.cur.toList, (n :: rest).count z = rest.count z := fun z hz =>
    List.count_cons_of_ne (hne z hz).symm
  have hsub : ∀ z ∈ before, z ∈ q ++ r.cur.toList := fun z hz => by
    rw [show q ++ r.cur.toList = before ++ x :: after from hsplit]
    exact List.mem_append_left _ hz
  have hsub' : ∀ z ∈ after, z ∈ q ++ r.cur.toList := fun z hz => by
    rw [show q ++ r.cur.toList = before ++ x :: after from hsplit]
    exact List.mem_append_right _ (List.mem_cons_of_mem x hz)
  -- either `x` was in the queue before, or it had the turn that ends
  have hcase : (∃ rest', q = before ++ x :: rest' ∧ after = rest' ++ r.cur.toList) ∨
      q = before ∧ r.cur = some x ∧ after = [] := by
    cases hc : r.cur with
    | none =>
        rw [hc] at hsplit
        exact .inl ⟨after, by simpa using hsplit, by simp⟩
    | some c =>
        rw [hc] at hsplit
        obtain h | ⟨h, rfl, h'⟩ := concat_eq_split hsplit
        · exact .inl h
        · exact .inr ⟨h, rfl, h'⟩
  obtain ⟨rest', rfl, rfl⟩ | ⟨rfl, hc, rfl⟩ := hcase
  · obtain ⟨hbefore, hafter⟩ := hr (n :: before) x rest' rest earlier y b hready hturns hrest hb hle
    refine ⟨fun hy => ?_, ?_⟩
    · rw [hcount y (hsub y hy)]
      exact hbefore (List.mem_cons_of_mem n hy)
    · rintro (hy | hy)
      · rw [hcount y (hsub' y hy)]
        refine hafter ?_
        simpa using hy
      · cases hy
        rw [List.count_cons_self, hbefore List.mem_cons_self]
  · -- its last turn is the one that ends
    obtain ⟨turns, hturn⟩ := hm.turn x hc
    obtain rfl : rest = [] := by
      cases rest with
      | nil => rfl
      | cons z rest =>
          rw [hturns] at hturn
          exact absurd (List.mem_cons.mpr (.inl (List.cons.inj hturn).1.symm)) hrest
    refine ⟨fun hy => ?_, ?_⟩
    · rw [hcount y (hsub y hy)]
      rfl
    · rintro (hy | hy)
      · cases hy
      · cases hy
        exact List.count_singleton_self

theorem Fair.next (hr : r.Fair) : r.next.Fair := by
  match hready : r.ready with
  | [] =>
      rw [show r.next = r by simp [Rotation.next, hready]]
      exact hr
  | n :: q =>
      refine ⟨hr.members.next hready, hr.waits.next hr.members hready, ?_⟩
      rw [next_cons hready]
      intro later mid earlier t u b hran hmid hne hb hle hgone
      cases later with
      | cons z later =>
          exact hr.roundRobin later mid earlier t u b (List.cons.inj hran).2 hmid hne hb hle hgone
      | nil =>
          obtain ⟨rfl, hran⟩ := List.cons.inj hran
          have hlen := congrArg List.length hran
          simp only [List.length_append, List.length_cons] at hlen
          have hstay : r.gone u = none := by
            cases hu : r.gone u with
            | none => rfl
            | some m =>
                have := hgone m hu
                have := hr.members.gone u m hu
                omega
          have hmem := hr.members.stays u (by simp [show r.born u = some b from hb]) hstay
          refine (hr.waits [] n q mid earlier u b hready hran hmid hb hle).2 ?_
          simp only [hready, List.mem_append, List.mem_cons, hne, false_or,
            Option.mem_toList] at hmem
          exact hmem.symm

end Next

end Rotation

end Library
