import Mathlib

/-!
# Scans

Loops that advance a position in a finite memory while the element there passes a test.
-/

namespace Library

variable {α : Type*} (p : α → Bool)

def skipWhile (mem : List α) (s : Nat) : Option Nat :=
  if h : s < mem.length then if p mem[s] then skipWhile mem (s + 1) else some s else none
termination_by mem.length - s

def fillWhile (z : α) (mem : List α) (s : Nat) : Option (List α × Nat) :=
  if h : s < mem.length then
    if p mem[s] then fillWhile z (mem.set s z) (s + 1) else some (mem, s)
  else none
termination_by mem.length - s
decreasing_by
  rw [List.length_set]
  omega

variable {p}

theorem skipWhile_cons (before after : List α) (c : α) :
    skipWhile p (before ++ c :: after) before.length =
      if p c then skipWhile p ((before ++ [c]) ++ after) (before ++ [c]).length
      else some before.length := by
  rw [skipWhile, dif_pos (by simp)]
  simp only [List.getElem_append_right (Nat.le_refl _), Nat.sub_self, List.getElem_cons_zero,
    List.append_assoc, List.singleton_append, List.length_append, List.length_singleton]

theorem skipWhile_append (before after : List α) {passed : List α} {c : α}
    (hpassed : ∀ b ∈ passed, p b) (hc : ¬p c) :
    skipWhile p (before ++ (passed ++ c :: after)) before.length =
      some (before.length + passed.length) := by
  induction passed generalizing before with
  | nil =>
      rw [List.nil_append, skipWhile_cons, if_neg hc]
      rfl
  | cons b passed ih =>
      rw [List.cons_append, skipWhile_cons, if_pos (hpassed b List.mem_cons_self),
        ih (before ++ [b]) fun b hb => hpassed b (List.mem_cons_of_mem _ hb)]
      rw [List.length_append, List.length_singleton, List.length_cons, Nat.add_assoc, Nat.add_comm 1]

theorem fillWhile_cons (z : α) (before after : List α) (c : α) :
    fillWhile p z (before ++ c :: after) before.length =
      if p c then fillWhile p z ((before ++ [z]) ++ after) (before ++ [z]).length
      else some (before ++ c :: after, before.length) := by
  rw [fillWhile, dif_pos (by simp)]
  simp only [List.getElem_append_right (Nat.le_refl _), Nat.sub_self, List.getElem_cons_zero,
    List.set_append_right _ _ (Nat.le_refl _), List.set_cons_zero,
    List.append_assoc, List.singleton_append, List.length_append, List.length_singleton]

theorem fillWhile_append (z : α) (before after : List α) {passed : List α} {c : α}
    (hpassed : ∀ b ∈ passed, p b) (hc : ¬p c) :
    fillWhile p z (before ++ (passed ++ c :: after)) before.length =
      some (before ++ (List.replicate passed.length z ++ c :: after),
        before.length + passed.length) := by
  induction passed generalizing before with
  | nil =>
      rw [List.nil_append, fillWhile_cons, if_neg hc]
      rfl
  | cons b passed ih =>
      rw [List.cons_append, fillWhile_cons, if_pos (hpassed b List.mem_cons_self),
        ih (before ++ [z]) fun b hb => hpassed b (List.mem_cons_of_mem _ hb)]
      rw [List.length_append, List.length_singleton, List.length_cons, List.replicate_succ,
        List.append_assoc, List.singleton_append, List.cons_append, Nat.add_assoc, Nat.add_comm 1]

theorem head_dropWhile_not (line : List α) : ∀ c ∈ (line.dropWhile p).head?, ¬p c := by
  intro c hc
  have hnot := List.head?_dropWhile_not p line
  rw [hc] at hnot
  simpa using hnot

section Terminated

variable (before after line : List α) {z : α} (hz : ¬p z)

include hz

theorem skipWhile_terminated :
    skipWhile p (before ++ (line ++ z :: after)) before.length =
      some (before ++ line.takeWhile p).length := by
  have hpassed : ∀ b ∈ line.takeWhile p, p b := fun b hb => List.mem_takeWhile_imp hb
  rw [List.length_append]
  have hsplit : line ++ z :: after = line.takeWhile p ++ (line.dropWhile p ++ z :: after) := by
    rw [← List.append_assoc, List.takeWhile_append_dropWhile]
  rw [hsplit]
  have hstop := head_dropWhile_not (p := p) line
  cases hrest : line.dropWhile p with
  | nil => exact skipWhile_append before after hpassed hz
  | cons c rest => exact skipWhile_append before (rest ++ z :: after) hpassed (hstop c (by simp [hrest]))

theorem fillWhile_terminated (w : α) :
    fillWhile p w (before ++ (line ++ z :: after)) before.length =
      some ((before ++ List.replicate (line.takeWhile p).length w) ++
          (line.dropWhile p ++ z :: after),
        (before ++ List.replicate (line.takeWhile p).length w).length) := by
  have hpassed : ∀ b ∈ line.takeWhile p, p b := fun b hb => List.mem_takeWhile_imp hb
  rw [List.length_append, List.length_replicate, List.append_assoc]
  have hsplit : line ++ z :: after = line.takeWhile p ++ (line.dropWhile p ++ z :: after) := by
    rw [← List.append_assoc, List.takeWhile_append_dropWhile]
  rw [hsplit]
  have hstop := head_dropWhile_not (p := p) line
  cases hrest : line.dropWhile p with
  | nil => exact fillWhile_append w before after hpassed hz
  | cons c rest =>
      exact fillWhile_append w before (rest ++ z :: after) hpassed (hstop c (by simp [hrest]))

end Terminated

end Library
