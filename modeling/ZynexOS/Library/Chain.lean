import Mathlib

/-!
# Linked lists

`Chain next head l`: following the links from `head` visits the members of `l` in order and then ends.
-/

namespace Library

variable {ι : Type*} {next next' : ι → Option ι} {head : Option ι} {l : List ι} {x : ι}

def Chain (next : ι → Option ι) : Option ι → List ι → Prop
  | head, [] => head = none
  | head, x :: l => head = some x ∧ Chain next (next x) l

theorem Chain.congr (hchain : Chain next head l) (hsame : ∀ x ∈ l, next' x = next x) :
    Chain next' head l := by
  induction l generalizing head with
  | nil => exact hchain
  | cons x l ih =>
      refine ⟨hchain.1, ?_⟩
      rw [hsame x List.mem_cons_self]
      exact ih hchain.2 fun y hy => hsame y (List.mem_cons_of_mem x hy)

theorem Chain.exists_cons (hchain : Chain next (some x) l) :
    ∃ l', l = x :: l' ∧ Chain next (next x) l' := by
  cases l with
  | nil => cases hchain
  | cons y l =>
      obtain ⟨hhead, hrest⟩ := hchain
      cases hhead
      exact ⟨l, rfl, hrest⟩

theorem Chain.unique {l' : List ι} (hchain : Chain next head l) (hchain' : Chain next head l') :
    l = l' := by
  induction l generalizing head l' with
  | nil =>
      cases l' with
      | nil => rfl
      | cons x l' => exact absurd (hchain.symm.trans hchain'.1) nofun
  | cons x l ih =>
      obtain ⟨rfl, hrest⟩ := hchain
      obtain ⟨l'', rfl, hrest'⟩ := hchain'.exists_cons
      rw [ih hrest hrest']

theorem Chain.snoc {y : ι} (hchain : Chain next head (l ++ [x])) (hsame : ∀ z ∈ l, next' z = next z)
    (hx : next' x = some y) (hy : next' y = none) : Chain next' head (l ++ [x] ++ [y]) := by
  induction l generalizing head with
  | nil => exact ⟨hchain.1, hx, hy⟩
  | cons z l ih =>
      refine ⟨hchain.1, ?_⟩
      rw [hsame z List.mem_cons_self]
      exact ih hchain.2 fun w hw => hsame w (List.mem_cons_of_mem z hw)

theorem Chain.subset {S : ι → Prop} (hchain : Chain next head l) (hhead : ∀ x, head = some x → S x)
    (hnext : ∀ x y, S x → next x = some y → S y) : ∀ x ∈ l, S x := by
  induction l generalizing head with
  | nil => nofun
  | cons x l ih =>
      have hx := hhead x hchain.1
      intro y hy
      obtain rfl | hy := List.mem_cons.mp hy
      · exact hx
      · exact ih hchain.2 (fun z => hnext x z hx) y hy

theorem Chain.next_mem (hchain : Chain next head l) (hx : x ∈ l) :
    (next x = none ∧ ∃ l', l = l' ++ [x]) ∨ ∃ y ∈ l, next x = some y := by
  induction l generalizing head with
  | nil => cases hx
  | cons z l ih =>
      obtain ⟨-, hrest⟩ := hchain
      obtain rfl | hx := List.mem_cons.mp hx
      · cases l with
        | nil => exact .inl ⟨hrest, [], rfl⟩
        | cons y l => exact .inr ⟨y, by simp, hrest.1⟩
      · obtain ⟨hnone, l', rfl⟩ | ⟨y, hy, hnext⟩ := ih hrest hx
        · exact .inl ⟨hnone, z :: l', rfl⟩
        · exact .inr ⟨y, List.mem_cons_of_mem z hy, hnext⟩

theorem Chain.last (hchain : Chain next head (l ++ [x])) : next x = none := by
  induction l generalizing head with
  | nil => exact hchain.2
  | cons z l ih => exact ih hchain.2

theorem not_chain_of_closed {S : ι → Prop} (hx : S x) (hclosed : ∀ x, S x → ∃ y, next x = some y ∧ S y) :
    ¬Chain next (some x) l := by
  intro hchain
  induction l generalizing x with
  | nil => cases hchain
  | cons z l ih =>
      obtain ⟨hz, hrest⟩ := hchain
      cases hz
      obtain ⟨y, hy, hS⟩ := hclosed z hx
      rw [hy] at hrest
      exact ih hS hrest

theorem chain_range' {m n : Nat} (i : Nat) (hi : i + n = m) :
    Chain (fun e => if e + 1 < m then some (e + 1) else none) (if i < m then some i else none)
      (List.range' i n) := by
  induction n generalizing i with
  | zero => exact if_neg (by omega)
  | succ n ih => exact ⟨if_pos (by omega), ih (i + 1) (by omega)⟩

end Library
