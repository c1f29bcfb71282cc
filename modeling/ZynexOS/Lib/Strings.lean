import ZynexOS.Library.Scan

/-!
# Strings

C strings as values, and `strchr` of `lib/string.c`.
-/

namespace ZynexOS

def ascii (text : String) : List (BitVec 8) := text.toList.map fun c => BitVec.ofNat 8 c.toNat

structure CStr where
  chars : List (BitVec 8)
  noNul : 0 ∉ chars
deriving DecidableEq

namespace CStr

def empty : CStr := ⟨[], List.not_mem_nil⟩

def bytes (s : CStr) : List (BitVec 8) := s.chars ++ [0]

def char (s : CStr) (i : Nat) : Option (BitVec 8) := (s.chars ++ [0])[i]?

def rest (s : CStr) : Option CStr :=
  match s with
  | ⟨[], _⟩ => none
  | ⟨_ :: chars, noNul⟩ => some ⟨chars, fun hmem => noNul (List.mem_cons_of_mem _ hmem)⟩

end CStr

def strchr : List (BitVec 8) → BitVec 8 → Option (List (BitVec 8))
  | [], _ => none
  | d :: s, c => if d = c then some (d :: s) else strchr s c

theorem strchr_isSome {s : List (BitVec 8)} {c : BitVec 8} : (strchr s c).isSome ↔ c ∈ s := by
  induction s with
  | nil => simp [strchr]
  | cons d s ih =>
      rw [strchr, List.mem_cons]
      split
      · next hd => simp [hd]
      · next hd => rw [ih, or_iff_right (Ne.symm hd)]

theorem strchr_isNone {s : List (BitVec 8)} {c : BitVec 8} : (strchr s c).isNone ↔ c ∉ s := by
  rw [← strchr_isSome, ← Option.not_isSome, Bool.not_eq_true', Bool.not_eq_true]

end ZynexOS
