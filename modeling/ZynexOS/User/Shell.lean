import ZynexOS.Lib.Strings

/-!
# The shell's tokens

`_gettoken` and `gettoken` of `user/sh.c`. A pointer into the line is an index, `NULL` is `none`, and
`none` is also a read outside of it. The texts printed for debugging are left out.
-/

namespace ZynexOS

open Library

/-- `WHITESPACE`: blank, tab, carriage return and newline. -/
def whitespace : List (BitVec 8) := [32, 9, 13, 10]

/-- `SYMBOLS`: `<|>&;()`. -/
def symbols : List (BitVec 8) := [60, 124, 62, 38, 59, 40, 41]

/-- `while (strchr(WHITESPACE, *s)) *s++ = 0`. -/
def skipBlanks (mem : List (BitVec 8)) (s : Nat) : Option (List (BitVec 8) × Nat) :=
  fillWhile (fun c => (strchr whitespace c).isSome) 0 mem s

/-- `while (*s && !strchr(WHITESPACE SYMBOLS, *s)) s++`. -/
def skipWord (mem : List (BitVec 8)) (s : Nat) : Option Nat :=
  skipWhile (fun c => c ≠ 0 ∧ (strchr (whitespace ++ symbols) c).isNone) mem s

structure Lexer where
  mem : List (BitVec 8)
  nc : Int
  np1 : Option Nat
  np2 : Option Nat

def wordCode : Int := 119

def scanToken (lexer : Lexer) (s : Option Nat) : Option Lexer :=
  match s with
  | none => some { lexer with nc := 0 }
  | some s => do
      let (mem, s) ← skipBlanks lexer.mem s
      let c ← mem[s]?
      if c = 0 then
        return ⟨mem, 0, none, none⟩
      else if (strchr symbols c).isSome then
        return ⟨mem.set s 0, c.toNat, some s, some (s + 1)⟩
      else
        let p2 ← skipWord mem s
        return ⟨mem, wordCode, some s, some p2⟩

def gettokenStart (lexer : Lexer) (s : Nat) : Option Lexer := scanToken lexer (some s)

def gettoken (lexer : Lexer) : Option ((Int × Option Nat) × Lexer) := do
  let c := lexer.nc
  let t := lexer.np1
  return ((c, t), ← scanToken lexer lexer.np2)

def cstringAt (mem : List (BitVec 8)) (p : Nat) : Option (List (BitVec 8)) :=
  let s := mem.drop p
  if 0 ∈ s then some (s.takeWhile (· ≠ 0)) else none

/-- `n` calls of `gettoken(0, &t)`: each token with, if it is a word, the string at `t` at the time of
the return. -/
def gettokens : Nat → Lexer → Option (List (Int × Option (List (BitVec 8))) × Lexer)
  | 0, lexer => some ([], lexer)
  | n + 1, lexer => do
      let ((c, t), lexer) ← gettoken lexer
      let text := if c = wordCode then t.bind (cstringAt lexer.mem) else none
      let (rest, lexer) ← gettokens n lexer
      return ((c, text) :: rest, lexer)

/-! ### The reference -/

inductive Token where
  | symbol (c : BitVec 8)
  | word (text : List (BitVec 8))
deriving DecidableEq, Repr

def Token.result : Token → Int × Option (List (BitVec 8))
  | symbol c => (c.toNat, none)
  | word text => (wordCode, some text)

def isPlain (c : BitVec 8) : Bool := c ∉ whitespace ∧ c ∉ symbols

/-- The symbols and the maximal runs of plain characters. -/
def tokens : List (BitVec 8) → List Token
  | [] => []
  | c :: line =>
      if c ∈ whitespace then tokens line
      else if c ∈ symbols then .symbol c :: tokens line
      else .word (c :: line.takeWhile isPlain) :: tokens (line.dropWhile isPlain)
termination_by line => line.length
decreasing_by
  all_goals simp only [List.length_cons]
  · omega
  · omega
  · exact Nat.lt_succ_of_le (List.dropWhile_suffix isPlain).length_le

end ZynexOS
