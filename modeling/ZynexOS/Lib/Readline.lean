import Mathlib

/-!
# Line input

`readline` of `lib/readline.c`. What `getchar` returns is a character or, below 0, an error code. The
echo on the console has no effect on the line. `edit` is the editor that a user expects.
-/

namespace ZynexOS

def bufLen : Nat := 1024

def backspace : Int := 8

def delete : Int := 127

structure LineBuf where
  buf : Nat → BitVec 8
  i : Nat
  fits : i < bufLen

namespace LineBuf

def pop (line : LineBuf) : LineBuf where
  buf := line.buf
  i := line.i - 1
  fits := (Nat.sub_le line.i 1).trans_lt line.fits

def push (line : LineBuf) (c : Int) (hroom : line.i < bufLen - 1) : LineBuf where
  buf := Function.update line.buf line.i (BitVec.ofInt 8 c)
  i := line.i + 1
  fits := by omega

def finish (line : LineBuf) : Nat → BitVec 8 := Function.update line.buf line.i 0

end LineBuf

inductive Readline where
  | line (buf : Nat → BitVec 8)
  | null
  | waits (line : LineBuf)

def readlineLoop : List Int → LineBuf → Readline
  | [], line => .waits line
  | c :: input, line =>
      if c < 0 then .null
      else if (c = backspace ∨ c = delete) ∧ 0 < line.i then readlineLoop input line.pop
      else if hroom : 32 ≤ c ∧ line.i < bufLen - 1 then readlineLoop input (line.push c hroom.2)
      else if c = 10 ∨ c = 13 then .line line.finish
      else readlineLoop input line

/-- `readline`; `buf` is static, so it begins as the previous call left it. -/
def readline (buf : Nat → BitVec 8) (input : List Int) : Readline :=
  readlineLoop input ⟨buf, 0, by decide⟩

/-! ### The reference -/

def editChar (line : List (BitVec 8)) (c : BitVec 8) : List (BitVec 8) :=
  if c = 8 ∨ c = 127 then line.dropLast
  else if 32 ≤ c.toNat ∧ line.length < bufLen - 1 then line ++ [c]
  else line

def edit (input : List (BitVec 8)) : List (BitVec 8) := input.foldl editChar []

def IsText (buf : Nat → BitVec 8) (text : List (BitVec 8)) : Prop :=
  (∀ k (hk : k < text.length), buf k = text[k] ∧ text[k] ≠ 0) ∧ buf text.length = 0

def chars (input : List (BitVec 8)) : List Int := input.map fun c => (c.toNat : Int)

/-- When the characters in `input` and the end of the line have been typed, `readline` returns the
edited text, which has no control characters and is shorter than the buffer. -/
def ReadsEdited (input : List (BitVec 8)) : Prop :=
  ∀ buf (stop : Int) rest, stop = 10 ∨ stop = 13 →
    ∃ buf' text, readline buf (chars input ++ stop :: rest) = .line buf' ∧ IsText buf' text ∧
      text = edit input ∧ (∀ c ∈ text, 32 ≤ c.toNat ∧ c ≠ 127) ∧ text.length < bufLen

def LineEnd (c : BitVec 8) : Prop := c = 10 ∨ c = 13

def OneLine (input : List (BitVec 8)) : Prop := ∀ c ∈ input, ¬LineEnd c

def NoDelOnEmpty (input : List (BitVec 8)) : Prop :=
  ∀ before, before ++ [127] <+: input → edit before ≠ []

end ZynexOS
