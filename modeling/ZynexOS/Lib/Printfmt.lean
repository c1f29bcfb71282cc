import ZynexOS.Kern.Layout
import ZynexOS.Lib.Strings

/-!
# Formatted output

`vprintfmt` of `lib/printfmt.c` with `printnum`. A pointer into the format has the bytes before it
and those from it on, up to the NUL; a read outside of them ends the run, and so does one outside of
`error_string`. Arithmetic of `int` wraps around. The result is what `putch` gets, of which the low
byte counts. `conversions` is the reference.
-/

namespace ZynexOS
namespace Printfmt

def byte (c : Char) : BitVec 8 := BitVec.ofNat 8 c.toNat

structure Args where
  arg : Nat → Word
  str : Word → CStr

def Args.int (args : Args) (ap : Nat) : BitVec 32 := (args.arg ap).setWidth 32

inductive Stop where
  | outside
  | table
  | running
deriving DecidableEq, Repr

structure Flags where
  padc : BitVec 8 := 32
  width : BitVec 32 := -1
  precision : BitVec 32 := -1
  lflag : BitVec 32 := 0
  altflag : Bool := false

inductive Directive where
  | character
  | error
  | string
  | decimal
  | unsigned
  | octal
  | pointer
  | hex
  | percent
deriving DecidableEq, Repr

def Directive.ofByte (ch : BitVec 8) : Option Directive :=
  [(byte 'c', character), (byte 'e', error), (byte 's', string), (byte 'd', decimal),
    (byte 'u', unsigned), (byte 'o', octal), (byte 'p', pointer), (byte 'x', hex),
    (byte '%', percent)].lookup ch

def Directive.takes : Directive → Nat
  | percent => 0
  | _ => 1

/-! ### Output -/

def pad (width : BitVec 32) (padc : BitVec 8) : List (BitVec 8) :=
  List.replicate width.toInt.toNat padc

def digit (d : Nat) : BitVec 8 :=
  if d < 10 then byte '0' + BitVec.ofNat 8 d else byte 'a' + BitVec.ofNat 8 (d - 10)

def printnum (num base : Nat) (width : BitVec 32) (padc : BitVec 8) : List (BitVec 8) :=
  if _h : 1 < base ∧ base ≤ num then
    printnum (num / base) base (width - 1) padc ++ [digit (num % base)]
  else pad (width - 1) padc ++ [digit (num % base)]
termination_by num
decreasing_by exact Nat.div_lt_self (by omega) _h.1

def Args.getuint (args : Args) (ap : Nat) (lflag : BitVec 32) : Word :=
  if lflag = 0 then (args.int ap).setWidth 64 else args.arg ap

def Args.getint (args : Args) (ap : Nat) (lflag : BitVec 32) : Word :=
  if lflag = 0 then (args.int ap).signExtend 64 else args.arg ap

def printDecimal (flags : Flags) (num : Word) : List (BitVec 8) :=
  if num.slt 0 then byte '-' :: printnum (-num).toNat 10 flags.width flags.padc
  else printnum num.toNat 10 flags.width flags.padc

def printString (flags : Flags) (p : List (BitVec 8)) : List (BitVec 8) :=
  let shown := if flags.precision.slt 0 then p else p.take flags.precision.toNat
  let n := BitVec.ofNat 32 shown.length
  let padded := BitVec.slt 0 flags.width && flags.padc != byte '-'
  let width := if padded then flags.width - n else flags.width
  let before := if padded then pad width flags.padc else []
  -- The loop that pads on the left counts `width` down to 0.
  let width := if padded && BitVec.slt 0 width then 0 else width
  let visible := fun ch => if flags.altflag ∧ (ch < byte ' ' ∨ byte '~' < ch) then byte '?' else ch
  before ++ shown.map visible ++ pad (width - n) (byte ' ')

/-- `error_string[err]`; there is no text for `E_WAIT`, which is 16. -/
def errorString : Nat → Option String
  | 0 => none
  | i + 1 => ["unspecified error", "bad environment", "invalid parameter", "out of memory",
      "out of environments", "segmentation fault", "env is not recving", "unexpected end of file",
      "no free space on disk", "too many files are open", "file or block not found",
      "invalid path", "file already exists", "file is not a valid executable",
      "operation not supported"][i]?

def maxError : BitVec 32 := 17

/-- The case `'e'`, with what `printfmt` makes of `"error %d"` and `"%s"`. -/
def printError (err : BitVec 32) : Except Stop (List (BitVec 8)) :=
  let err := if err.slt 0 then -err else err
  let number := ascii "error " ++ printDecimal {} (err.signExtend 64)
  if maxError.sle err then .ok number
  else if err.slt 0 then .error .table
  else .ok ((errorString err.toNat).elim number fun text => printString {} (ascii text))

def print (args : Args) (flags : Flags) (ap : Nat) : Directive → Except Stop (List (BitVec 8))
  | .character => .ok [(args.arg ap).setWidth 8]
  | .error => printError (args.int ap)
  | .string =>
      let p := args.arg ap
      .ok (printString flags (if p = 0 then ascii "(null)" else (args.str p).chars))
  | .decimal => .ok (printDecimal flags (args.getint ap flags.lflag))
  | .unsigned => .ok (printnum (args.getuint ap flags.lflag).toNat 10 flags.width flags.padc)
  | .octal => .ok (printnum (args.getuint ap flags.lflag).toNat 8 flags.width flags.padc)
  | .pointer => .ok (ascii "0x" ++ printnum (args.arg ap).toNat 16 flags.width flags.padc)
  | .hex => .ok (printnum (args.getuint ap flags.lflag).toNat 16 flags.width flags.padc)
  | .percent => .ok [byte '%']

/-! ### The scanner -/

structure Cursor where
  before : List (BitVec 8)
  rest : List (BitVec 8)

def copyText (before : List (BitVec 8)) :
    List (BitVec 8) → Except Stop (List (BitVec 8) × Option Cursor)
  | [] => .error .outside
  | ch :: rest =>
      if ch = byte '%' then .ok ([], some ⟨ch :: before, rest⟩)
      else if ch = 0 then .ok ([], none)
      else do
        let (text, next) ← copyText (ch :: before) rest
        pure (ch :: text, next)

/-- The variables between two rounds of `reswitch`. Within the digits of a number, `number` is
`precision` so far. -/
structure Escape where
  number : Option (BitVec 32) := none
  flags : Flags := {}
  ap : Nat

def isDigit (ch : BitVec 8) : Bool := byte '0' ≤ ch ∧ ch ≤ byte '9'

def Flags.process (flags : Flags) (precision : BitVec 32) : Flags :=
  if flags.width.slt 0 then { flags with width := precision, precision := -1 }
  else { flags with precision := precision }

def Escape.close (esc : Escape) : Flags := esc.number.elim esc.flags esc.flags.process

def modify (args : Args) (flags : Flags) (ap : Nat) (ch : BitVec 8) : Option Escape :=
  if ch = byte '-' ∨ ch = byte '0' then some { flags := { flags with padc := ch }, ap }
  else if isDigit ch then some { number := some (ch.setWidth 32 - 48), flags, ap }
  else if ch = byte '*' then some { flags := flags.process (args.int ap), ap := ap + 1 }
  else if ch = byte '.' then
    some { flags := { flags with width := if flags.width.slt 0 then 0 else flags.width }, ap }
  else if ch = byte '#' then some { flags := { flags with altflag := true }, ap }
  else if ch = byte 'l' then some { flags := { flags with lflag := flags.lflag + 1 }, ap }
  else none

def Escape.next (args : Args) (esc : Escape) (ch : BitVec 8) : Option Escape :=
  match esc.number with
  | some precision =>
      if isDigit ch then
        some { esc with number := some (precision * 10 + (ch.setWidth 32 - 48)) }
      else modify args esc.close esc.ap ch
  | none => modify args esc.close esc.ap ch

def reswitch (args : Args) (esc : Escape) (before : List (BitVec 8)) :
    List (BitVec 8) → Except Stop (BitVec 8 × Escape × Cursor)
  | [] => .error .outside
  | ch :: rest =>
      match esc.next args ch with
      | some esc => reswitch args esc (ch :: before) rest
      | none => .ok (ch, esc, ⟨before, ch :: rest⟩)

def rewind (rest : List (BitVec 8)) : List (BitVec 8) → Except Stop Cursor
  | [] => .error .outside
  | ch :: before => if ch = byte '%' then .ok ⟨ch :: before, rest⟩ else rewind (ch :: rest) before

def vprintfmt (args : Args) : Nat → Nat → Cursor → Except Stop (List (BitVec 8))
  | 0, _, _ => .error .running
  | n + 1, ap, fmt => do
      let (text, next) ← copyText fmt.before fmt.rest
      match next with
      | none => pure text
      | some fmt =>
          let (ch, esc, fmt) ← reswitch args { ap } fmt.before fmt.rest
          match Directive.ofByte ch with
          | some d =>
              let out ← print args esc.close esc.ap d
              let more ← vprintfmt args n (esc.ap + d.takes) ⟨ch :: fmt.before, fmt.rest.tail⟩
              pure (text ++ out ++ more)
          | none =>
              let fmt ← rewind fmt.rest fmt.before
              let more ← vprintfmt args n esc.ap fmt
              pure (text ++ byte '%' :: more)

/-! ### What is expected -/

def start (format : CStr) : Cursor := ⟨[], format.bytes⟩

def isModifier (ch : BitVec 8) : Bool :=
  isDigit ch || [byte '-', byte '*', byte '.', byte '#', byte 'l'].contains ch

/-- The conversions in a format, each with the index of its argument. The first argument tells if an
escape has begun. -/
def conversions : Bool → Nat → List (BitVec 8) → List (Directive × Nat)
  | _, _, [] => []
  | false, ap, ch :: rest => conversions (ch = byte '%') ap rest
  | true, ap, ch :: rest =>
      if isModifier ch then conversions true (ap + if ch = byte '*' then 1 else 0) rest
      else match Directive.ofByte ch with
        | some d => (d, ap) :: conversions false (ap + d.takes) rest
        | none => conversions false ap rest

/-- `vprintfmt` ends and does not leave the format, and it prints a format in which no escape is
known as it is. -/
structure Processes (args : Args) (format : CStr) : Prop where
  ends : ∃ n out, vprintfmt args n 0 (start format) = .ok out
  inside : ∀ n, vprintfmt args n 0 (start format) ≠ .error .outside
  unchanged : conversions false 0 format.bytes = [] → ∀ n out,
    vprintfmt args n 0 (start format) = .ok out → out = format.chars

def ErrorsNegate (args : Args) (convs : List (Directive × Nat)) : Prop :=
  ∀ i, (.error, i) ∈ convs → args.int i ≠ BitVec.intMin 32

end Printfmt
end ZynexOS
