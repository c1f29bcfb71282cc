import ZynexOS.Lib.Strings

/-!
# Command line options

`none` is what a call is worth that reads or moves words outside the array, goes through a null pointer,
or runs past the end of a string. `flags` and `operands` are what a caller expects.
-/

namespace ZynexOS

def dash : BitVec 8 := 45

structure Argstate where
  argc : Nat
  argv : Option (List (Option CStr))
  curarg : Option CStr
  argvalue : Option CStr
deriving DecidableEq

def argstart (argc : Nat) (argv : Option (List (Option CStr))) : Argstate where
  argc := argc
  argv := argv
  curarg := if 1 < argc ∧ argv.isSome then some .empty else none
  argvalue := none

namespace Argstate

def first (args : Argstate) : Option CStr := do
  let argv ← args.argv
  (argv[1]?).join

def memmove (argv : List (Option CStr)) (dst src n : Nat) : Option (List (Option CStr)) :=
  if src + n ≤ argv.length ∧ dst + n ≤ argv.length then
    some (argv.take dst ++ (argv.drop src).take n ++ argv.drop (dst + n))
  else none

def shift (args : Argstate) : Option Argstate := do
  let argv ← args.argv
  let argv ← memmove argv 1 2 (args.argc - 1)
  return { args with argc := args.argc - 1, argv := some argv }

def atEnd (args : Argstate) : Option Bool :=
  if args.argc = 1 then some true
  else do
    let arg ← args.first
    if (← arg.char 0) ≠ dash then return true
    return (← arg.char 1) = 0

def endOfArgs (args : Argstate) : Option (Int × Argstate) :=
  some (-1, { args with curarg := none })

def takeFlag (args : Argstate) (curarg : CStr) : Option (Int × Argstate) := do
  let c ← curarg.char 0
  return (c.toNat, { args with curarg := some (← curarg.rest) })

def nextArg (args : Argstate) : Option (Int × Argstate) := do
  if ← args.atEnd then
    args.endOfArgs
  else
    let curarg ← (← args.first).rest
    let args ← args.shift
    if (← curarg.char 0) = dash then
      if (← curarg.char 1) = 0 then args.endOfArgs else args.takeFlag curarg
    else args.takeFlag curarg

end Argstate

def argnext (args : Argstate) : Option (Int × Argstate) :=
  let args := { args with argvalue := none }
  match args.curarg with
  | none => some (-1, args)
  | some curarg => do
      if (← curarg.char 0) = 0 then args.nextArg else args.takeFlag curarg

def argnextvalue (args : Argstate) : Option (Option CStr × Argstate) :=
  match args.curarg with
  | none => some (none, args)
  | some curarg => do
      if (← curarg.char 0) ≠ 0 then
        return (some curarg, { args with argvalue := some curarg, curarg := some .empty })
      else if 1 < args.argc then
        let value ← args.first
        return (some value, { ← args.shift with argvalue := some value })
      else return (none, { args with argvalue := none, curarg := none })

def argvalue (args : Argstate) : Option (Option CStr × Argstate) :=
  match args.argvalue with
  | some value => some (some value, args)
  | none => argnextvalue args

inductive ArgCall where
  | argnext
  | argvalue
  | argnextvalue
deriving DecidableEq, Repr

def afterCall (args : Argstate) : ArgCall → Option Argstate
  | .argnext => (argnext args).map (·.2)
  | .argvalue => (argvalue args).map (·.2)
  | .argnextvalue => (argnextvalue args).map (·.2)

def argnexts : Nat → Argstate → Option (List Int × Argstate)
  | 0, args => some ([], args)
  | n + 1, args => do
      let (c, args) ← argnext args
      let (cs, args) ← argnexts n args
      return (c :: cs, args)

def argsOf (argv : List CStr) : Argstate :=
  argstart argv.length (some (argv.map some ++ [none]))

def Argstate.Holds (args : Argstate) (argv : List CStr) : Prop :=
  args.argc = argv.length ∧ ∃ beyond, args.argv = some (argv.map some ++ none :: beyond)

/-! ### The reference -/

def isCluster (arg : CStr) : Bool :=
  arg.chars.head? = some dash ∧ 2 ≤ arg.chars.length ∧ arg.chars ≠ [dash, dash]

def flags (args : List CStr) : List Int :=
  ((args.takeWhile isCluster).flatMap fun arg => arg.chars.tail).map fun c => (c.toNat : Int)

def operands (args : List CStr) : List CStr :=
  match args.dropWhile isCluster with
  | [] => []
  | arg :: args => if arg.chars = [dash, dash] then args else arg :: args

end ZynexOS
