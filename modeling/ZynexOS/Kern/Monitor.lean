import ZynexOS.Lib.Strings

/-!
# The monitor's command line

The parsing of `runcmd` in `kern/monitor.c`, with the indices of `argv` that it stores to. A pointer
into the line is an index; `none` is a read outside of it.
-/

namespace ZynexOS.Monitor

open Library

def whitespace : List (BitVec 8) := [9, 13, 10, 32]

def maxArgs : Nat := 16

def gobble (mem : List (BitVec 8)) (buf : Nat) : Option (List (BitVec 8) × Nat) :=
  fillWhile (fun c => c ≠ 0 ∧ (strchr whitespace c).isSome) 0 mem buf

def passArg (mem : List (BitVec 8)) (buf : Nat) : Option Nat :=
  skipWhile (fun c => c ≠ 0 ∧ (strchr whitespace c).isNone) mem buf

/-- What is left when the line is parsed: `argv[0..argc)`, or nothing after the message that there
are too many arguments. -/
structure Parsed where
  argv : Option (List Nat)
  stores : List Nat

def parseLoop : Nat → List (BitVec 8) → Nat → List Nat → List Nat → Option Parsed
  | 0, _, _, _, _ => none
  | fuel + 1, mem, buf, argv, stores => do
      let (mem, buf) ← gobble mem buf
      if (← mem[buf]?) = 0 then
        return ⟨argv, stores ++ [argv.length]⟩
      else if argv.length = maxArgs - 1 then
        return ⟨none, stores⟩
      else
        let buf' ← passArg mem buf
        parseLoop fuel mem buf' (argv ++ [buf]) (stores ++ [argv.length])

def runcmd (mem : List (BitVec 8)) (buf : Nat) : Option Parsed :=
  parseLoop (mem.length + 1) mem buf [] [0]

end ZynexOS.Monitor
