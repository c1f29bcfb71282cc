import ZynexOS.Library.Window

/-!
# Console input

The ring of `kern/console.c` between the serial port and `cons_getc`. `InputQueue` is what it is for.
-/

namespace ZynexOS

open Library

def consBufSize : Nat := 512

structure Cons where
  buf : Nat → BitVec 8
  rpos : Nat
  wpos : Nat
  rbound : rpos < consBufSize
  wbound : wpos < consBufSize

def nextPos (pos : Nat) : Nat := if pos + 1 = consBufSize then 0 else pos + 1

theorem nextPos_lt {pos : Nat} (hpos : pos < consBufSize) : nextPos pos < consBufSize := by
  unfold nextPos
  split
  · decide
  · omega

namespace Cons

def zeroed : Cons where
  buf _ := 0
  rpos := 0
  wpos := 0
  rbound := by decide
  wbound := by decide

def store (cons : Cons) (c : BitVec 8) : Cons where
  buf := Function.update cons.buf cons.wpos c
  rpos := cons.rpos
  wpos := nextPos cons.wpos
  rbound := cons.rbound
  wbound := nextPos_lt cons.wbound

def intr (cons : Cons) : List (BitVec 8) → Cons
  | [] => cons
  | c :: port => if c = 0 then cons.intr port else (cons.store c).intr port

def take (cons : Cons) : BitVec 8 × Cons :=
  if cons.rpos ≠ cons.wpos then
    (cons.buf cons.rpos, { cons with rpos := nextPos cons.rpos, rbound := nextPos_lt cons.rbound })
  else (0, cons)

end Cons

inductive ConsEvent where
  | arrive (c : BitVec 8)
  | intr
  | getc
deriving DecidableEq, Repr

structure ConsPort where
  cons : Cons
  port : List (BitVec 8)
  out : List (BitVec 8)

namespace ConsPort

def step (s : ConsPort) : ConsEvent → ConsPort
  | .arrive c => { s with port := s.port ++ [c] }
  | .intr => { s with cons := s.cons.intr s.port, port := [] }
  | .getc =>
      { cons := (s.cons.intr s.port).take.2
        port := []
        out := s.out ++ [(s.cons.intr s.port).take.1] }

def start (cons : Cons) : ConsPort := ⟨cons, [], []⟩

def run (s : ConsPort) (events : List ConsEvent) : ConsPort := events.foldl step s

end ConsPort

/-! ### The reference -/

structure InputQueue where
  pending : List (BitVec 8)
  out : List (BitVec 8)

namespace InputQueue

def step (q : InputQueue) : ConsEvent → InputQueue
  | .arrive c => if c = 0 then q else { q with pending := q.pending ++ [c] }
  | .intr => q
  | .getc => ⟨q.pending.tail, q.out ++ [q.pending.headD 0]⟩

def empty : InputQueue := ⟨[], []⟩

def run (q : InputQueue) (events : List ConsEvent) : InputQueue := events.foldl step q

end InputQueue

/-- `cons_getc` returns the characters that were received, in order, and 0 only if there is none. -/
def ConsRight (cons : Cons) (events : List ConsEvent) : Prop :=
  ((ConsPort.start cons).run events).out = (InputQueue.empty.run events).out

def ConsRoom (events : List ConsEvent) : Prop :=
  ∀ before, before <+: events → (InputQueue.empty.run before).pending.length < consBufSize

end ZynexOS
