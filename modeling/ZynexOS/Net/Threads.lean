import ZynexOS.Library.Chain
import ZynexOS.Library.Run

/-!
# Threads of the network server

`net/lwip/jos/arch/thread.c`, with the queues of `threadq.h`. A thread is the address of its context.
The last pointer of an empty queue is left as it was. A context is freed by the next thread that halts,
and `malloc` may hand it out again, but never one that is in use.
-/

namespace ZynexOS

open Library

structure ThreadQueue where
  tqFirst : Option Nat
  tqLast : Option Nat

def threadqInit : ThreadQueue := { tqFirst := none, tqLast := none }

/-- `threadq_push`, on the links of all contexts; `none` is a store through a null pointer. -/
def threadqPush (link : Nat → Option Nat) (tq : ThreadQueue) (tc : Nat) :
    Option ((Nat → Option Nat) × ThreadQueue) :=
  let link := Function.update link tc none
  match tq.tqFirst with
  | none => some (link, { tqFirst := some tc, tqLast := some tc })
  | some _ =>
      match tq.tqLast with
      | none => none
      | some last => some (Function.update link last (some tc), { tq with tqLast := some tc })

def threadqPop (link : Nat → Option Nat) (tq : ThreadQueue) :
    Option (Nat × (Nat → Option Nat) × ThreadQueue) :=
  match tq.tqFirst with
  | none => none
  | some tc => some (tc, Function.update link tc none, { tq with tqFirst := link tc })

/-- Up to `exited` the variables of the program, with `tc_tid` and `tc_queue_link` of each context. The
rest is history: `live` are the contexts of threads that have been created and not been cleaned; a tid
is ready since the `since`-th of the `pushes` on `thread_queue`; `ran` lists the tids that were given
control, newest first; `born` and `halted` say how many had been when the thread was created and when it
halted. -/
structure Threads where
  tid : Nat → Nat
  link : Nat → Option Nat
  threadQueue : ThreadQueue
  killQueue : ThreadQueue
  curTc : Option Nat
  maxTid : Nat
  exited : Bool
  live : Nat → Bool
  since : Nat → Nat
  pushes : Nat
  ran : List Nat
  born : Nat → Option Nat
  halted : Nat → Option Nat

/-- The running thread, or the main program before there is one, makes a call. For `thread_create`, `tc`
and `stack` say what the two calls of `malloc` return. -/
inductive ThreadEvent where
  | create (tc : Option Nat) (stack : Bool)
  | yield
  | halt

namespace Threads

def pushReady (s : Threads) (tc : Nat) : Option Threads :=
  match threadqPush s.link s.threadQueue tc with
  | none => none
  | some (link, tq) =>
      some { s with
        link := link
        threadQueue := tq
        since := Function.update s.since (s.tid tc) s.pushes
        pushes := s.pushes + 1 }

def dispatch (s : Threads) (tc : Nat) : Threads :=
  { s with curTc := some tc, ran := s.tid tc :: s.ran }

def threadYield (s : Threads) : Option Threads :=
  match threadqPop s.link s.threadQueue with
  | none => some s
  | some (next, link, tq) =>
      let s := { s with link := link, threadQueue := tq }
      match s.curTc with
      | none => some (s.dispatch next)
      | some cur =>
          match s.pushReady cur with
          | none => none
          | some s => some (s.dispatch next)

def threadClean (s : Threads) : Threads :=
  match threadqPop s.link s.killQueue with
  | none => s
  | some (tc, link, tq) =>
      { s with link := link, killQueue := tq, live := Function.update s.live tc false }

/-- `thread_halt`. The main program has no context. -/
def threadHalt (s : Threads) : Option Threads :=
  match s.curTc with
  | none => none
  | some cur =>
      let s := s.threadClean
      match threadqPush s.link s.killQueue cur with
      | none => none
      | some (link, tq) =>
          let s := { s with
            link := link
            killQueue := tq
            curTc := none
            halted := Function.update s.halted (s.tid cur) (some s.ran.length) }
          match s.threadYield with
          | none => none
          | some s => some { s with exited := decide (s.curTc = none) }

def threadCreate (s : Threads) (tc : Option Nat) (stack : Bool) : Option Threads :=
  match tc with
  | none => some s
  | some tc =>
      if s.live tc then none
      else if s.maxTid + 1 = 2 ^ 32 - 1 then none
      else
        let tid := s.maxTid
        let s := { s with
          link := Function.update s.link tc none
          tid := Function.update s.tid tc tid
          maxTid := s.maxTid + 1 }
        if stack then
          { s with
            live := Function.update s.live tc true
            born := Function.update s.born tid (some s.ran.length) }.pushReady tc
        else some s

def exec (s : Threads) (event : ThreadEvent) : Option Threads :=
  if s.exited then none
  else
    match event with
    | .create tc stack => s.threadCreate tc stack
    | .yield => s.threadYield
    | .halt => s.threadHalt

def Step (s : Threads) (event : ThreadEvent) (s' : Threads) : Prop := s.exec event = some s'

structure Starts (s : Threads) : Prop where
  threadQueue : s.threadQueue = threadqInit
  killQueue : s.killQueue.tqFirst = none
  curTc : s.curTc = none
  maxTid : s.maxTid = 0
  live : ∀ tc, s.live tc = false
  ran : s.ran = []
  born : ∀ t, s.born t = none
  halted : ∀ t, s.halted t = none

/-- Every thread is in one place: it is current, or on one of the queues, and only once. The queue of
ready threads is in the order in which they became ready. -/
structure Placed (s : Threads) (ready killed : List Nat) : Prop where
  threadQueue : Chain s.link s.threadQueue.tqFirst ready
  killQueue : Chain s.link s.killQueue.tqFirst killed
  once : ∀ tc, s.live tc = true →
    (if s.curTc = some tc then 1 else 0) + ready.count tc + killed.count tc = 1
  live : ∀ tc, s.curTc = some tc ∨ tc ∈ ready ∨ tc ∈ killed → s.live tc = true
  order : ready.Pairwise fun tc tc' => s.since (s.tid tc) < s.since (s.tid tc')

/-- Between two consecutive times that the thread `t` is given control, each other thread `u` that was
created before the first and has not halted before the second is given control once. -/
def RoundRobin (s : Threads) : Prop :=
  ∀ later mid earlier t u b, s.ran = later ++ t :: (mid ++ t :: earlier) → t ∉ mid → u ≠ t →
    s.born u = some b → b ≤ earlier.length →
    (∀ n, s.halted u = some n → earlier.length + mid.length + 1 < n) → mid.count u = 1

/-- A call returns, to its caller or to another thread: no queue operation goes through a null pointer.
`thread_halt` is for threads, `malloc` returns a context that is not in use, and `alloc_tid` gives out
`2 ^ 32 - 2` ids. -/
structure Returns (s : Threads) : Prop where
  create : ∀ tc stack, (∀ a, tc = some a → s.live a = false) → s.maxTid + 1 ≠ 2 ^ 32 - 1 →
    ∃ s', s.threadCreate tc stack = some s'
  yield : ∃ s', s.threadYield = some s'
  halt : s.curTc ≠ none → ∃ s', s.threadHalt = some s'

structure Scheduled (s : Threads) : Prop where
  placed : ∃ ready killed, s.Placed ready killed
  roundRobin : s.RoundRobin
  returns : s.Returns

end Threads

end ZynexOS
