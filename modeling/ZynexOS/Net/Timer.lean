import ZynexOS.Library.Run

/-!
# The network timer

The kernel's clock, the timer environment and `process_timer` of the network server as one system.
Messages from other environments are skipped on both sides and are left out.
-/

namespace ZynexOS.Timer

open Library

def timerInterval : BitVec 32 := 250

/-- `time_tick`; `none` is its panic. -/
def timeTick (ticks : BitVec 32) : Option (BitVec 32) :=
  if (ticks + 1) * 10 < ticks + 1 then none else some (ticks + 1)

def timeMsec (ticks : BitVec 32) : BitVec 32 :=
  ticks * 10

def processTimer (start now : BitVec 32) : BitVec 32 :=
  timerInterval - (now - start)

inductive Phase where
  | starting
  /-- In the inner loop of `timer`, with a `stop` that was computed when the clock was at `since`. -/
  | waiting (stop : BitVec 32) (since : BitVec 32)
  | requested
  | yielding (start : BitVec 32)
  | replied (value : BitVec 32)
  | panicked
deriving DecidableEq, Repr

structure System where
  ticks : BitVec 32
  phase : Phase
deriving DecidableEq, Repr

inductive Event where
  | tick
  | timerRuns
  | serverRuns
deriving DecidableEq, Repr

def System.now (s : System) : BitVec 32 :=
  timeMsec s.ticks

/-- The next piece of `timer`, up to where it reads the clock again or waits for a message. -/
def System.timer (s : System) : Option System :=
  match s.phase with
  | .starting => some { s with phase := .waiting (s.now + timerInterval) s.now }
  | .waiting stop _ =>
      -- `r` is an `int`, `stop` a `uint32_t`: the comparison of the two is unsigned.
      if s.now < stop ∧ 0 ≤ s.now.toInt then some s
      else if s.now.toInt < 0 then some { s with phase := .panicked }
      else some { s with phase := .requested }
  | .replied value => some { s with phase := .waiting (s.now + value) s.now }
  | _ => none

/-- The next piece of the server: `process_timer` up to its `thread_yield`, and the rest of it. -/
def System.serve (s : System) : Option System :=
  match s.phase with
  | .requested => some { s with phase := .yielding s.now }
  | .yielding start => some { s with phase := .replied (processTimer start s.now) }
  | _ => none

def System.exec (s : System) : Event → Option System
  | .tick => (timeTick s.ticks).map fun ticks => { s with ticks }
  | .timerRuns => s.timer
  | .serverRuns => s.serve

def System.boot : System :=
  ⟨0, .starting⟩

/-- What the system reaches while the clock has ticked `uptime` times at most. -/
def System.Reached (uptime : Nat) : System → Prop :=
  Reachable (· = System.boot) (fun s event s' => s.exec event = some s' ∧ s'.ticks.toNat ≤ uptime)
    fun _ _ => True

/-- The timer has not panicked, and if it runs once `TIMER_INTERVAL` has passed since it took a reply,
then it sends. -/
def System.Punctual (s : System) : Prop :=
  s.phase ≠ .panicked ∧
    ∀ stop since, s.phase = .waiting stop since →
      since.toNat + timerInterval.toNat ≤ s.now.toNat →
        s.exec .timerRuns = some { s with phase := .requested }

end ZynexOS.Timer
