import Milp.Number.Duration

/-!
# Monitors

A monitor watches the events of a search and says whether it has to stop: when a flag is raised,
when the time, node or solution limit is reached. A composite passes every event to all of its
parts and stops with the reason of the first part that would.
-/

namespace Milp

/-- Why a search is stopped. -/
inductive StopReason where
  | interrupt
  | timeLimit
  | nodeLimit
  | solutionLimit
  deriving DecidableEq, Repr

namespace StopReason

/-- All reasons. -/
def all : List StopReason := [.interrupt, .timeLimit, .nodeLimit, .solutionLimit]

/-- The reason in words. -/
def text : StopReason → String
  | .interrupt => "interrupt signal received"
  | .timeLimit => "time limit reached"
  | .nodeLimit => "node limit reached"
  | .solutionLimit => "solution limit reached"

end StopReason

/-- What a monitor says. -/
inductive Command where
  | proceed
  | terminate (reason : StopReason)
  deriving DecidableEq, Repr, Inhabited

namespace Command

/-- Whether the search has to stop. -/
def isTerminate : Command → Bool
  | .proceed => false
  | .terminate _ => true

/-- The command in words. -/
def text : Command → String
  | .proceed => "Continue"
  | .terminate reason => "Terminate: " ++ reason.text

end Command

/-- The largest value of a counter. Counters stop there. -/
def counterLimit : Nat := 0xFFFFFFFFFFFFFFFF

/-- The counter `n` moved on by `k`. -/
def countUp (n : Nat) (k : Nat := 1) : Nat := min (n + k) counterLimit

/-- No counter moves on beyond the limit. -/
theorem countUp_le (n k : Nat) : countUp n k ≤ counterLimit := Nat.min_le_right _ _

/-- One more than a number is counted unless the counter has stopped. -/
theorem countUp_le_succ (n : Nat) : countUp n ≤ n + 1 := Nat.min_le_left _ _

/-- A counter that has moved on is not smaller than one that was not larger. -/
theorem le_countUp {m n : Nat} (h : m ≤ n) (inRange : n ≤ counterLimit) (k : Nat) :
    m ≤ countUp n k := by
  rw [countUp]
  omega

/-- Moving on keeps the order of counters. -/
theorem countUp_le_countUp {m n : Nat} (h : m ≤ n) (k : Nat) : countUp m k ≤ countUp n k := by
  simp only [countUp]
  omega

/-- Counting one more after the counter was looked at. -/
theorem countUp_countUp (n : Nat) : countUp (countUp 0 n) = countUp 0 (n + 1) := by
  simp only [countUp]
  omega

/-- A count that a counter can reach is shown as it is. -/
theorem countUp_of_le {n : Nat} (h : n ≤ counterLimit) : countUp 0 n = n := by
  rw [countUp]
  omega

/-- What happens in a search as far as monitors see it. -/
inductive SearchEvent where
  | entered
  | exited
  | stepped
  | solutionFound
  deriving DecidableEq, Repr

/-- What monitors can look at besides events: flags and the time since the search was entered. -/
structure Signals (φ : Type) where
  raised : φ → Bool
  elapsed : Duration

/-- A monitor. A time limit looks at the clock only at steps that share no bit with its mask. -/
inductive Monitor (φ : Type) where
  | interrupt (flag : φ)
  | timeLimit (limit : Duration) (mask steps : UInt64)
  | nodeLimit (limit steps : Nat)
  | solutionLimit (limit found : Nat)
  | composite (parts : List (Monitor φ))

namespace Monitor

variable {φ : Type}

/-- The kind of a monitor in words. -/
def name : Monitor φ → String
  | .interrupt _ => "InterruptMonitor"
  | .timeLimit .. => "TimeLimitMonitor"
  | .nodeLimit .. => "NodeLimitMonitor"
  | .solutionLimit .. => "SolutionLimitMonitor"
  | .composite _ => "CompositeMonitor"

mutual

/-- The monitor after an event. -/
def after (e : SearchEvent) : Monitor φ → Monitor φ
  | .interrupt flag => .interrupt flag
  | .timeLimit limit mask steps =>
    match e with
    | .entered => .timeLimit limit mask 0
    | .stepped => .timeLimit limit mask (steps + 1)
    | _ => .timeLimit limit mask steps
  | .nodeLimit limit steps =>
    match e with
    | .entered => .nodeLimit limit 0
    | .stepped => .nodeLimit limit (countUp steps)
    | _ => .nodeLimit limit steps
  | .solutionLimit limit found =>
    match e with
    | .entered => .solutionLimit limit 0
    | .solutionFound => .solutionLimit limit (countUp found)
    | _ => .solutionLimit limit found
  | .composite parts => .composite (afterAll e parts)

/-- All parts after an event. -/
def afterAll (e : SearchEvent) : List (Monitor φ) → List (Monitor φ)
  | [] => []
  | m :: ms => m.after e :: afterAll e ms

end

mutual

/-- What the monitor says. -/
def command (s : Signals φ) : Monitor φ → Command
  | .interrupt flag => if s.raised flag then .terminate .interrupt else .proceed
  | .timeLimit limit mask steps =>
    if steps &&& mask = 0 ∧ limit.nanos ≤ s.elapsed.nanos then .terminate .timeLimit
    else .proceed
  | .nodeLimit limit steps => if limit < steps then .terminate .nodeLimit else .proceed
  | .solutionLimit limit found =>
    if limit ≤ found then .terminate .solutionLimit else .proceed
  | .composite parts => firstCommand s parts

/-- What the first part says that stops the search. -/
def firstCommand (s : Signals φ) : List (Monitor φ) → Command
  | [] => .proceed
  | m :: ms =>
    match m.command s with
    | .terminate reason => .terminate reason
    | .proceed => firstCommand s ms

end

/-- The number of solutions that a solution limit has seen. -/
def found : Monitor φ → Nat
  | .solutionLimit _ n => n
  | _ => 0

/-- The parts of a composite; other monitors have none. -/
def parts : Monitor φ → List (Monitor φ)
  | .composite ms => ms
  | _ => []

/-- A composite with the names of its parts. -/
def partsText (m : Monitor φ) : String :=
  m.name ++ " \x7b monitors: \"" ++ ", ".intercalate (m.parts.map name) ++ "\" \x7d"

/-- A monitor as one of many. -/
def text (m : Monitor φ) : String := "SearchMonitor(" ++ m.name ++ ")"

end Monitor
end Milp
