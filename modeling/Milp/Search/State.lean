import Milp.Problem.Solution
import Milp.Random.Seed
import Milp.Search.Choice
import Milp.Search.Journal
import Milp.Search.Node
import Milp.Search.Settings
import Milp.Search.Statistics

/-!
# The state of a search

A search explores the tree of nodes depth first: the open nodes are a stack. A plan holds what
stays the same throughout, with the answer to every relaxation as a function, so that nothing
here depends on how relaxations are solved, and with the readings of a clock, so that nothing
depends on how fast anything is. The best point found so far is the incumbent; a node whose bound
cannot beat it is not worth exploring.
-/

namespace Milp

/-- The time that has passed since a search was entered, wherever its monitors look at it. What is
read is told apart by the number of nodes explored before: there is one reading before the next
node is taken, and at each decision point one for every number of trials and one when the decision
has been taken. That the last of these is not earlier than the others is all that is asked. -/
structure Clock where
  beforeNode : (nodes : Nat) → Duration
  deciding : (nodes : Nat) → DecisionPoint → (trials : Nat) → Duration
  decided : (nodes : Nat) → DecisionPoint → Duration
  deciding_le : ∀ nodes point trials,
    (deciding nodes point trials).nanos ≤ (decided nodes point).nanos

/-- The clock of a search in which each node takes so many nanoseconds, and nothing else takes any
time. -/
def Clock.perNode (nanos : Nat) : Clock where
  beforeNode nodes := ⟨nodes * nanos⟩
  deciding nodes _ _ := ⟨nodes * nanos⟩
  decided nodes _ := ⟨nodes * nanos⟩
  deciding_le _ _ _ := Nat.le_refl _

/-- The clock of a search that takes no measurable time. -/
def Clock.still : Clock := .perNode 0

/-- What a search does not change. -/
structure Plan (α : Type) where
  problem : Problem α
  settings : Settings α
  relax : Box α → List (Row α) → Except RelaxationError (Relaxed α)
  rank : Array Nat
  hooks : Option Hooks
  clock : Clock := .still

/-- A search under way; the first node of the stack is the next one. -/
structure Search (α : Type) where
  stack : List (Node α)
  lastNumber : Nat
  stats : Statistics α
  incumbent : Option (Solution α)
  monitor : Monitor Unit
  interrupted : Bool
  engine : Random.Engine
  journal : Array (JournalEvent α)

variable {α : Type} [Scalar α]

/-- Whether a node or point with the given bound may be better than the incumbent by more than the
tolerance. -/
def Problem.canImprove (p : Problem α) (bound : Extended α) (incumbent : Option (Solution α))
    (tol : α) : Bool :=
  match incumbent with
  | none => true
  | some best => p.sense.isBetter bound (Scalar.extend best.objective) tol

/-- A point with the values of the integral variables rounded, and its objective value. -/
def Problem.roundedSolution (p : Problem α) (values : Array α) : Solution α :=
  let rounded := values.mapIdx fun v x => if p.isIntegral v then Scalar.round x else x
  ⟨p.objectiveValue rounded, rounded⟩

/-- The objective value that the next point has to beat. -/
def Problem.primalBound (p : Problem α) (incumbent : Option (Solution α)) : Extended α :=
  match incumbent with
  | none => p.sense.worst
  | some best => Scalar.extend best.objective

/-- The integral variables whose values are not whole within the tolerance, in order. -/
def Problem.fractionalVars (p : Problem α) (tol : α) (values : Array α) : List Var :=
  p.integralVars.filter fun v => !Scalar.isWhole (values.getD v 0) tol

namespace Settings

/-- The ranks of `n` variables, by which ties are broken: those of a random order if the variables
are permuted. -/
def variableRank (s : Settings α) (n : Nat) : Array Nat :=
  if s.permuteVars then Random.ranks (Random.order n (Random.Engine.ofSeed s.permutationSeed))
  else Array.range n

/-- The order in which `m` constraints become rows. It is drawn from another seed than that of the
variables. -/
def rowOrder (s : Settings α) (m : Nat) : Array Nat :=
  if s.permuteConstraints then
    Random.order m (Random.Engine.ofSeed (Random.derive s.permutationSeed 1))
  else Array.range m

/-- How relaxations are solved. -/
def method (s : Settings α) (p : Problem α) : Relaxation.Method α :=
  { (Relaxation.Method.natural p s.tolerance).withSeed s.lpSeed with
    rowOrder := s.rowOrder p.constraints.size }

end Settings

namespace Plan

variable (plan : Plan α)

/-- The tolerance of the solve. -/
def tolerance : α := plan.settings.tolerance

/-- The plan of a solve with given settings. -/
def ofSettings (p : Problem α) (settings : Settings α) (hooks : Option Hooks)
    (clock : Clock := .still) : Plan α where
  problem := p
  settings
  relax := (settings.method p).solve p
  rank := settings.variableRank p.size
  hooks
  clock

end Plan

namespace Search

/-- What the monitors say when the clock shows a time. -/
def commandAt (s : Search α) (now : Duration) : Command :=
  s.monitor.command ⟨fun _ => s.interrupted, now⟩

/-- The search with an event added to the journal. -/
def note (s : Search α) (e : JournalEvent α) : Search α := { s with journal := s.journal.push e }

/-- The search with a line for the reader, if the verbosity asks for it. -/
def display (s : Search α) (plan : Plan α) (line : ReaderLine α) : Search α :=
  if line.verbosity ≤ plan.settings.verbosity then
    s.note (.shown plan.settings.linePrefix line)
  else s

/-- Rounds a point and makes it the incumbent. -/
def install (s : Search α) (plan : Plan α) (values : Array α) : Search α :=
  let solution := plan.problem.roundedSolution values
  { s with
    incumbent := some solution
    stats := s.stats.onSolution
    monitor := s.monitor.after .solutionFound }.note (.incumbent solution.objective)

/-- The weakest of a bound and the bounds of the open nodes. -/
def weakestBound (s : Search α) (sense : Sense) (bound : Extended α) : Extended α :=
  s.stack.foldr (fun node weakest => sense.weaker weakest node.parentBound) bound

/-- The monitors of a solve: the interrupt flag and the limits of the settings. -/
def monitorOf (settings : Settings α) : Monitor Unit :=
  .composite <|
    [.interrupt ()] ++
    (settings.timeLimit.map (Monitor.timeLimit · 0 0)).toList ++
    (settings.nodeLimit.map (Monitor.nodeLimit · 0)).toList ++
    (settings.solutionLimit.map (Monitor.solutionLimit · 0)).toList

/-- A search that has just been entered, with the root as its only node. -/
def start (plan : Plan α) (stats : Statistics α) (incumbent : Option (Solution α))
    (interrupted : Bool) : Search α :=
  let p := plan.problem
  let s : Search α := {
    stack := [Node.root p.sense.best]
    lastNumber := 1
    stats
    incumbent
    monitor := (monitorOf plan.settings).after .entered
    interrupted
    engine := Random.Engine.ofSeed plan.settings.randomSeedShift
    journal := #[] }
  (s.note (.started p.name plan.settings.rule p.size p.constraints.size)).display plan
    (.opening p.name p.size p.constraints.size)

end Search
end Milp
