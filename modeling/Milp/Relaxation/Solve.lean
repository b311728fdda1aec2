import Milp.Random.Order
import Milp.Relaxation.Simplex

/-!
# Solving relaxations

The relaxation of a problem forgets that some variables are whole. It is solved in two phases:
the first brings the artificial columns to zero or shows that no point satisfies the rows, the
second optimises the objective. The optimum is the basic solution of the last tableau, moved back
to the variables and into the box.
-/

namespace Milp

/-- Why a relaxation has no answer. -/
inductive RelaxationError where
  | iterationLimit (limit : Nat)
  | phaseOneUnbounded
  | nonFiniteValue
  deriving DecidableEq, Repr

/-- The cause in words. -/
def RelaxationError.message : RelaxationError → String
  | .iterationLimit limit => s!"simplex iteration limit of {limit} reached"
  | .phaseOneUnbounded => "numerical trouble: phase 1 reported an unbounded ray"
  | .nonFiniteValue => "numerical trouble: non-finite primal value"

/-- What is known of a relaxation once it is solved. -/
inductive RelaxationResult (α : Type) where
  | optimal (objective : α) (values : Array α)
  | infeasible
  | unbounded

/-- A result and the number of pivots that it took. -/
structure Relaxed (α : Type) where
  result : RelaxationResult α
  iterations : Nat

namespace Relaxation

/-- How relaxations of a problem are solved: the tolerances, the number of pivots allowed, the rank
of each variable's column, and the order of the rows. -/
structure Method (α : Type) where
  tolerances : Tolerances α
  maxIterations : Nat
  columnRank : Array Nat
  rowOrder : Array Nat

/-- The number of pivots that are allowed where nothing else is said. -/
def defaultMaxIterations : Nat := 100000

variable {α : Type} [Scalar α]

/-- Columns and rows in the order of the problem. -/
def Method.natural (p : Problem α) (feasibility : α) : Method α where
  tolerances := .standard feasibility
  maxIterations := defaultMaxIterations
  columnRank := Array.range p.size
  rowOrder := Array.range p.constraints.size

/-- The method with the columns in the random order of a seed; the seed zero changes nothing. -/
def Method.withSeed (m : Method α) (seed : UInt64) : Method α :=
  if seed = 0 then m
  else
    { m with
      columnRank := Random.ranks (Random.order m.columnRank.size (Random.Engine.ofSeed seed)) }

/-- A cost of one for each of the `w` columns from `start` on. -/
@[noinline] def costFrom (w start : Nat) : Vector α w :=
  Vector.ofFn fun j => if j < start then 0 else 1

/-- The cost of the artificial columns: one each. -/
def Form.phaseOneCost (f : Form α) : Vector α f.width := costFrom f.width f.artificialStart

/-- The objective over the columns, turned so that it is minimised. -/
def Form.phaseTwoCost (f : Form α) (p : Problem α) : Vector α f.width :=
  Vector.ofFn fun j =>
    if h : j < f.columns.size then
      let c := (p.vars[f.columns[j]]?.map (·.objective)).getD 0
      match p.sense with
      | .minimize => c
      | .maximize => -c
    else 0

/-- What the first phase leaves: a tableau to optimise and the pivots left, or a final word. -/
inductive PhaseOne (α : Type) (m w : Nat) where
  | feasible (t : Tableau α m w) (left : Nat)
  | infeasible (left : Nat)
  | failed (cause : RelaxationError)

/-- Finds a basic solution without artificial columns. -/
def Method.phaseOne (m : Method α) (f : Form α) (rank : Vector Nat f.width) :
    PhaseOne α f.rows.size f.width :=
  if f.artificialCount = 0 then .feasible f.tableau m.maxIterations
  else
    match f.tableau.run m.tolerances rank f.phaseOneCost f.width m.maxIterations with
    | .exhausted => .failed (.iterationLimit m.maxIterations)
    | .unbounded _ => .failed .phaseOneUnbounded
    | .optimal t left =>
      if m.tolerances.feasibility < t.value f.phaseOneCost then .infeasible left
      else .feasible (t.driveOut m.tolerances rank f.artificialStart) left

/-- Moves a value into the bounds of a variable, unless they exclude each other. -/
def clampInto (box : Box α) (v : Var) (x : α) : α :=
  let low := box.lowerAt v
  let high := box.upperAt v
  if (Scalar.extend low).le high then
    let x := if x < low then low else x
    match high with
    | .fin u => if u < x then u else x
    | _ => x
  else x

/-- The values of the variables at the basic solution: a variable with a basic column lies that
column's value above its lower bound, every other one at its lower bound. -/
def Form.values (f : Form α) (box : Box α) (t : Tableau α f.rows.size f.width) : Array α :=
  let shifts : List (Var × α) := (List.finRange f.rows.size).filterMap fun i =>
    (f.columns[(t.basis.get i).val]?).map fun v => (v, t.rhs.get i)
  (Array.range box.lower.size).map fun v =>
    let x := match shifts.find? (·.1 = v) with
      | some (_, shift) => box.lowerAt v + shift
      | none => box.lowerAt v
    clampInto box v x

/-- Solves a standard form. -/
def Method.solveForm (m : Method α) (p : Problem α) (box : Box α) (f : Form α) :
    Except RelaxationError (Relaxed α) :=
  let rank := f.rank p.size m.columnRank
  let spent (left : Nat) : Nat := m.maxIterations - left
  match m.phaseOne f rank with
  | .failed e => .error e
  | .infeasible left => .ok ⟨.infeasible, spent left⟩
  | .feasible t left =>
    match t.run m.tolerances rank (f.phaseTwoCost p) f.artificialStart left with
    | .exhausted => .error (.iterationLimit m.maxIterations)
    | .unbounded left => .ok ⟨.unbounded, spent left⟩
    | .optimal t left =>
      let values := f.values box t
      if values.all Scalar.isFinite then
        .ok ⟨.optimal (p.objectiveValue values) values, spent left⟩
      else .error .nonFiniteValue

/-- Solves the relaxation of a problem in a box, with local rows on top of the problem's own. -/
def Method.solve (m : Method α) (p : Problem α) (box : Box α) (localRows : List (Row α)) :
    Except RelaxationError (Relaxed α) :=
  if p.positions.any (box.isCrossed m.tolerances.feasibility) then .ok ⟨.infeasible, 0⟩
  else
    match Form.build? p m.tolerances m.rowOrder localRows box with
    | none => .ok ⟨.infeasible, 0⟩
    | some f => m.solveForm p box f

end Relaxation
end Milp
