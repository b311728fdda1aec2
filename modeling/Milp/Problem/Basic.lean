import Milp.Number.Text
import Milp.Number.Tolerance

/-!
# Mixed-integer linear problems

A problem asks for the best value of a linear objective over points that lie in a box, take whole
values in the binary and integer variables, and satisfy linear rows. Variables and constraints
are known by their positions. Lower bounds are numbers; upper bounds may be infinite.
-/

namespace Milp

/-- The position of a variable in its problem. -/
abbrev Var := Nat

/-- A variable position in messages. -/
def Var.label (v : Var) : String := s!"VariableIndex({v})"

/-- A constraint position in messages. -/
def constraintLabel (i : Nat) : String := s!"ConstraintIndex({i})"

/-- The values that a variable may take. -/
inductive VariableKind where
  | binary
  | integer
  | continuous
  deriving DecidableEq, Repr, Inhabited

namespace VariableKind

/-- All kinds. -/
def all : List VariableKind := [.binary, .integer, .continuous]

/-- Whether values of this kind are whole. -/
def isIntegral (k : VariableKind) : Bool := k != .continuous

/-- The kind in words. -/
def name : VariableKind → String
  | .binary => "binary"
  | .integer => "integer"
  | .continuous => "continuous"

end VariableKind

/-- The direction of optimisation. -/
inductive Sense where
  | minimize
  | maximize
  deriving DecidableEq, Repr, Inhabited

namespace Sense

variable {α : Type} [Scalar α]

/-- The direction in words. -/
def name : Sense → String
  | .minimize => "minimize"
  | .maximize => "maximize"

/-- Whether `candidate` is better than `reference` by more than `tol`. -/
def isBetter (s : Sense) (candidate reference : Extended α) (tol : α) : Bool :=
  match s with
  | .minimize => candidate.lt (reference.sub (Scalar.extend tol))
  | .maximize => (reference.add (Scalar.extend tol)).lt candidate

/-- The objective value that every point beats. -/
def worst : Sense → Extended α
  | .minimize => .posInf
  | .maximize => .negInf

/-- The objective value that no point beats. -/
def best : Sense → Extended α
  | .minimize => .negInf
  | .maximize => .posInf

/-- The bound that promises less: the more optimistic of the two. -/
def weaker (s : Sense) (a b : Extended α) : Extended α :=
  match s with
  | .minimize => a.min b
  | .maximize => a.max b

end Sense

/-- The relation between a row's activity and its right-hand side. -/
inductive RowSense where
  | lessEqual
  | greaterEqual
  | equal
  deriving DecidableEq, Repr, Inhabited

/-- The relation as a sign. -/
def RowSense.name : RowSense → String
  | .lessEqual => "<="
  | .greaterEqual => ">="
  | .equal => "="

/-- The relation seen from the other side. -/
def RowSense.flipped : RowSense → RowSense
  | .lessEqual => .greaterEqual
  | .greaterEqual => .lessEqual
  | .equal => .equal

/-- A linear row: the sum of the terms stands in relation to the right-hand side. -/
structure Row (α : Type) where
  terms : List (Var × α)
  sense : RowSense
  rhs : α

namespace Row

variable {α : Type} [Scalar α]

/-- The row that adds up the given variables. -/
def ofSum (vars : List Var) (sense : RowSense) (rhs : α) : Row α := ⟨vars.map (·, 1), sense, rhs⟩

/-- The value of the left-hand side at a point. -/
def activity (r : Row α) (x : Array α) : α :=
  Scalar.sum (r.terms.map fun (v, a) => a * x.getD v 0)

/-- How far a point is from satisfying the row. -/
def violation (r : Row α) (x : Array α) : α :=
  match r.sense with
  | .lessEqual => Scalar.max 0 (r.activity x - r.rhs)
  | .greaterEqual => Scalar.max 0 (r.rhs - r.activity x)
  | .equal => Scalar.abs (r.activity x - r.rhs)

/-- Whether a point satisfies the row within the tolerance. -/
def holds (r : Row α) (x : Array α) (tol : α) : Bool :=
  match r.sense with
  | .lessEqual => r.activity x ≤ r.rhs + tol
  | .greaterEqual => r.rhs - tol ≤ r.activity x
  | .equal => Scalar.abs (r.activity x - r.rhs) ≤ tol

end Row

/-- A variable of a problem. -/
structure Variable (α : Type) where
  name : String
  kind : VariableKind
  objective : α
  lower : α
  upper : Extended α

/-- A named row of a problem. -/
structure Constraint (α : Type) extends Row α where
  name : String

/-- A mixed-integer linear problem. -/
structure Problem (α : Type) where
  name : String
  sense : Sense := .minimize
  vars : Array (Variable α) := #[]
  constraints : Array (Constraint α) := #[]

namespace Problem

variable {α : Type}

/-- The number of variables. -/
def size (p : Problem α) : Nat := p.vars.size

/-- The positions of all variables, in order. -/
def positions (p : Problem α) : List Var := List.range p.size

/-- Whether the variable takes whole values only. -/
def isIntegral (p : Problem α) (v : Var) : Bool := (p.vars[v]?.map (·.kind.isIntegral)).getD false

/-- The positions of the variables that take whole values only, in order. -/
def integralVars (p : Problem α) : List Var := p.positions.filter p.isIntegral

/-- The variable of a name. -/
def find? (p : Problem α) (name : String) : Option Var := p.vars.findIdx? (·.name == name)

/-- The lower bounds in order. -/
def lower (p : Problem α) : Array α := p.vars.map (·.lower)

/-- The upper bounds in order. -/
def upper (p : Problem α) : Array (Extended α) := p.vars.map (·.upper)

/-- The problem in words. -/
def summary (p : Problem α) : String :=
  s!"Problem '{p.name}' ({p.sense.name})\n" ++
  s!"   Variables:   {p.size} ({p.integralVars.length} integral)\n" ++
  s!"   Constraints: {p.constraints.size}"

variable [Scalar α]

/-- The objective value of a point. -/
def objectiveValue (p : Problem α) (x : Array α) : α :=
  Scalar.sum (List.zipWith (fun v y => v.objective * y) p.vars.toList x.toList)

/-- Whether a point satisfies bounds, integrality and every row within the tolerance. A point of
another length does not. -/
def isFeasible (p : Problem α) (x : Array α) (tol : α) : Bool :=
  let t := Scalar.extend tol
  x.size == p.size &&
  (List.zipWith (fun v y =>
      Scalar.atMost v.lower y tol && (Scalar.extend y).le (v.upper.add t))
    p.vars.toList x.toList).all id &&
  p.integralVars.all (fun v => Scalar.isWhole (x.getD v 0) tol) &&
  p.constraints.all fun c => c.violation x ≤ tol

end Problem
end Milp
