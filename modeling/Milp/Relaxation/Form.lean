import Milp.Problem.Box

/-!
# Standard form

The relaxation of a problem in a box is put into standard form over shifted columns: each free
variable is written as its lower bound plus a non-negative column, the others stay at their lower
bounds. Rows are those of the problem, then the local ones, then one for each finite upper bound
of a free variable. A row without free columns is decided at once; the others are turned so that
their right-hand sides are not negative.
-/

namespace Milp.Relaxation

/-- The tolerances of the simplex method: for feasibility, for coefficients that may be pivots, and
for ratios that count as equal. -/
structure Tolerances (α : Type) where
  feasibility : α
  pivot : α
  ratio : α

/-- The tolerances for numbers with rounding errors. -/
def Tolerances.standard {α : Type} [Scalar α] (feasibility : α) : Tolerances α :=
  ⟨feasibility, Scalar.ofDouble 1e-9, Scalar.ofDouble 1e-12⟩

/-- A row over `n` columns. -/
structure FormRow (α : Type) (n : Nat) where
  coefficients : Vector α n
  sense : RowSense
  rhs : α

namespace FormRow

variable {α : Type} [Scalar α] {n : Nat}

/-- Whether no coefficient of the row can be a pivot. -/
def isEmpty (tols : Tolerances α) (r : FormRow α n) : Bool :=
  r.coefficients.all fun a => Scalar.abs a ≤ tols.pivot

/-- Whether the row holds when all its columns are zero. -/
def holdsAtZero (tols : Tolerances α) (r : FormRow α n) : Bool :=
  match r.sense with
  | .lessEqual => -tols.feasibility ≤ r.rhs
  | .greaterEqual => r.rhs ≤ tols.feasibility
  | .equal => Scalar.abs r.rhs ≤ tols.feasibility

/-- The row turned so that its right-hand side is not negative. -/
def turned (r : FormRow α n) : FormRow α n :=
  if r.rhs < 0 then ⟨r.coefficients.map (-·), r.sense.flipped, -r.rhs⟩ else r

end FormRow

/-- A relaxation in standard form: the variables of the columns and the rows over them. -/
structure Form (α : Type) where
  columns : Array Var
  rows : Array (FormRow α columns.size)

namespace Form

variable {α : Type} [Scalar α]

/-- A row over the shifted columns. Every term moves its share at the lower bound to the right-hand
side; the coefficient of a column is the sum of the terms of its variable. -/
def shift (box : Box α) (columns : Array Var) (r : Row α) : FormRow α columns.size where
  coefficients := Vector.ofFn fun k : Fin columns.size =>
    (r.terms.filter (·.1 = columns[k])).foldl (fun sum t => sum + t.2) 0
  sense := r.sense
  rhs := r.terms.foldl (fun rhs t => rhs - t.2 * box.lowerAt t.1) r.rhs

/-- The row of the upper bound of a column, if that bound is finite. -/
def upperRow? (box : Box α) (columns : Array Var) (k : Fin columns.size) :
    Option (FormRow α columns.size) :=
  match box.upperAt columns[k] with
  | .fin u => some {
      coefficients := Vector.ofFn fun j => if j = k then 1 else 0
      sense := .lessEqual
      rhs := u - box.lowerAt columns[k] }
  | _ => none

/-- All rows over the columns: those of the problem in the given order, the local ones, and those
of the upper bounds. -/
def allRows (p : Problem α) (rowOrder : Array Nat) (localRows : List (Row α)) (box : Box α)
    (columns : Array Var) : List (FormRow α columns.size) :=
  (rowOrder.toList.filterMap (p.constraints[·]?)).map (fun c => shift box columns c.toRow) ++
    localRows.map (shift box columns) ++
    (List.finRange columns.size).filterMap (upperRow? box columns)

/-- The variables that are free in the box. -/
def freeColumns (p : Problem α) (tols : Tolerances α) (box : Box α) : Array Var :=
  (p.positions.filter (box.isFree tols.feasibility)).toArray

/-- The standard form of the relaxation in a box. There is none when a row without free columns is
violated. -/
def build? (p : Problem α) (tols : Tolerances α) (rowOrder : Array Nat)
    (localRows : List (Row α)) (box : Box α) : Option (Form α) :=
  let columns := freeColumns p tols box
  let rows := allRows p rowOrder localRows box columns
  if rows.all fun r => !r.isEmpty tols || r.holdsAtZero tols then
    some ⟨columns, ((rows.filter fun r => !r.isEmpty tols).map FormRow.turned).toArray⟩
  else none

end Form
end Milp.Relaxation
