import Milp.Relaxation.Form

/-!
# Tableaus

A tableau holds a system of equations solved for its basic columns. The columns are the
structural ones of the standard form, a slack for every inequality, and an artificial column for
every row that has no slack to start from. A pivot exchanges one basic column and keeps the
solutions of the system.
-/

namespace Milp.Relaxation

/-- Equations in `m` rows over `w` columns, each row with the column that it is solved for. These
columns are marked. -/
structure Tableau (α : Type) (m w : Nat) where
  entries : Vector (Vector α w) m
  rhs : Vector α m
  basis : Vector (Fin w) m
  marks : Vector Bool w

namespace Tableau

variable {α : Type} [Scalar α] {m w : Nat}

/-- The coefficient of a column in a row. -/
@[inline] def entry (t : Tableau α m w) (i : Fin m) (j : Fin w) : α := t.entries[i][j]

/-- Whether the column is marked as one that a row is solved for. -/
def isBasic (t : Tableau α m w) (j : Fin w) : Bool := t.marks.get j

/-- The marks of the columns of a basis. -/
def marksOf (basis : Vector (Fin w) m) : Vector Bool w :=
  Fin.foldl m (fun marks i => marks.set (basis.get i) true) (Vector.replicate w false)

/-- The rows whose basic columns have a cost, with these costs. -/
def costRows (t : Tableau α m w) (cost : Vector α w) : List (Fin m × α) :=
  (List.finRange m).filterMap fun i =>
    let c := cost[t.basis[i]]
    if c == 0 then none else some (i, c)

/-- The cost of one unit of a column when the basic columns balance it; `rows` are those whose basic
columns have a cost. -/
@[specialize] def reducedCost (t : Tableau α m w) (cost : Vector α w) (rows : List (Fin m × α))
    (j : Fin w) : α :=
  rows.foldl (fun d (i, c) => d - c * t.entry i j) cost[j]

/-- The cost of the basic solution. -/
def value (t : Tableau α m w) (cost : Vector α w) : α :=
  Scalar.sum ((List.finRange m).map fun i => cost[t.basis[i]] * t.rhs[i])

/-- The entries of a row without that of column `c`. -/
def entriesBut (c : Fin w) (row : Vector α w) : List (Fin w × α) :=
  (List.finRange w).filterMap fun j => if j = c then none else some (j, row[j])

/-- A row less `f` times another one, at the given entries of that one. -/
@[specialize] def takeOff (f : α) (line : List (Fin w × α)) (row : Vector α w) : Vector α w :=
  line.foldl (fun row (j, x) => row.set j (row[j] - f * x)) row

/-- Solves row `r` for column `c` and removes the column from the other rows. A right-hand side
that becomes negative by no more than the ratio tolerance is set to zero. Entries that are zero take
nothing off, so they are passed over where a product with zero is zero. The mark moves from the
column that leaves to the one that enters. -/
@[specialize] def pivot (tols : Tolerances α) (r : Fin m) (c : Fin w) :
    Tableau α m w → Tableau α m w
  | ⟨entries, rhs, basis, marks⟩ =>
    let p := entries[r][c]
    let line := entries[r].map (· / p)
    let right := rhs[r] / p
    let others := entriesBut c line
    let nonzero := others.filter fun e => !(e.2 == 0)
    let factors := entries.map (·[c])
    let rhs := Vector.zipWith (fun f x =>
      if f == 0 then x
      else
        let x := x - f * right
        if x < 0 && -tols.ratio < x then 0 else x) factors rhs
    let entries := entries.map fun row =>
      let f := row[c]
      if f == 0 then row
      else (takeOff f (if f * 0 == 0 then nonzero else others) row).set c 0
    let marks := (marks.set (basis.get r) false).set c true
    ⟨entries.set r line, rhs.set r right, basis.set r c, marks⟩

end Tableau

/-! ### The first tableau of a standard form -/

/-- An element that is counted is not among those counted before it. -/
theorem countP_take_lt {β : Type} {p : β → Bool} {l : List β} {i : Nat} (h : i < l.length)
    (hp : p l[i] = true) : (l.take i).countP p < l.countP p := by
  have split : l = l.take i ++ l[i] :: l.drop (i + 1) := by simp
  have counted : l.countP p = (l.take i ++ l[i] :: l.drop (i + 1)).countP p := by rw [← split]
  rw [counted, List.countP_append, List.countP_cons_of_pos hp]
  omega

/-- Whether a row has a slack column: inequalities do. -/
def FormRow.hasSlack {α : Type} {n : Nat} (r : FormRow α n) : Bool := r.sense != .equal

/-- Whether a row has an artificial column: those that no slack can solve do. -/
def FormRow.hasArtificial {α : Type} {n : Nat} (r : FormRow α n) : Bool := r.sense != .lessEqual

namespace Form

variable {α : Type} [Scalar α] (f : Form α)

/-- The number of slack columns. -/
def slackCount : Nat := f.rows.toList.countP FormRow.hasSlack

/-- The number of artificial columns. -/
def artificialCount : Nat := f.rows.toList.countP FormRow.hasArtificial

/-- Where the artificial columns start. -/
def artificialStart : Nat := f.columns.size + f.slackCount

/-- The number of all columns. -/
def width : Nat := f.artificialStart + f.artificialCount

/-- The slack column of a row; it means something only if the row has one. -/
def slackIndex (i : Nat) : Nat := f.columns.size + (f.rows.toList.take i).countP FormRow.hasSlack

/-- The artificial column of a row; it means something only if the row has one. -/
def artificialIndex (i : Nat) : Nat :=
  f.artificialStart + (f.rows.toList.take i).countP FormRow.hasArtificial

/-- The column that a row is solved for at the start: its artificial column, or else its slack. -/
def startColumn (i : Fin f.rows.size) : Fin f.width :=
  if h : f.rows[i].hasArtificial then
    ⟨f.artificialIndex i, by
      have := countP_take_lt (p := FormRow.hasArtificial) (l := f.rows.toList) (i := i)
        (by simp) (by simpa using h)
      simp only [artificialIndex, width, artificialCount]
      omega⟩
  else
    ⟨f.slackIndex i, by
      have slack : f.rows[i].hasSlack = true := by
        simp only [FormRow.hasArtificial, bne_iff_ne, ne_eq, Decidable.not_not] at h
        simp only [FormRow.hasSlack, h]
        rfl
      have := countP_take_lt (p := FormRow.hasSlack) (l := f.rows.toList) (i := i)
        (by simp) (by simpa using slack)
      simp only [slackIndex, width, artificialStart, slackCount]
      omega⟩

/-- The coefficient of a slack column in the row that it belongs to. -/
def slackSign : RowSense → α
  | .greaterEqual => -1
  | _ => 1

/-- A row of the first tableau over `w` columns: its coefficients, then a slack column and an
artificial column if it has them. Artificial columns start at `start`. -/
@[noinline] def startRow {n : Nat} (w start slack artificial : Nat) (r : FormRow α n) :
    Vector α w :=
  Vector.ofFn fun j : Fin w =>
    if h : j < n then r.coefficients[j]
    else if j < start then
      if r.hasSlack && j == slack then slackSign r.sense else 0
    else if r.hasArtificial && j == artificial then 1 else 0

/-- The first tableau, solved for slacks and artificial columns. -/
def tableau : Tableau α f.rows.size f.width where
  entries := Vector.ofFn fun i : Fin f.rows.size =>
    startRow f.width f.artificialStart (f.slackIndex i) (f.artificialIndex i) f.rows[i]
  rhs := Vector.ofFn fun i : Fin f.rows.size => f.rows[i].rhs
  basis := Vector.ofFn f.startColumn
  marks := Tableau.marksOf (Vector.ofFn f.startColumn)

/-- The priority of each column: structural columns have the rank of their variable, slacks and
artificial columns follow in order. -/
def rank (variableCount : Nat) (columnRank : Array Nat) : Vector Nat f.width :=
  Vector.ofFn fun j : Fin f.width =>
    if h : j < f.columns.size then columnRank.getD f.columns[j] 0
    else variableCount + (j - f.columns.size)

end Form
end Milp.Relaxation
