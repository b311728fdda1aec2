import Milp.Relaxation.Tableau

/-!
# The simplex method

A round lets the column of the best rank among those with a negative reduced cost enter the
basis, in the row with the smallest ratio of right-hand side to coefficient, ties going to the
basic column of the better rank. Choosing by rank on both sides is what keeps a basis from coming
back. The run ends at an optimal tableau, at an unbounded ray, or when its rounds are used up.
-/

namespace Milp.Relaxation

/-- How a run of the simplex method ends, with the rounds that it had left. -/
inductive Run (α : Type) (m w : Nat) where
  | optimal (t : Tableau α m w) (left : Nat)
  | unbounded (left : Nat)
  | exhausted

namespace Tableau

variable {α : Type} [Scalar α] {m w : Nat}

/-- The column that enters the basis: of those below `limit` that are not basic and have a negative
reduced cost, the one of the best rank. -/
@[specialize] def entering? (tols : Tolerances α) (rank : Vector Nat w) (cost : Vector α w)
    (limit : Nat) (t : Tableau α m w) : Option (Fin w) :=
  let rows := t.costRows cost
  Fin.foldl w (fun best j =>
    let better := match best with
      | none => true
      | some e => rank.get j < rank.get e
    if better && j < limit && t.reducedCost cost rows j < -tols.pivot && !t.isBasic j then some j
    else best) none

/-- The row in which a column enters: of those with a positive coefficient, the one with the
smallest ratio. Among equal ratios the basic column of the best rank leaves. -/
@[specialize] def leaving? (tols : Tolerances α) (rank : Vector Nat w) (t : Tableau α m w)
    (c : Fin w) : Option (Fin m) :=
  (Fin.foldl m (fun (best : Option (Fin m × α)) i =>
    let a := t.entry i c
    if a ≤ tols.pivot then best
    else
      let ratio := t.rhs.get i / a
      match best with
      | none => some (i, ratio)
      | some (r, least) =>
        if ratio < least - tols.ratio ||
            (decide (Scalar.abs (ratio - least) ≤ tols.ratio) &&
              decide (rank.get (t.basis.get i) < rank.get (t.basis.get r))) then some (i, ratio)
        else some (r, least)) none).map (·.1)

/-- Runs the simplex method for at most `rounds` pivots. Only columns below `limit` enter. -/
@[specialize] def run (tols : Tolerances α) (rank : Vector Nat w) (cost : Vector α w)
    (limit : Nat) : Nat → Tableau α m w → Run α m w
  | rounds, t =>
    match t.entering? tols rank cost limit with
    | none => .optimal t rounds
    | some c =>
      match t.leaving? tols rank c with
      | none => .unbounded rounds
      | some r =>
        match rounds with
        | 0 => .exhausted
        | rounds + 1 => run tols rank cost limit rounds (t.pivot tols r c)

/-- The column below `limit` that can take the place of the basic column of a row: of those that
are not basic and have a coefficient there, the one of the best rank. -/
@[specialize] def replacement? (tols : Tolerances α) (rank : Vector Nat w) (limit : Nat)
    (t : Tableau α m w) (i : Fin m) : Option (Fin w) :=
  Fin.foldl w (fun best j =>
    let better := match best with
      | none => true
      | some e => rank.get j < rank.get e
    if better && j < limit && !t.isBasic j && tols.pivot < Scalar.abs (t.entry i j) then some j
    else best) none

/-- Pivots the columns from `limit` on out of the basis, row by row, where another column can take
their place. A row where none can is redundant. -/
def driveOut (tols : Tolerances α) (rank : Vector Nat w) (limit : Nat) (t : Tableau α m w) :
    Tableau α m w :=
  Fin.foldl m (fun t i =>
    if t.basis.get i < limit then t
    else
      match t.replacement? tols rank limit i with
      | none => t
      | some c => t.pivot tols i c) t

end Tableau
end Milp.Relaxation
