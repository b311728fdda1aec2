import Milp.Number.Tolerance
import Milp.Problem.Basic
import Milp.Random.Choice

/-!
# Branching rules

A branching rule picks a variable among candidates by their values in the relaxation: the most
fractional one, the first one, or a random one with chances in proportion to the fractionality.
The child selection says which of the two children is explored first.
-/

namespace Milp

/-- How a variable to branch on is picked. -/
inductive BranchingRule where
  | mostFractional
  | firstIndex
  | random
  deriving DecidableEq, Repr, Inhabited

namespace BranchingRule

/-- The rule of a parameter character. -/
def ofChar? : Char → Option BranchingRule
  | 'f' => some .mostFractional
  | 'i' => some .firstIndex
  | 'r' => some .random
  | _ => none

/-- The rule in words. -/
def text : BranchingRule → String
  | .mostFractional => "most fractional"
  | .firstIndex => "first index"
  | .random => "random"

variable {α : Type} [Scalar α]

/-- The candidate with the largest fractionality; of equal ones that of the smallest rank. -/
def mostFractionalOf (rank : Array Nat) (candidates : List (Var × α)) : Option (Var × α) :=
  candidates.foldl (fun best c =>
    match best with
    | some (b, s) =>
      if c.2 < s || (s == c.2 && rank.getD b 0 < rank.getD c.1 0) then some (b, s) else some c
    | none => some c) none

/-- A candidate with equal chances for all. -/
def uniform (candidates : List Var) (g : Random.Engine) : Option Var × Random.Engine :=
  if candidates.isEmpty then (none, g)
  else
    let (i, g) := g.below candidates.length
    (candidates[i]?, g)

/-- A candidate with chances in proportion to its fractionality. Where none is positive, or one is
not a number, the chances are equal. -/
def weighted (candidates : List (Var × α)) (g : Random.Engine) : Option Var × Random.Engine :=
  let weights := candidates.map (·.2)
  match Random.choose Random.exponentialScalar 1 weights g with
  | (.ok picked, g) =>
    if weights.any (0 < ·) then (picked.head?.bind fun i => candidates[i]?.map (·.1), g)
    else uniform (candidates.map (·.1)) g
  | (.error _, g) => uniform (candidates.map (·.1)) g

/-- Picks one of the candidates by their values; none only if there are none. -/
def select (r : BranchingRule) (candidates : List Var) (values : Array α) (rank : Array Nat)
    (g : Random.Engine) : Option Var × Random.Engine :=
  let scored := candidates.map fun v => (v, Scalar.fractionality (values.getD v 0))
  match r with
  | .firstIndex => (candidates.min?, g)
  | .mostFractional => ((mostFractionalOf rank scored).map (·.1), g)
  | .random => weighted scored g

end BranchingRule

/-- Which child is explored first: the one below the branching value, or the one above. -/
inductive ChildSelection where
  | down
  | up
  deriving DecidableEq, Repr, Inhabited

namespace ChildSelection

/-- The selection of a parameter character. -/
def ofChar? : Char → Option ChildSelection
  | 'd' => some .down
  | 'u' => some .up
  | _ => none

/-- The selection in words. -/
def text : ChildSelection → String
  | .down => "Down"
  | .up => "Up"

end ChildSelection
end Milp
