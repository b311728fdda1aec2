import Milp.Problem.Basic

/-!
# Boxes

A box gives every variable a lower and an upper bound. The search starts from the box of the
problem and only ever tightens it, one bound at a time.
-/

namespace Milp

/-- Bounds for every variable. -/
structure Box (α : Type) where
  lower : Array α
  upper : Array (Extended α)

/-- A bound that is tightened. -/
inductive BoundChange (α : Type) where
  | raiseLower (v : Var) (bound : α)
  | cutUpper (v : Var) (bound : α)

namespace Box

variable {α : Type}

/-- The bounds that the problem gives. -/
def ofProblem (p : Problem α) : Box α := ⟨p.lower, p.upper⟩

variable [Scalar α]

/-- The lower bound of a variable. -/
def lowerAt (b : Box α) (v : Var) : α := b.lower.getD v 0

/-- The upper bound of a variable. -/
def upperAt (b : Box α) (v : Var) : Extended α := b.upper.getD v .posInf

/-- How far the bounds of a variable are apart. -/
def width (b : Box α) (v : Var) : Extended α := (b.upperAt v).sub (Scalar.extend (b.lowerAt v))

/-- Whether the bounds of a variable are apart by more than the tolerance. -/
def isFree (b : Box α) (tol : α) (v : Var) : Bool := (Scalar.extend tol).lt (b.width v)

/-- Whether the bounds of a variable coincide within the tolerance. -/
def isFixed (b : Box α) (tol : α) (v : Var) : Bool := (b.width v).le (Scalar.extend tol)

/-- Whether the lower bound of a variable lies beyond the upper one by more than the tolerance. -/
def isCrossed (b : Box α) (tol : α) (v : Var) : Bool :=
  ((b.upperAt v).add (Scalar.extend tol)).lt (Scalar.extend (b.lowerAt v))

/-- The box with both bounds of a variable at one value. -/
def fix (b : Box α) (v : Var) (x : α) : Box α :=
  ⟨b.lower.setIfInBounds v x, b.upper.setIfInBounds v (Scalar.extend x)⟩

/-- The box with one bound tightened; a bound that is tighter already stays. -/
def tighten (b : Box α) : BoundChange α → Box α
  | .raiseLower v x => { b with lower := b.lower.modify v (Scalar.max · x) }
  | .cutUpper v x => { b with upper := b.upper.modify v (·.min (Scalar.extend x)) }

end Box
end Milp
