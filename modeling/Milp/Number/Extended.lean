import Milp.Number.Scalar

/-!
# Arithmetic with infinities

Order, difference and choice of the smaller or larger of two extended values, by the rules that
doubles follow: the difference of equal infinities is undefined, and nothing compares with an
undefined value.
-/

namespace Milp.Extended

variable {α : Type} [Scalar α]

/-- Strictly below. -/
def lt : Extended α → Extended α → Bool
  | .negInf, .fin _ => true
  | .negInf, .posInf => true
  | .fin _, .posInf => true
  | .fin a, .fin b => a < b
  | _, _ => false

/-- At most. -/
def le : Extended α → Extended α → Bool
  | .undefined, _ => false
  | _, .undefined => false
  | .negInf, _ => true
  | _, .posInf => true
  | .fin a, .fin b => a ≤ b
  | _, _ => false

/-- The sum. -/
def add : Extended α → Extended α → Extended α
  | .fin a, .fin b => Scalar.extend (a + b)
  | .negInf, .fin _ => .negInf
  | .fin _, .negInf => .negInf
  | .negInf, .negInf => .negInf
  | .posInf, .fin _ => .posInf
  | .fin _, .posInf => .posInf
  | .posInf, .posInf => .posInf
  | _, _ => .undefined

/-- The value mirrored at zero. -/
def neg : Extended α → Extended α
  | .negInf => .posInf
  | .fin a => .fin (-a)
  | .posInf => .negInf
  | .undefined => .undefined

/-- The difference. -/
def sub : Extended α → Extended α → Extended α
  | .fin a, .fin b => Scalar.extend (a - b)
  | a, b => add a b.neg

/-- The distance to zero. -/
def abs : Extended α → Extended α
  | .negInf => .posInf
  | .fin a => .fin (Scalar.abs a)
  | a => a

/-- The larger of two values: the first of two equal ones, the other one of an undefined. -/
def max (a b : Extended α) : Extended α :=
  if a.lt b then b else match a with
    | .undefined => b
    | _ => a

/-- The smaller of two values: the first of two equal ones, the other one of an undefined. -/
def min (a b : Extended α) : Extended α :=
  if b.lt a then b else match a with
    | .undefined => b
    | _ => a

/-- Whether the value is a number. -/
def isFinite : Extended α → Bool
  | .fin _ => true
  | _ => false

end Milp.Extended
