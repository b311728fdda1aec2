import Milp.Number.Extended

/-!
# Comparisons within a tolerance

All comparisons of the solver allow an absolute error. A value counts as whole when its distance
to the nearest whole number, its fractionality, is within the tolerance.
-/

namespace Milp

/-- The tolerance used where none is chosen. -/
def defaultTolerance : Float := 1e-6

namespace Scalar

variable {α : Type} [Scalar α]

/-- The distance down to the next whole number. -/
def frac (x : α) : α := x - floor x

/-- The distance to the nearest whole number. -/
def fractionality (x : α) : α := min (frac x) (1 - frac x)

/-- Whether `x` is whole within the tolerance. -/
def isWhole (x tol : α) : Bool := fractionality x ≤ tol

/-- Whether `a` is at most `b` within the tolerance. -/
def atMost (a b tol : α) : Bool := a ≤ b + tol

/-- Whether `a` and `b` are equal within the tolerance. -/
def near (a b tol : α) : Bool := abs (a - b) ≤ tol

end Scalar
end Milp
