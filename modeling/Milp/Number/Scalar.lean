import Milp.Number.Binary

/-!
# Scalars

The solver is written once for every type of numbers with the operations of `Scalar`. It runs on
doubles; on exact rationals the same definitions are the mathematics that the doubles
approximate. `Extended` adds the two infinities, which bounds need and rationals lack;
`Scalar.extend` sends a number to the extended value it stands for.
-/

namespace Milp

/-- A number, an infinity, or the outcome of an operation without a value. -/
inductive Extended (α : Type) where
  | negInf
  | fin (value : α)
  | posInf
  | undefined
  deriving DecidableEq, Repr, Inhabited

/-- Numbers as the solver uses them. -/
class Scalar (α : Type) extends Zero α, One α, Add α, Sub α, Mul α, Div α, Neg α,
    LT α, LE α, BEq α where
  /-- Order comparisons can be decided. -/
  decLt : ∀ a b : α, Decidable (a < b)
  decLe : ∀ a b : α, Decidable (a ≤ b)
  /-- The largest whole number at most the argument. -/
  floor : α → α
  /-- The smallest whole number at least the argument. -/
  ceil : α → α
  /-- The nearest whole number, halves away from zero. -/
  round : α → α
  /-- The distance to zero. -/
  abs : α → α
  /-- What the number stands for among the extended values. -/
  extend : α → Extended α
  /-- The number that a finite double stands for. -/
  ofDouble : Float → α

namespace Scalar

variable {α : Type} [Scalar α]

instance (a b : α) : Decidable (a < b) := Scalar.decLt a b

instance (a b : α) : Decidable (a ≤ b) := Scalar.decLe a b

instance : Inhabited α := ⟨0⟩

/-- Whether the value differs from itself, as only an undefined double does. -/
@[inline] def isUndefined (a : α) : Bool := !(a == a)

/-- The larger of two numbers: the first of two equal ones, the other one of an undefined. -/
@[inline] def max (a b : α) : α := if a < b then b else if isUndefined a then b else a

/-- The smaller of two numbers: the first of two equal ones, the other one of an undefined. -/
@[inline] def min (a b : α) : α := if b < a then b else if isUndefined a then b else a

/-- Whether the number is neither infinite nor undefined. -/
@[inline] def isFinite (a : α) : Bool :=
  match extend a with
  | .fin _ => true
  | _ => false

/-- The sum of a list from the left. It starts from minus zero, which for doubles is the neutral
element of addition. -/
def sum (xs : List α) : α := xs.foldl (· + ·) (-0)

end Scalar

/-- What a double stands for: its own value, an infinity, or nothing. -/
def Number.extend (x : Float) : Extended Float :=
  if x.isNaN then .undefined
  else if x.isInf then (if x < 0 then .negInf else .posInf)
  else .fin x

instance : Scalar Float where
  decLt := inferInstance
  decLe := inferInstance
  floor := Number.floor
  ceil := Number.ceil
  round := Number.round
  abs := Float.abs
  extend := Number.extend
  ofDouble := id

instance : Scalar Rat where
  zero := 0
  one := 1
  decLt := inferInstance
  decLe := inferInstance
  floor x := x.floor
  ceil x := x.ceil
  round x := if x < 0 then -((-x + 1 / 2).floor : Rat) else (x + 1 / 2).floor
  abs x := if x < 0 then -x else x
  extend := .fin
  ofDouble x := (Number.exactValue? x).getD 0

end Milp
