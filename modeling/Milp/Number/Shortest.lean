import Milp.Number.Binary

/-!
# The shortest decimal of a double

`shortest m e` finds, for the double `m * 2 ^ e`, the decimal with the fewest digits among those
that read back as that double, and of several the nearest to it. The decimals with a given
number of digits form a grid; if one of them lies in the interval of reals that round to the
double, then one of the two neighbours of the double on the grid does, so only these are tried.
-/

namespace Milp.Number

/-- The decimal `digits * 10 ^ exponent`. -/
structure Decimal where
  digits : Nat
  exponent : Int
  deriving DecidableEq, Repr

/-- The quotient of two whole numbers, as a pair; `scaled` multiplies it by a power of ten. -/
structure Ratio where
  num : Nat
  den : Nat

namespace Ratio

/-- The ratio times `10 ^ k`. -/
def scaled (q : Ratio) (k : Int) : Ratio :=
  if k < 0 then ⟨q.num, q.den * Nat.pow 10 (-k).toNat⟩ else ⟨q.num * Nat.pow 10 k.toNat, q.den⟩

/-- The ratio times `2 ^ k`. -/
def doubled (q : Ratio) (k : Int) : Ratio :=
  if k < 0 then ⟨q.num, q.den * Nat.pow 2 (-k).toNat⟩ else ⟨q.num * Nat.pow 2 k.toNat, q.den⟩

/-- Whether the ratio is at least `10 ^ k`. -/
def reaches (q : Ratio) (k : Int) : Bool :=
  let s := q.scaled (-k)
  s.den ≤ s.num

end Ratio

/-- The exponent of the leading decimal digit of a positive ratio, corrected upwards from an
estimate that is at most two too small. -/
def leadingExponent (q : Ratio) (estimate : Int) : Int :=
  if q.reaches (estimate + 2) then estimate + 2
  else if q.reaches (estimate + 1) then estimate + 1
  else if q.reaches estimate then estimate
  else estimate - 1

/-- The reals that round to a double: its value and the ends of the interval, all as multiples of
`2 ^ exponent`; the ends belong to it when `closed`. -/
structure Cell where
  low : Nat
  value : Nat
  high : Nat
  exponent : Int
  closed : Bool

/-- The cell of `mantissa * 2 ^ exponent`. Below a power of two the doubles are twice as close. -/
def cell (mantissa : Nat) (exponent : Int) : Cell where
  low := if mantissa = Nat.pow 2 52 && exponent > -1074 then 4 * mantissa - 1 else 4 * mantissa - 2
  value := 4 * mantissa
  high := 4 * mantissa + 2
  exponent := exponent - 2
  closed := mantissa % 2 = 0

/-- Whether the point `digits * step` lies in the cell, where the cell's multiples are scaled to
numerators over the common denominator. -/
def Cell.contains (c : Cell) (digits : Nat) (scale den : Nat) : Bool :=
  let point := digits * den
  if c.closed then c.low * scale ≤ point && point ≤ c.high * scale
  else c.low * scale < point && point < c.high * scale

/-- The nearest decimal with step `10 ^ exponent` inside the cell, if the grid has one there. A tie
goes to the larger one. -/
def Cell.onGrid? (c : Cell) (exponent : Int) : Option Decimal :=
  let unit := ((Ratio.mk 1 1).doubled c.exponent).scaled (-exponent)
  let num := c.value * unit.num
  let below := num / unit.den
  let rest := num % unit.den
  let lowIn := c.contains below unit.num unit.den
  let highIn := c.contains (below + 1) unit.num unit.den
  if lowIn && (!highIn || 2 * rest < unit.den) then some ⟨below, exponent⟩
  else if highIn then some ⟨below + 1, exponent⟩
  else none

/-- Tries grids with more and more digits, `fuel` of them. -/
def Cell.search (c : Cell) (leading : Int) : Nat → Nat → Option Decimal
  | 0, _ => none
  | fuel + 1, count =>
    match c.onGrid? (leading + 1 - Int.ofNat count) with
    | some d => some d
    | none => c.search leading fuel (count + 1)

/-- Moves the trailing zeros of the digits into the exponent, at most `fuel` of them. -/
def Decimal.trim : Nat → Decimal → Decimal
  | 0, d => d
  | fuel + 1, d =>
    if d.digits % 10 = 0 && d.digits != 0 then Decimal.trim fuel ⟨d.digits / 10, d.exponent + 1⟩
    else d

/-- The shortest decimal that reads back as `mantissa * 2 ^ exponent`, for a positive mantissa.
Seventeen digits always suffice. -/
def shortest (mantissa : Nat) (exponent : Int) : Decimal :=
  let c := cell mantissa exponent
  let value := (Ratio.mk mantissa 1).doubled exponent
  let estimate := (Int.ofNat mantissa.log2 + exponent) * 30103 / 100000
  let leading := leadingExponent value estimate
  ((c.search leading 18 1).getD ⟨mantissa, 0⟩).trim 20

end Milp.Number
