/-!
# Doubles as integers

A double is a sign, a whole number below `2 ^ 53` and a power of two. This file takes doubles
apart (`parts`), states their exact value (`exactValue?`) and rounds them to whole numbers.
Rounding is done on the integers of the decomposition, so no step of it is approximate; the
sign of a zero is kept (`ceil (-0.5)` is `-0`).
-/

namespace Milp.Number

/-- A double taken apart. The finite ones are `(-1)^negative * mantissa * 2 ^ exponent`. -/
inductive Parts where
  | nan
  | infinite (negative : Bool)
  | finite (negative : Bool) (mantissa : Nat) (exponent : Int)
  deriving DecidableEq, Repr

/-- The parts of a double, read off its bit pattern. -/
def parts (x : Float) : Parts :=
  let bits := x.toBits.toNat
  let negative := bits / Nat.pow 2 63 == 1
  let biased := bits / Nat.pow 2 52 % 2048
  let fraction := bits % Nat.pow 2 52
  if biased = 2047 then
    if fraction = 0 then .infinite negative else .nan
  else if biased = 0 then
    .finite negative fraction (-1074)
  else
    .finite negative (fraction + Nat.pow 2 52) (Int.ofNat biased - 1075)

/-- The exact value of a finite double. -/
def exactValue? (x : Float) : Option Rat :=
  match parts x with
  | .finite negative mantissa exponent =>
    let magnitude : Rat :=
      if exponent < 0 then mkRat mantissa (Nat.pow 2 (-exponent).toNat)
      else mkRat (mantissa * Nat.pow 2 exponent.toNat) 1
    some (if negative then -magnitude else magnitude)
  | _ => none

/-- The double with the given sign and whole magnitude, exact for magnitudes up to `2 ^ 53`. -/
def whole (negative : Bool) (magnitude : Nat) : Float :=
  let sign : Nat := if negative then Nat.pow 2 63 else 0
  if magnitude = 0 then
    Float.ofBits (UInt64.ofNat sign)
  else
    let top := magnitude.log2
    let fraction := magnitude * Nat.pow 2 (52 - top) - Nat.pow 2 52
    Float.ofBits (UInt64.ofNat (sign + (top + 1023) * Nat.pow 2 52 + fraction))

/-- Rounds to a whole number. `up negative rest half` says whether the magnitude moves away from
zero when `rest` of `2 * half` parts of a unit lie beyond its whole part. -/
def roundBy (up : Bool → Nat → Nat → Bool) (x : Float) : Float :=
  match parts x with
  | .finite negative mantissa exponent =>
    if exponent < 0 then
      let shift := (-exponent).toNat
      let kept := mantissa >>> shift
      let rest := mantissa - (kept <<< shift)
      whole negative (if up negative rest (Nat.pow 2 (shift - 1)) then kept + 1 else kept)
    else x
  | _ => x

/-- The largest whole number at most `x`. -/
def floor (x : Float) : Float := roundBy (fun negative rest _ => negative && rest != 0) x

/-- The smallest whole number at least `x`. -/
def ceil (x : Float) : Float := roundBy (fun negative rest _ => !negative && rest != 0) x

/-- The nearest whole number; halves move away from zero. -/
def round (x : Float) : Float := roundBy (fun _ rest half => half ≤ rest) x

/-- The whole number a double is, when it is one and its magnitude is below `bound`. -/
def wholeBelow? (bound : Nat) (x : Float) : Option Int :=
  match parts x with
  | .finite negative mantissa exponent =>
    let magnitude? : Option Nat :=
      if exponent < 0 then
        let kept := mantissa >>> (-exponent).toNat
        if kept <<< (-exponent).toNat = mantissa then some kept else none
      else some (mantissa <<< exponent.toNat)
    match magnitude? with
    | some magnitude =>
      if magnitude < bound then some (if negative then -Int.ofNat magnitude else magnitude)
      else none
    | none => none
  | _ => none

end Milp.Number
