import Milp.Number.Shortest
import Milp.Number.Scalar

/-!
# Numbers as text

`text` writes a double with the fewest digits that read back as it, positionally and never with
an exponent. `read?` reads the decimal, infinite and undefined forms; `readCount?` reads a whole
number that fits 64 bits.
-/

namespace Milp.Number

/-- How a double is written: the texts of what has no digits, and the mark of the fraction. -/
structure Layout where
  undefined : String
  infinite : String
  point : Char

/-- Numbers in messages and answers: `NaN`, `inf`, a decimal point. -/
def layout : Layout := ⟨"NaN", "inf", '.'⟩

/-- The digits of a decimal written out in full, without an exponent. -/
def Decimal.positional (l : Layout) (d : Decimal) : String :=
  let digits := (Nat.repr d.digits).toList
  if d.exponent ≥ 0 then
    String.ofList (digits ++ List.replicate d.exponent.toNat '0')
  else
    let places := (-d.exponent).toNat
    let padded := List.replicate (places + 1 - digits.length) '0' ++ digits
    let wholeCount := padded.length - places
    String.ofList (padded.take wholeCount ++ l.point :: padded.drop wholeCount)

/-- A double as text; a zero keeps its sign. -/
def text (x : Float) : String :=
  match parts x with
  | .nan => layout.undefined
  | .infinite negative => if negative then "-" ++ layout.infinite else layout.infinite
  | .finite negative mantissa exponent =>
    let magnitude :=
      if mantissa = 0 then "0" else (shortest mantissa exponent).positional layout
    if negative then "-" ++ magnitude else magnitude

/-- The text of an extended double. -/
def extendedText : Extended Float → String
  | .negInf => "-" ++ layout.infinite
  | .fin x => text x
  | .posInf => layout.infinite
  | .undefined => layout.undefined

/-- The value of a list of ASCII digits, most significant first. -/
def digitsValue (cs : List Char) : Nat := cs.foldl (fun acc c => 10 * acc + (c.toNat - 48)) 0

/-- Whether the character is one of the ten ASCII digits. -/
def isDigit (c : Char) : Bool := '0' ≤ c && c ≤ '9'

/-- Splits off an optional sign; the flag says that it was a minus. -/
def splitSign : List Char → Bool × List Char
  | '-' :: rest => (true, rest)
  | '+' :: rest => (false, rest)
  | cs => (false, cs)

/-- Reads a whole number: an optional sign and at least one digit. -/
def readWhole? (cs : List Char) : Option Int :=
  let (negative, digits) := splitSign cs
  if digits.isEmpty || !digits.all isDigit then none
  else
    let magnitude := Int.ofNat (digitsValue digits)
    some (if negative then -magnitude else magnitude)

/-- The decimal exponent after the mantissa: nothing, or `e` and a whole number. -/
def readExponent? : List Char → Option Int
  | [] => some 0
  | c :: rest => if c = 'e' || c = 'E' then readWhole? rest else none

/-- Decimal exponents beyond this bound give zero or infinity for any mantissa in range. -/
def exponentBound : Int := 400

/-- The double nearest to `digits * 10 ^ exponent`. The magnitude is tested first, so that no power
of ten beyond the range of doubles is computed. -/
def ofDecimal (digits : Nat) (exponent : Int) : Float :=
  let size := Int.ofNat (Nat.repr digits).length + exponent
  if digits = 0 || size < -exponentBound then 0
  else if size > exponentBound then 1 / 0
  else if exponent < 0 then Float.ofScientific digits true (-exponent).toNat
  else Float.ofScientific digits false exponent.toNat

/-- Reads an unsigned decimal: digits with at most one point, at least one digit, and an optional
exponent. -/
def readDecimal? (cs : List Char) : Option Float :=
  let wholePart := cs.takeWhile isDigit
  let afterWhole := cs.dropWhile isDigit
  let (fraction, rest) := match afterWhole with
    | '.' :: tail => (tail.takeWhile isDigit, tail.dropWhile isDigit)
    | _ => ([], afterWhole)
  if wholePart.isEmpty && fraction.isEmpty then none
  else
    match readExponent? rest with
    | none => none
    | some exponent =>
      some (ofDecimal (digitsValue (wholePart ++ fraction)) (exponent - Int.ofNat fraction.length))

/-- A letter in lower case, other characters as they are. -/
def lowered (c : Char) : Char := if 'A' ≤ c && c ≤ 'Z' then Char.ofNat (c.toNat + 32) else c

/-- Reads a double: an optional sign, then a decimal, `inf`, `infinity` or `nan` in any case. -/
def read? (s : String) : Option Float :=
  let (negative, body) := splitSign s.toList
  let magnitude? : Option Float :=
    let word := String.ofList (body.map lowered)
    if word = "inf" || word = "infinity" then some (1 / 0)
    else if word = "nan" then some (0 / 0)
    else readDecimal? body
  magnitude?.map fun x => if negative then -x else x

/-- Reads a whole number below `2 ^ 64`: an optional plus sign and digits. -/
def readCount? (s : String) : Option Nat :=
  let digits := match s.toList with
    | '+' :: rest => rest
    | cs => cs
  if digits.isEmpty || !digits.all isDigit then none
  else
    let n := digitsValue digits
    if n < Nat.pow 2 64 then some n else none

end Milp.Number
