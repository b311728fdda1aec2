import Milp.Number.Text

/-!
# Parameter values

A parameter value is a truth value, an integer of 32 or 64 bits, a double, a character or a
string. `cast` moves a value to another type where nothing is lost: whole doubles become
integers, integers become doubles, zero and one become truth values, and a character and a
string of one character stand for each other. All else is refused.
-/

namespace Milp

/-- The types of parameters. -/
inductive ParamType where
  | bool
  | int
  | long
  | real
  | char
  | string
  deriving DecidableEq, Repr

namespace ParamType

/-- All types. -/
def all : List ParamType := [.bool, .int, .long, .real, .char, .string]

/-- The type in words. -/
def name : ParamType → String
  | .bool => "bool"
  | .int => "int"
  | .long => "long int"
  | .real => "real"
  | .char => "char"
  | .string => "string"

/-- The values of a type. -/
abbrev Carrier : ParamType → Type
  | .bool => Bool
  | .int => Int32
  | .long => Int64
  | .real => Float
  | .char => Char
  | .string => String

end ParamType

/-- The value of a parameter. -/
inductive ParamValue where
  | bool (value : Bool)
  | int (value : Int32)
  | long (value : Int64)
  | real (value : Float)
  | char (value : Char)
  | string (value : String)

/-- Why a parameter does not take a value. -/
inductive ValueError where
  | invalidCast (value : ParamValue) (target : ParamType)
  | outOfRange (value min max : Float)

namespace ParamValue

/-- The type of a value. -/
def type : ParamValue → ParamType
  | .bool _ => .bool
  | .int _ => .int
  | .long _ => .long
  | .real _ => .real
  | .char _ => .char
  | .string _ => .string

/-- The value in messages: characters between single, strings between double quotes. -/
def text : ParamValue → String
  | .bool b => if b then "true" else "false"
  | .int i => Int.repr i.toInt
  | .long i => Int.repr i.toInt
  | .real x => Number.text x
  | .char c => "'" ++ c.toString ++ "'"
  | .string s => "\"" ++ s ++ "\""

/-- The value as a double, if it is a number or a truth value. -/
def asDouble? : ParamValue → Option Float
  | .bool b => some (if b then 1 else 0)
  | .int i => some (Float.ofInt i.toInt)
  | .long i => some (Float.ofInt i.toInt)
  | .real x => some x
  | .char _ => none
  | .string _ => none

/-- Whether two values are equal. As among doubles, the two zeros are equal and an undefined value
equals nothing. -/
def same : ParamValue → ParamValue → Bool
  | .bool a, .bool b => a == b
  | .int a, .int b => a == b
  | .long a, .long b => a == b
  | .real a, .real b => a == b
  | .char a, .char b => a == b
  | .string a, .string b => a == b
  | _, _ => false

/-- Doubles of this magnitude or more are not taken for integers. -/
def wholeBound : Nat := 9000000000000000

/-- The value as an integer, if it is one. -/
def asInteger? : ParamValue → Option Int
  | .bool b => some (if b then 1 else 0)
  | .int i => some i.toInt
  | .long i => some i.toInt
  | .real x => Number.wholeBelow? wholeBound x
  | .char _ => none
  | .string _ => none

/-- The value in another type, if it has a place there. -/
def cast? (v : ParamValue) (target : ParamType) : Option ParamValue :=
  if v.type = target then some v
  else
    match target with
    | .bool =>
      match v.asInteger? with
      | some 0 => some (.bool false)
      | some 1 => some (.bool true)
      | _ => none
    | .int =>
      match v.asInteger? with
      | some i =>
        if Int32.minValue.toInt ≤ i ∧ i ≤ Int32.maxValue.toInt then some (.int (Int32.ofInt i))
        else none
      | none => none
    | .long => v.asInteger?.map fun i => .long (Int64.ofInt i)
    | .real =>
      match v with
      | .int i => some (.real (Float.ofInt i.toInt))
      | .long i => some (.real (Float.ofInt i.toInt))
      | _ => none
    | .char =>
      match v with
      | .string s =>
        match s.toList with
        | [c] => some (.char c)
        | _ => none
      | _ => none
    | .string =>
      match v with
      | .char c => some (.string c.toString)
      | _ => none

/-- The value in another type. -/
def cast (v : ParamValue) (target : ParamType) : Except ValueError ParamValue :=
  match v.cast? target with
  | some w => .ok w
  | none => .error (.invalidCast v target)

/-- The content of a value of the given type. -/
def content? : (t : ParamType) → ParamValue → Option t.Carrier
  | .bool, .bool b => some b
  | .int, .int i => some i
  | .long, .long i => some i
  | .real, .real x => some x
  | .char, .char c => some c
  | .string, .string s => some s
  | _, _ => none

end ParamValue

/-- The cause in words. -/
def ValueError.message : ValueError → String
  | .invalidCast value target =>
    s!"cannot convert {value.text} ({value.type.name}) to {target.name}"
  | .outOfRange value min max =>
    "value " ++ Number.text value ++ " out of range [" ++ Number.text min ++ ", " ++
      Number.text max ++ "]"

end Milp
