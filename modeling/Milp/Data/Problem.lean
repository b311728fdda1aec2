import Milp.Data.Error
import Milp.Problem.Builder
import Milp.Problem.Solution

/-!
# Problems as data

Parameter values, rows, variables, constraints, problems and solutions as data. A problem is read
as a draft: its bounds and terms stand as they are given, until `Problem.ofDraft` builds it.
-/

namespace Milp

/-! ### Parameters -/

/-- The names of the types of parameters in data. -/
def ParamType.words : List (String × ParamType) :=
  [("bool", .bool), ("int", .int), ("long", .long), ("real", .real), ("char", .char),
    ("str", .string)]

instance : Readable ParamType where
  read := Data.word "a type" ParamType.words

/-- A parameter value is a part named for its type. Numbers of 64 bits are texts. -/
instance : Writable ParamValue where
  write
    | .bool b => .parts [("bool", .of b)]
    | .int i => .parts [("int", .of i)]
    | .long i => .parts [("long", .of (Int.repr i.toInt))]
    | .real x => .parts [("real", .of x)]
    | .char c => .parts [("char", .of c.toString)]
    | .string s => .parts [("str", .of s)]

instance : Readable ParamValue where
  read d := do
    let (name, v) ← d.only
    match ParamType.words.lookup name with
    | some .bool => .bool <$> v.val
    | some .int => .int <$> v.val
    | some .long => .long <$> v.val
    | some .real => .real <$> v.val
    | some .char => .char <$> v.val
    | some .string => .string <$> v.val
    | none => throw (.unexpected "a parameter value")

/-! ### Rows and problems -/

instance : Readable VariableKind where
  read := Data.word "a kind of variable" (VariableKind.all.map fun k => (k.name, k))

instance : Readable Sense where
  read := Data.word "a sense" [("minimize", .minimize), ("maximize", .maximize)]

instance : Readable RowSense where
  read := Data.word "a relation" [("<=", .lessEqual), (">=", .greaterEqual), ("=", .equal)]

/-- A row is given by its terms or as the sum of variables. -/
instance : Readable (Row Float) where
  read d := do
    let sense ← d.get "sense"
    let rhs ← d.get "rhs"
    match ← d.get? "sum" with
    | some vars => pure (Row.ofSum vars sense rhs)
    | none => pure ⟨← d.getD "row" [], sense, rhs⟩

instance : Readable (Variable Float) where
  read
    | .list [name, kind, objective, lower, upper] => do
      pure ⟨← name.val, ← kind.val, ← objective.val, ← lower.val, ← upper.val⟩
    | _ => .error (.unexpected "a variable")

instance : Readable (Constraint Float) where
  read
    | .list [name, sense, rhs, row] => do
      pure { name := ← name.val, sense := ← sense.val, rhs := ← rhs.val, terms := ← row.val }
    | _ => .error (.unexpected "a constraint")

/-- The name of a problem that is given none. -/
def Problem.defaultName : String := "p"

instance : Readable (Problem Float) where
  read d := do
    pure {
      name := ← d.getD "name" Problem.defaultName
      sense := ← d.getD "sense" .minimize
      vars := ← d.getD "vars" #[]
      constraints := ← d.getD "cons" #[] }

/-- A problem with everything that can be asked of it. -/
instance : Writable (Problem Float) where
  write p := .parts [
    ("name", .of p.name),
    ("sense", .of p.sense.name),
    ("vars", .of (p.vars.toList.map fun v => Data.parts [
      ("name", .of v.name),
      ("kind", .of v.kind.name),
      ("obj", .of v.objective),
      ("lower", .of v.lower),
      ("upper", .of v.upper),
      ("integral", .of v.kind.isIntegral),
      ("found", .of (p.find? v.name))])),
    ("cons", .of (p.constraints.toList.map fun c => Data.parts [
      ("name", .of c.name),
      ("sense", .of c.sense.name),
      ("rhs", .of c.rhs),
      ("row", .of c.terms)])),
    ("n_integral", .of p.integralVars.length),
    ("mask", .of p.integralVars),
    ("display", .of p.summary)]

instance : Writable (Solution Float) where
  write s := .parts [("objective", .of s.objective), ("values", .of s.values)]

end Milp
