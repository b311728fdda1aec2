import Milp.Param.Value

/-!
# The parameter registry

A registry knows every parameter by name: what it is for, its default, which also fixes its type,
its value and the range that numbers must lie in. Its parameters stand in the order of their
names. An operation that fails changes nothing, except that setting several parameters stops at
the first that fails.
-/

namespace Milp

/-- Why a registry refuses. -/
inductive ParamError where
  | unknown (name : String)
  | duplicate (name : String)
  | rejected (name : String) (cause : ValueError)

/-- The cause in words. -/
def ParamError.message : ParamError → String
  | .unknown name => s!"parameter {name} unknown"
  | .duplicate name => s!"parameter {name} is already registered"
  | .rejected name cause => s!"parameter {name}: " ++ cause.message

/-- What a registry knows of one parameter. -/
structure Parameter where
  name : String
  description : String
  default : ParamValue
  value : ParamValue
  range : Option (Float × Float)

namespace Parameter

/-- The type of the parameter. -/
def type (p : Parameter) : ParamType := p.default.type

/-- Fails when the value lies outside the range. Text lies in every range. -/
def checkRange (range : Option (Float × Float)) (v : ParamValue) : Except ValueError Unit :=
  match v.asDouble?, range with
  | some x, some (min, max) =>
    if x.isNaN || x < min || x > max then .error (.outOfRange x min max) else .ok ()
  | _, _ => .ok ()

/-- The parameter with a new value, cast to its type. -/
def set (p : Parameter) (v : ParamValue) : Except ValueError Parameter := do
  let v ← v.cast p.type
  checkRange p.range v
  pure { p with value := v }

/-- The parameter at its default. -/
def reset (p : Parameter) : Parameter := { p with value := p.default }

/-- Whether the value differs from the default. -/
def isChanged (p : Parameter) : Bool := !p.value.same p.default

end Parameter

/-- Named parameters, in the order of their names. -/
structure Registry where
  parameters : List Parameter

namespace Registry

/-- A registry without parameters. -/
def empty : Registry := ⟨[]⟩

/-- The parameter of a name. -/
def find? (r : Registry) (name : String) : Option Parameter :=
  r.parameters.find? (·.name == name)

/-- The parameter of a name, which has to be there. -/
def find (r : Registry) (name : String) : Except ParamError Parameter :=
  match r.find? name with
  | some p => .ok p
  | none => .error (.unknown name)

/-- Puts a parameter at its place in the order of names. -/
def insertSorted (p : Parameter) : List Parameter → List Parameter
  | [] => [p]
  | q :: rest => if p.name < q.name then p :: q :: rest else q :: insertSorted p rest

/-- Puts a parameter in the place of the one with its name. -/
def replace (r : Registry) (p : Parameter) : Registry :=
  ⟨r.parameters.map fun q => if q.name = p.name then p else q⟩

/-- Registers a parameter at its default. -/
def register (r : Registry) (name description : String) (default : ParamValue)
    (range : Option (Float × Float)) : Except ParamError Registry :=
  if (r.find? name).isSome then .error (.duplicate name)
  else
    match Parameter.checkRange range default with
    | .error e => .error (.rejected name e)
    | .ok () => .ok ⟨insertSorted ⟨name, description, default, default, range⟩ r.parameters⟩

/-- Whether there is a parameter of the name. -/
def contains (r : Registry) (name : String) : Bool := (r.find? name).isSome

/-- The number of parameters. -/
def size (r : Registry) : Nat := r.parameters.length

/-- The names in order. -/
def names (r : Registry) : List String := r.parameters.map (·.name)

/-- The value of a parameter. -/
def get (r : Registry) (name : String) : Except ParamError ParamValue := do
  pure (← r.find name).value

/-- The value of a parameter, cast to the type `t`. -/
def getAs (r : Registry) (t : ParamType) (name : String) : Except ParamError ParamValue := do
  match (← r.get name).cast t with
  | .ok v => pure v
  | .error e => .error (.rejected name e)

/-- The content of a parameter as a value of the type `t`. -/
def read (r : Registry) (t : ParamType) (name : String) : Except ParamError t.Carrier := do
  let v ← r.getAs t name
  match v.content? t with
  | some x => pure x
  | none => .error (.rejected name (.invalidCast v t))

/-- Sets a parameter. -/
def set (r : Registry) (name : String) (v : ParamValue) : Except ParamError Registry := do
  let p ← r.find name
  match p.set v with
  | .ok p => pure (r.replace p)
  | .error e => .error (.rejected name e)

/-- Sets parameters one after the other up to the first failure, which is reported. -/
def setMany (r : Registry) : List (String × ParamValue) → Registry × Except ParamError Unit
  | [] => (r, .ok ())
  | (name, v) :: rest =>
    match r.set name v with
    | .ok r => r.setMany rest
    | .error e => (r, .error e)

/-- Restores the default of a parameter. -/
def reset (r : Registry) (name : String) : Except ParamError Registry := do
  pure (r.replace (← r.find name).reset)

/-- Restores every default. -/
def resetAll (r : Registry) : Registry := ⟨r.parameters.map Parameter.reset⟩

/-- The parameters that differ from their defaults, with their values, in order. -/
def changed (r : Registry) : List (String × ParamValue) :=
  (r.parameters.filter Parameter.isChanged).map fun p => (p.name, p.value)

end Registry
end Milp
