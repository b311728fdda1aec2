import Milp.Problem.Build

/-!
# A builder of problems

A builder keeps the variables of a problem in columns: their names, kinds, objective coefficients
and bounds, each in an array of its own, and beside them two tables from the names of variables and
constraints to their positions. An addition checks everything first and then extends the table and
the columns one after another. A builder goes on after an addition that fails.

`Builder.build` gathers the problem from the columns. It is the one that `Problem.addVariable` and
`Problem.addConstraint` make of the same additions.
-/

namespace Milp

/-- A problem in columns to which variables and constraints are added. -/
structure Builder (α : Type) where
  name : String
  sense : Sense := .minimize
  names : Array String := #[]
  kinds : Array VariableKind := #[]
  objective : Array α := #[]
  lower : Array α := #[]
  upper : Array (Extended α) := #[]
  constraints : Array (Constraint α) := #[]
  lookup : List (String × Var) := []
  constraintNames : List (String × Nat) := []

/-- What works on a builder and may fail. The builder is kept as it is at a failure. -/
abbrev Build (α β : Type) := ExceptT (ProblemError α) (StateM (Builder α)) β

namespace Builder

variable {α : Type} [Scalar α]

/-- Gives the problem another name. -/
def setName (name : String) : Build α Unit := modify fun b => { b with name }

/-- Gives the problem another sense. -/
def setSense (sense : Sense) : Build α Unit := modify fun b => { b with sense }

/-- Adds a variable; the answer is its position. -/
def addVariable (name : String) (kind : VariableKind) (objective lower : α) (upper : Extended α) :
    Build α Var := do
  if ((← get).lookup.lookup name).isSome then throw (.duplicateVariable name)
  if !Scalar.isFinite objective then throw (.nonFiniteCoefficient name objective)
  if !Scalar.isFinite lower then throw (.infiniteLowerBound name)
  let domain := kind.domain lower upper
  if !(Scalar.extend domain.1).le domain.2 then throw (.emptyDomain name domain.1 domain.2)
  let v := (← get).names.size
  modify fun b => { b with lookup := (name, v) :: b.lookup }
  modify fun b => { b with names := b.names.push name }
  modify fun b => { b with kinds := b.kinds.push kind }
  modify fun b => { b with objective := b.objective.push objective }
  modify fun b => { b with lower := b.lower.push domain.1 }
  modify fun b => { b with upper := b.upper.push domain.2 }
  pure v

/-- Refuses a term with an unknown variable or a coefficient that is not finite. -/
def checkTerm (name : String) (term : Var × α) : Build α Unit := do
  if term.1 ≥ (← get).names.size then throw (.unknownVariable name term.1)
  if !Scalar.isFinite term.2 then throw (.nonFiniteCoefficient name term.2)

/-- Adds a constraint; the answer is its position. -/
def addConstraint (name : String) (terms : List (Var × α)) (sense : RowSense) (rhs : α) :
    Build α Nat := do
  if ((← get).constraintNames.lookup name).isSome then throw (.duplicateConstraint name)
  if !Scalar.isFinite rhs then throw (.nonFiniteCoefficient name rhs)
  terms.forM (checkTerm name)
  let i := (← get).constraints.size
  modify fun b => { b with constraintNames := (name, i) :: b.constraintNames }
  modify fun b => { b with
    constraints := b.constraints.push { terms := mergeTerms terms, sense, rhs, name } }
  pure i

/-- The problem with the variables that the columns describe. -/
def build (b : Builder α) : Problem α where
  name := b.name
  sense := b.sense
  vars := b.names.mapIdx fun v name =>
    { name
      kind := b.kinds.getD v .continuous
      objective := b.objective.getD v 0
      lower := b.lower.getD v 0
      upper := b.upper.getD v .posInf }
  constraints := b.constraints

/-- A call of a builder. -/
inductive Call (α : Type) where
  | setName (name : String)
  | setSense (sense : Sense)
  | addVariable (name : String) (kind : VariableKind) (objective lower : α) (upper : Extended α)
  | addConstraint (name : String) (terms : List (Var × α)) (sense : RowSense) (rhs : α)

/-- What a call does. The answer of an addition is a position. -/
def perform : Call α → Build α (Option Nat)
  | .setName name => do
    setName name
    pure none
  | .setSense sense => do
    setSense sense
    pure none
  | .addVariable name kind objective lower upper =>
    some <$> addVariable name kind objective lower upper
  | .addConstraint name terms sense rhs => some <$> addConstraint name terms sense rhs

/-- The answer of a call, and the builder after it. -/
def answer (call : Call α) (b : Builder α) : Except (ProblemError α) (Option Nat) × Builder α :=
  (perform call).run.run b

/-- The answers of calls one after another, and the builder after them. A call that fails does not
keep the next ones from being made. -/
def answers : List (Call α) → Builder α → List (Except (ProblemError α) (Option Nat)) × Builder α
  | [], b => ([], b)
  | call :: calls, b =>
    let (first, b) := answer call b
    let (rest, b) := answers calls b
    (first :: rest, b)

end Builder

/-- The calls that add the variables and the constraints of a draft. -/
def Problem.additions {α : Type} (draft : Problem α) : List (Builder.Call α) :=
  (draft.vars.toList.map fun v => .addVariable v.name v.kind v.objective v.lower v.upper) ++
    draft.constraints.toList.map fun c => .addConstraint c.name c.terms c.sense c.rhs

/-- The problem of the variables and constraints of a draft, added in order; the first addition that
fails ends it. -/
def Problem.ofDraft {α : Type} [Scalar α] (draft : Problem α) :
    Except (ProblemError α) (Problem α) :=
  let made : Build α Unit := draft.additions.forM fun call => discard (Builder.perform call)
  match made.run.run { name := draft.name, sense := draft.sense } with
  | (.ok _, b) => .ok b.build
  | (.error e, _) => .error e

end Milp
