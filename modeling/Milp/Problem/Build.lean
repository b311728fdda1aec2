import Milp.Problem.Basic

/-!
# Building a problem

Variables and constraints are added one by one to a problem without any. An addition that the
problem cannot take is refused with its cause and changes nothing. Bounds of integral variables
are rounded inwards, those of binary ones also cut to zero and one; the terms of a row are
ordered by variable, repeated ones added up and zero ones dropped.
-/

namespace Milp

/-- Why a variable or constraint is refused. -/
inductive ProblemError (α : Type) where
  | duplicateVariable (name : String)
  | duplicateConstraint (name : String)
  | emptyDomain (name : String) (lower : α) (upper : Extended α)
  | infiniteLowerBound (name : String)
  | nonFiniteCoefficient (context : String) (value : α)
  | unknownVariable (constraint : String) (unknown : Var)

/-- The cause in words. -/
def ProblemError.message : ProblemError Float → String
  | .duplicateVariable name => s!"variable name '{name}' is used twice"
  | .duplicateConstraint name => s!"constraint name '{name}' is used twice"
  | .emptyDomain name lower upper =>
    s!"variable '{name}' has an empty domain [" ++ Number.text lower ++ ", " ++
      Number.extendedText upper ++ "]"
  | .infiniteLowerBound name => s!"variable '{name}' needs a finite lower bound"
  | .nonFiniteCoefficient context value =>
    "non-finite coefficient " ++ Number.text value ++ s!" in '{context}'"
  | .unknownVariable constraint unknown =>
    s!"constraint '{constraint}' references unknown {Var.label unknown}"

variable {α : Type} [Scalar α]

/-- The bounds that a variable of the given kind keeps of `lower` and `upper`. -/
def VariableKind.domain (kind : VariableKind) (lower : α) (upper : Extended α) :
    α × Extended α :=
  let (lower, upper) :=
    if kind = .binary then (Scalar.max 0 lower, upper.min (.fin 1)) else (lower, upper)
  if kind.isIntegral then
    (Scalar.ceil lower, match upper with
      | .fin u => .fin (Scalar.floor u)
      | u => u)
  else (lower, upper)

/-- Adds up neighbouring terms of one variable, starting with the term `(v, a)`. -/
def mergeFrom (v : Var) (a : α) : List (Var × α) → List (Var × α)
  | [] => [(v, a)]
  | (w, b) :: rest => if v = w then mergeFrom v (a + b) rest else (v, a) :: mergeFrom w b rest

/-- The terms of a row in order of their variables, one for each variable, none of them zero. -/
def mergeTerms (terms : List (Var × α)) : List (Var × α) :=
  let merged := match terms.mergeSort (fun s t => s.1 ≤ t.1) with
    | [] => []
    | (v, a) :: rest => mergeFrom v a rest
  merged.filter fun t => !(t.2 == 0)

namespace Problem

/-- The problem with one more variable, and its position. -/
def addVariable (p : Problem α) (name : String) (kind : VariableKind) (objective lower : α)
    (upper : Extended α) : Except (ProblemError α) (Var × Problem α) :=
  if (p.find? name).isSome then .error (.duplicateVariable name)
  else if !Scalar.isFinite objective then .error (.nonFiniteCoefficient name objective)
  else if !Scalar.isFinite lower then .error (.infiniteLowerBound name)
  else
    let (lower, upper) := kind.domain lower upper
    if (Scalar.extend lower).le upper then
      .ok (p.size, { p with vars := p.vars.push ⟨name, kind, objective, lower, upper⟩ })
    else .error (.emptyDomain name lower upper)

/-- What is wrong with the first bad term, if any. -/
def badTerm? (p : Problem α) (name : String) (terms : List (Var × α)) : Option (ProblemError α) :=
  terms.findSome? fun (v, a) =>
    if v ≥ p.size then some (.unknownVariable name v)
    else if !Scalar.isFinite a then some (.nonFiniteCoefficient name a)
    else none

/-- The problem with one more constraint, and its position. -/
def addConstraint (p : Problem α) (name : String) (terms : List (Var × α)) (sense : RowSense)
    (rhs : α) : Except (ProblemError α) (Nat × Problem α) :=
  if p.constraints.any (·.name == name) then .error (.duplicateConstraint name)
  else if !Scalar.isFinite rhs then .error (.nonFiniteCoefficient name rhs)
  else
    match p.badTerm? name terms with
    | some e => .error e
    | none =>
      let constraint : Constraint α := { terms := mergeTerms terms, sense, rhs, name }
      .ok (p.constraints.size, { p with constraints := p.constraints.push constraint })

end Problem
end Milp
