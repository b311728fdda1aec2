import Milp.Failure
import Milp.Number.Duration
import Milp.Search.Error
import Milp.Search.Rule

/-!
# Solver settings

The solver's parameters have names, defaults and ranges in a registry. At the start of a solve
they are read once into settings: numbers that stand for "no limit" become absent limits, and
characters become rules.
-/

namespace Milp

/-- A time limit of this many seconds or more is no limit. -/
def infiniteTime : Float := 1e20

/-- The range of seeds. -/
def seedRange : Option (Float × Float) := some (0, 2147483647)

/-- The parameters of the solver: name, description, default and range. -/
def solverParameters : List (String × String × ParamValue × Option (Float × Float)) :=
  [("limits/time", "maximal time in seconds to run", .real infiniteTime,
      some (0, infiniteTime)),
    ("limits/nodes", "maximal number of nodes to process (-1: no limit)", .long (-1),
      some (-1, 9223372036854775808)),
    ("limits/solutions",
      "solving stops if this many improving solutions were found (-1: no limit)", .int (-1),
      some (-1, 2147483647)),
    ("numerics/feastol", "feasibility and integrality tolerance", .real defaultTolerance,
      some (1e-12, 1e-1)),
    ("branching/rule", "default branching rule ('f'ractional, 'i'ndex, 'r'andom)", .char 'f',
      none),
    ("nodeselection/childsel", "child explored first ('d'own, 'u'p)", .char 'd', none),
    ("randomization/permutevars", "permute the variable order used to break ties", .bool false,
      none),
    ("randomization/permuteconss", "permute the constraint order of the relaxation",
      .bool false, none),
    ("randomization/permutationseed", "seed for the variable and constraint permutations",
      .int 0, seedRange),
    ("randomization/randomseedshift", "seed for randomized default branching", .int 0,
      seedRange),
    ("randomization/lpseed", "seed for the simplex column order (0: natural order)", .int 0,
      seedRange),
    ("display/verblevel", "verbosity of solver logging (0: none, 1: summary, 2+: per node)",
      .int 0, some (0, 5)),
    ("display/prefix", "prefix of solver log lines", .string "", none)]

/-- The registry of the solver's parameters, each at its default. -/
def defaultRegistry : Registry :=
  solverParameters.foldl (fun r (name, description, default, range) =>
    match r.register name description default range with
    | .ok r => r
    | .error _ => r) Registry.empty

/-- The settings of one solve. -/
structure Settings (α : Type) where
  timeLimit : Option Duration
  nodeLimit : Option Nat
  solutionLimit : Option Nat
  tolerance : α
  rule : BranchingRule
  childSelection : ChildSelection
  permuteVars : Bool
  permuteConstraints : Bool
  permutationSeed : UInt64
  randomSeedShift : UInt64
  lpSeed : UInt64
  verbosity : Int32
  linePrefix : String

namespace Settings

/-- A limit, which negative numbers lift. -/
def limit? (n : Int) : Option Nat := if n < 0 then none else some n.toNat

/-- A seed from a parameter that cannot be negative. -/
def seedOf (n : Int32) : UInt64 := UInt64.ofNat n.toInt.toNat

/-- The crash of a time limit beyond the range of durations. -/
def timeOutOfRange : Crash :=
  .message "cannot convert float seconds to Duration: value is either too big or NaN"

variable {α : Type}

/-- Reads the content of a parameter. -/
def content (r : Registry) (t : ParamType) (name : String) :
    Attempt (SolverError α) t.Carrier :=
  match r.read t name with
  | .ok x => .ok x
  | .error e => Attempt.fail (.param e)

/-- Reads a parameter character that stands for one of several rules. -/
def selected {β : Type} (r : Registry) (name : String) (ofChar? : Char → Option β) :
    Attempt (SolverError α) β := do
  let c ← content r .char name
  match ofChar? c with
  | some b => pure b
  | none => Attempt.fail (.invalidSetting name c)

/-- The time limit of a number of seconds; the largest number stands for none. -/
def timeLimit? (seconds : Float) : Attempt (SolverError α) (Option Duration) :=
  if seconds < infiniteTime then
    match Duration.ofSeconds? seconds with
    | some d => .ok (some d)
    | none => .error (.crash timeOutOfRange)
  else .ok none

/-- Reads the settings from the parameters. -/
def read [Scalar α] (r : Registry) : Attempt (SolverError α) (Settings α) := do
  let time ← content r .real "limits/time"
  let nodes ← content r .long "limits/nodes"
  let solutions ← content r .int "limits/solutions"
  let rule ← selected r "branching/rule" BranchingRule.ofChar?
  let childSelection ← selected r "nodeselection/childsel" ChildSelection.ofChar?
  let timeLimit ← timeLimit? time
  let tolerance ← content r .real "numerics/feastol"
  let permuteVars ← content r .bool "randomization/permutevars"
  let permuteConstraints ← content r .bool "randomization/permuteconss"
  let permutationSeed ← content r .int "randomization/permutationseed"
  let randomSeedShift ← content r .int "randomization/randomseedshift"
  let lpSeed ← content r .int "randomization/lpseed"
  let verbosity ← content r .int "display/verblevel"
  let linePrefix ← content r .string "display/prefix"
  pure {
    timeLimit
    nodeLimit := limit? nodes.toInt
    solutionLimit := limit? solutions.toInt
    tolerance := Scalar.ofDouble tolerance
    rule
    childSelection
    permuteVars
    permuteConstraints
    permutationSeed := seedOf permutationSeed
    randomSeedShift := seedOf randomSeedShift
    lpSeed := seedOf lpSeed
    verbosity
    linePrefix }

end Settings

/-- The settings where no parameter is changed. -/
def Settings.standard : Settings Float where
  timeLimit := none
  nodeLimit := none
  solutionLimit := none
  tolerance := defaultTolerance
  rule := .mostFractional
  childSelection := .down
  permuteVars := false
  permuteConstraints := false
  permutationSeed := 0
  randomSeedShift := 0
  lpSeed := 0
  verbosity := 0
  linePrefix := ""

/-- Whether two settings are equal. -/
def Settings.same (s t : Settings Float) : Bool :=
  s.timeLimit == t.timeLimit && s.nodeLimit == t.nodeLimit &&
    s.solutionLimit == t.solutionLimit && s.tolerance == t.tolerance && s.rule == t.rule &&
    s.childSelection == t.childSelection && s.permuteVars == t.permuteVars &&
    s.permuteConstraints == t.permuteConstraints && s.permutationSeed == t.permutationSeed &&
    s.randomSeedShift == t.randomSeedShift && s.lpSeed == t.lpSeed &&
    s.verbosity == t.verbosity && s.linePrefix == t.linePrefix

end Milp
