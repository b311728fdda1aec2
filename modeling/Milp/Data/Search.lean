import Milp.Data.Problem
import Milp.Search.Monitor
import Milp.Search.Script
import Milp.Search.Settings

/-!
# Searches as data

What a search is told is read from data: schedules, hooks, the replies of prepared moves, events
and monitors. What is fixed about it is written in words. Monitors may be nested; they are read as
deep as the data goes.
-/

namespace Milp

/-! ### Words -/

instance : Writable Sense := ⟨fun s => .text s.name⟩

instance : Writable RowSense := ⟨fun s => .text s.name⟩

instance : Writable VariableKind := ⟨fun k => .text k.name⟩

instance : Writable ParamType := ⟨fun t => .text t.name⟩

instance : Writable Stage := ⟨fun s => .text s.text⟩

instance : Writable SolveStatus := ⟨fun s => .text s.text⟩

instance : Writable StopReason := ⟨fun r => .text r.text⟩

instance : Writable Command := ⟨fun c => .text c.text⟩

instance : Writable DecisionPoint := ⟨fun p => .text p.text⟩

instance : Writable Choice := ⟨fun c => .text c.text⟩

instance : Writable Resolution := ⟨fun r => .text r.text⟩

instance : Writable TrialResult := ⟨fun r => .text r.text⟩

instance : Writable BranchingRule := ⟨fun r => .text r.text⟩

instance : Writable ChildSelection := ⟨fun c => .text c.text⟩

/-! ### Settings -/

/-- Limits are written as texts, for they may be huge. -/
instance : Writable (Settings Float) where
  write s := .parts [
    ("time_limit_ns", .of (s.timeLimit.map fun d => Nat.repr d.nanos)),
    ("node_limit", .of (s.nodeLimit.map Nat.repr)),
    ("solution_limit", .of (s.solutionLimit.map Nat.repr)),
    ("feastol", .of s.tolerance),
    ("rule", .of s.rule),
    ("up_first", .of (s.childSelection == .up)),
    ("permute_vars", .of s.permuteVars),
    ("permute_conss", .of s.permuteConstraints),
    ("permutation_seed", .of s.permutationSeed.toNat),
    ("random_seed_shift", .of s.randomSeedShift.toNat),
    ("lp_seed", .of s.lpSeed.toNat),
    ("verbosity", .of s.verbosity),
    ("prefix", .of s.linePrefix),
    ("default", .of (s.same Settings.standard))]

/-! ### Moves -/

/-- A schedule is its frequency, its start and its stop. -/
instance : Readable Schedule where
  read d := do
    match (← d.val : List Int32) with
    | [freq, start, stop] => pure { freq, start, stop }
    | _ => throw (.unexpected "a schedule")

instance : Readable Hooks where
  read d := do
    pure { branching := ← d.getD "branching" false, heuristic := ← d.get? "heuristic" }

/-- The replies that are single words. -/
def Reply.words : List (String × Reply) :=
  [("hold", .hold), ("did_not_run", .choose .didNotRun), ("found", .choose .foundSolution),
    ("did_not_find", .choose .didNotFind), ("interrupt", .choose .interrupt),
    ("heuristic", .heuristic)]

instance : Readable Reply where
  read
    | .text s => Data.word "a reply" Reply.words (.text s)
    | d => do
      let (name, v) ← d.only
      match name with
      | "var" => (.choose <| .branched ·) <$> v.val
      | "cand" => .candidate <$> v.val
      | "pseudo" => .pseudo <$> v.val
      | "sum" => (.choose <| .branchedSum ·) <$> v.val
      | "sum_cand" => .sumOfCandidates <$> v.val
      | "sum_pseudo" => .sumOfPseudos <$> v.val
      | _ => throw (.unexpected "a reply")

/-! ### Monitors -/

instance : Readable SearchEvent where
  read := Data.word "an event"
    [("enter", .entered), ("exit", .exited), ("step", .stepped), ("solution", .solutionFound)]

/-- A duration is read from a number of seconds: a whole number stands for itself, any other for
the double nearest to it. -/
instance : Readable Duration where
  read d :=
    match (d.val : Except DataError Nat) with
    | .ok seconds => .ok (.ofWholeSeconds seconds)
    | .error _ => do
      match Duration.ofSeconds? (← d.val) with
      | some duration => pure duration
      | none => throw (.unexpected "a duration")
  absent := some (.ofWholeSeconds 0)

/-- Reads a monitor on named flags that is nested less than `depth` deep. -/
def Monitor.readWithin : Nat → Data → Except DataError (Monitor String)
  | 0, _ => .error (.unexpected "a monitor")
  | depth + 1, d => do
    match (← d.get "kind" : String) with
    | "node" => pure (.nodeLimit (← d.get "limit") 0)
    | "solution" => pure (.solutionLimit (← d.get "limit") 0)
    | "interrupt" => .interrupt <$> d.get "flag"
    | "time" => pure (.timeLimit (← d.get "seconds") (← d.getD "mask" 0) 0)
    | "composite" =>
      let parts : List Data ← d.getD "of" []
      .composite <$> parts.mapM (Monitor.readWithin depth)
    | _ => throw (.unexpected "a monitor")

instance : Readable (Monitor String) where
  read d := Monitor.readWithin d.depth d

end Milp
