import Milp.Data.Search
import Milp.Model

/-!
# Models as data

What a model and its solve show is written as data: snapshots, models with their statistics, solved
relaxations, the records of moves and of the journal.
-/

namespace Milp

/-- A snapshot with everything that can be asked of it. -/
instance : Writable (Snapshot Float) where
  write s := .parts [
    ("stage", .of s.stage),
    ("status", .of s.status),
    ("decision", .of s.decision),
    ("node", .of s.nodeNumber),
    ("depth", .of s.depth),
    ("n_nodes", .of s.nodesExplored),
    ("open", .of s.openNodes),
    ("n_solutions", .of s.solutions),
    ("n_lp_iterations", .of s.iterations),
    ("primal", .of s.primalBound),
    ("dual", .of s.dualBound),
    ("gap", .of s.gap),
    ("lp_objective", .of s.objective),
    ("lp_values", .of s.values),
    ("fractionalities", .of s.fractionalities),
    ("lp_candidates", .of s.candidates),
    ("pseudo_candidates", .of s.pseudoCandidates),
    ("solved", .of s.isSolved),
    ("last_trial", .of s.lastTrial)]

/-- The counters, without the time. -/
instance : Writable (Statistics Float) where
  write s := .parts [
    ("nodes", .of s.nodesExplored),
    ("branchings", .of s.branchings),
    ("max_depth", .of s.maxDepth),
    ("pruned_infeasible", .of s.prunedInfeasible),
    ("pruned_bound", .of s.prunedByBound),
    ("solutions", .of s.solutionsFound),
    ("lp_solves", .of s.relaxationsSolved),
    ("lp_iterations", .of s.iterations),
    ("trials", .of s.trials),
    ("callbacks", .of s.callbackCalls),
    ("root", .of s.rootObjective)]

/-- The tolerance with which the incumbent of a model is judged. -/
def Model.reportTolerance : Float := 1e-6

/-- A model with everything that can be asked of it. -/
instance : Writable (Model Float) where
  write m := .parts [
    ("problem", .of m.problem.name),
    ("stage", .of m.stage),
    ("status", .of m.status),
    ("best", .of m.incumbent),
    ("feasible",
      .of (m.incumbent.map fun s => m.problem.isFeasible s.values Model.reportTolerance)),
    ("stats", .of m.stats),
    ("dual", .of m.dualBound),
    ("gap", .of m.snapshot.gap),
    ("callback", .of m.hooks.isSome),
    ("changed", .of m.registry.changed)]

/-- The result of a relaxation in words. -/
def RelaxationResult.text {α : Type} : RelaxationResult α → String
  | .optimal .. => "Optimal"
  | .infeasible => "Infeasible"
  | .unbounded => "Unbounded"

/-- What a relaxation has found, part by part. Without an optimum the objective value is undefined,
and there are no values. -/
def RelaxationResult.parts (r : RelaxationResult Float) : List (String × Data) :=
  let (objective, values) : Data × Data := match r with
    | .optimal objective values => (.of objective, .of values)
    | _ => (.text "NaN", .list [])
  [("status", .of r.text), ("objective", objective), ("values", values)]

/-! ### Records -/

instance : Writable (EffectRecord Float) where
  write
    | .trial result primal stopped => .parts [
        ("trial", .of result), ("primal", .of primal), ("stopped", .of stopped)]
    | .refused cause => .of cause
    | .interrupted stopped => .parts [("stopped", .of stopped)]

/-- What a look has shown, part by part. -/
def Look.parts (l : Look Float) : List (String × Data) :=
  let s := l.snapshot
  [("state", .of s),
    ("lower", .of l.box.lower),
    ("upper", .of l.box.upper),
    ("accessors", .list [.of l.problem, .of s.objective, .of s.values, .of s.candidates,
      .of s.pseudoCandidates, .of s.primalBound, .of s.dualBound])]

instance : Writable (MoveRecord Float) where
  write r :=
    let returns : Data := match r.returns with
      | .ok resolution => .of resolution
      | .error cause => .of cause
    .parts ([
      ("point", .of r.point),
      ("node", .of r.node),
      ("depth", .of r.depth),
      ("stopped", .of r.stopped),
      ("effects", .of r.effects),
      ("last_trial", .of r.lastTrial),
      ("returns", returns)] ++ (r.look.map Look.parts).getD [])

instance : Writable JournalRecord where
  write r := .list [.of r.level.text, .of r.message,
    .parts (r.values.map fun (name, text) => (name, .of text))]

end Milp
