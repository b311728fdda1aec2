import Milp.Search.Run

/-!
# Prepared decisions

A move is a decision prepared in advance: effects in order, then a reply. A script is a list of
moves and one more for when they run out. Playing moves leaves records of what was seen and done.
-/

namespace Milp

/-- Something done at a decision point. An attempt that fails ends the move unless it is caught. -/
inductive Effect (α : Type) where
  | attempt (assignment : List (Var × α)) (caught : Bool)
  | interrupt
  | fail (cause : String)
  | crash (cause : Crash)

/-- How a move resolves the decision point. Picks count through the candidates, again from the
first after the last. -/
inductive Reply where
  | hold
  | choose (choice : Choice)
  | heuristic
  | candidate (k : Nat)
  | pseudo (k : Nat)
  | sumOfCandidates (ks : List Nat)
  | sumOfPseudos (ks : List Nat)
  deriving DecidableEq, Repr

/-- A decision prepared in advance. -/
structure Move (α : Type) where
  look : Bool
  effects : List (Effect α)
  reply : Reply

/-- What is recorded of an effect. -/
inductive EffectRecord (α : Type) where
  | trial (result : TrialResult) (primal : Extended α) (stopped : Bool)
  | refused (cause : SolverError α)
  | interrupted (stopped : Bool)

/-- What a look at a decision point shows. -/
structure Look (α : Type) where
  problem : String
  snapshot : Snapshot α
  box : Box α

/-- What is recorded of a move. -/
structure MoveRecord (α : Type) where
  point : DecisionPoint
  node : Nat
  depth : Nat
  stopped : Bool
  look : Option (Look α)
  effects : List (EffectRecord α)
  lastTrial : Option TrialResult
  returns : Except (SolverError α) Resolution

namespace Move

/-- The move that does nothing and leaves the decision to the solver. -/
def passive {α : Type} : Move α := ⟨false, [], .choose .didNotRun⟩

variable {α : Type} [Scalar α]

/-- The variable at a position, counted around. -/
def pick (vs : List Var) (k : Nat) : Var := vs.getD (k % vs.length) 0

/-- The resolution that a reply stands for. -/
def resolution (d : Decision α) : Reply → Resolution
  | .hold => .hold
  | .choose choice => .choose choice
  | .heuristic => .choose d.heuristicChoice
  | .candidate k => .choose (.branched (pick d.focus.candidates k))
  | .pseudo k => .choose (.branched (pick d.focus.pseudoCandidates k))
  | .sumOfCandidates ks => .choose (.branchedSum (ks.map (pick d.focus.candidates)))
  | .sumOfPseudos ks => .choose (.branchedSum (ks.map (pick d.focus.pseudoCandidates)))

/-- Carries out effects in order, up to the first failure. -/
def carryOut (plan : Plan α) :
    List (Effect α) → Decision α →
      List (EffectRecord α) × Attempt (SolverError α) Unit × Decision α
  | [], d => ([], .ok (), d)
  | .attempt assignment caught :: rest, d =>
    match d.tryAssignment plan assignment with
    | (.ok result, d) =>
      let (records, outcome, d') := carryOut plan rest d
      (.trial result (d.primalBound plan) (d.isStopped plan) :: records, outcome, d')
    | (.error e, d) =>
      if caught then
        let (records, outcome, d) := carryOut plan rest d
        (.refused e :: records, outcome, d)
      else ([.refused e], Attempt.fail e, d)
  | .interrupt :: rest, d =>
    let d := d.interrupt
    let (records, outcome, d') := carryOut plan rest d
    (.interrupted (d.isStopped plan) :: records, outcome, d')
  | .fail cause :: _, d => ([], Attempt.fail (.callback cause), d)
  | .crash cause :: _, d => ([], .error (.crash cause), d)

/-- Plays a move. A move that crashes leaves no record. -/
def play (m : Move α) (plan : Plan α) (d : Decision α) :
    Attempt (SolverError α) Resolution × Decision α × Option (MoveRecord α) :=
  let look := if m.look then some ⟨plan.problem.name, d.snapshot plan, d.focus.box⟩ else none
  let stopped := d.isStopped plan
  let (effects, outcome, d) := carryOut plan m.effects d
  let record (returns : Except (SolverError α) Resolution) : Option (MoveRecord α) :=
    some ⟨d.point, d.focus.node.number, d.focus.node.depth, stopped, look, effects, d.lastTrial,
      returns⟩
  match outcome with
  | .ok () =>
    let r := resolution d m.reply
    (.ok r, d, record (.ok r))
  | .error (.error e) => (Attempt.fail e, d, record (.error e))
  | .error (.crash c) => (.error (.crash c), d, none)

end Move

/-- Moves to be played in order, the move for when they have run out, and the records so far. -/
structure Script (α : Type) where
  moves : List (Move α)
  tail : Move α
  records : Array (MoveRecord α) := #[]

namespace Script

variable {α : Type} [Scalar α]

/-- Takes one decision: plays moves up to the first that does not hold. The last move leaves the
decision to the solver where it holds. -/
def decide (plan : Plan α) (tail : Move α) :
    List (Move α) → Decision α → Array (MoveRecord α) →
      Attempt (SolverError α) Choice × Decision α × Script α
  | [], d, records =>
    let (reply, d, record) := tail.play plan d
    let script : Script α := ⟨[], tail, records ++ record.toArray⟩
    match reply with
    | .ok (.choose choice) => (.ok choice, d, script)
    | .ok .hold => (.ok .didNotRun, d, script)
    | .error cause => (.error cause, d, script)
  | m :: rest, d, records =>
    let (reply, d, record) := m.play plan d
    let records := records ++ record.toArray
    match reply with
    | .ok (.choose choice) => (.ok choice, d, ⟨rest, tail, records⟩)
    | .ok .hold => decide plan tail rest d records
    | .error cause => (.error cause, d, ⟨rest, tail, records⟩)

/-- The handler that plays a script. -/
def handler : Handler α (Script α) := fun plan d script =>
  decide plan script.tail script.moves d script.records

end Script
end Milp
