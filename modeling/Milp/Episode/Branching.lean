import Milp.Episode.Dynamics

/-!
# Episodes of branching

Every branching decision of the solve is exposed. The actions are the candidates of the node: the
integral variables with fractional values, or all that are not fixed. With a limit, some of them
are sampled with weights equal to their fractionalities.
-/

namespace Milp

/-- What to branch on: a variable, or what the solver's own rule picks. -/
inductive BranchAction where
  | onVariable (v : Var)
  | bySolver
  deriving DecidableEq, Repr

/-- The dynamics of branching. The engine samples candidates; the action set is the last one
offered. -/
structure BranchingDynamics where
  pseudoCandidates : Bool := false
  limit : Option Nat := none
  engine : Random.Engine := Random.Engine.ofSeed 0
  actionSet : Option (List Var) := none

namespace BranchingDynamics

variable {α : Type}

/-- Offers at most `k` candidates for each decision. -/
def withLimit (b : BranchingDynamics) (k : Nat) : Except (EpisodeError α) BranchingDynamics :=
  if k = 0 then .error (.invalidArgument .zeroLimit) else .ok { b with limit := some k }

variable [Scalar α]

/-- All candidates of a decision with their weights. -/
def weighted (b : BranchingDynamics) (s : Snapshot α) : List Var × List α :=
  if b.pseudoCandidates then
    (s.pseudoCandidates,
      s.pseudoCandidates.map fun v => ((s.values[v]?).map Scalar.fractionality).getD 0)
  else (s.candidates, s.fractionalities)

/-- The candidates that are offered, in order. -/
def candidates (b : BranchingDynamics) (s : Snapshot α) :
    Except (EpisodeError α) (List Var) × BranchingDynamics :=
  let (all, weights) := b.weighted s
  match b.limit with
  | none => (.ok all, b)
  | some k =>
    if k < all.length then
      let (picked, engine) := Random.choose Random.exponentialScalar k weights b.engine
      let b := { b with engine }
      match picked with
      | .error e => (.error (.invalidArgument (.sampling e)), b)
      | .ok positions => (.ok ((positions.mergeSort (· ≤ ·)).filterMap (all[·]?)), b)
    else (.ok all, b)

/-- What a reset or step leads to, once the solve has moved. -/
def outcome (b : BranchingDynamics) (session : EpisodeSession α) (done : Bool) :
    DynamicsResult BranchingDynamics α (List Var) :=
  if done then (.ok ⟨true, none⟩, { b with actionSet := none }, session)
  else
    match session.snapshot with
    | .error e => (Attempt.fail e, b, session)
    | .ok s =>
      match b.candidates s with
      | (.error e, b) => (Attempt.fail e, b, session)
      | (.ok set, b) => (.ok ⟨false, some set⟩, { b with actionSet := some set }, session)

/-- Whether an action may be taken. -/
def check (b : BranchingDynamics) : BranchAction → Except (EpisodeError α) (Order α Unit)
  | .bySolver => .ok .leave
  | .onVariable v =>
    if (b.actionSet.getD []).contains v then .ok (.resolve (.branched v))
    else .error (.invalidAction (.notCandidate v))

/-- Starts the solve of an episode. -/
def reset (b : BranchingDynamics) (session : EpisodeSession α) :
    DynamicsResult BranchingDynamics α (List Var) :=
  let b := { b with actionSet := none }
  match session.start { branching := true } () with
  | (.error e, session, _) => (Attempt.fail e, b, session)
  | (.ok done, session, _) => b.outcome session done

/-- Branches and goes on to the next decision. -/
def step (b : BranchingDynamics) (session : EpisodeSession α) (action : BranchAction) :
    DynamicsResult BranchingDynamics α (List Var) :=
  if !session.isSuspended then (Attempt.fail (.sequencing .notSuspended), b, session)
  else
    match b.check action with
    | .error e => (Attempt.fail e, b, session)
    | .ok order =>
      match session.resume order () with
      | (.error e, session, _) => (Attempt.fail e, b, session)
      | (.ok done, session, _) => b.outcome session done

/-- Goes on from a randomised model to the sampling of candidates. -/
def seedSampling (b : BranchingDynamics) :
    Except (EpisodeError α) Unit × Model α × Random.Engine →
      Except (EpisodeError α) Unit × BranchingDynamics × Model α × Random.Engine
  | (.error e, m, g) => (.error e, b, m, g)
  | (.ok (), m, g) =>
    let (seed, g) := g.long
    (.ok (), { b with engine := Random.Engine.ofSeed seed }, m, g)

/-- Randomises the model and the sampling of candidates. -/
def randomize (b : BranchingDynamics) (m : Model α) (g : Random.Engine) :
    Except (EpisodeError α) Unit × BranchingDynamics × Model α × Random.Engine :=
  b.seedSampling (Dynamics.randomizeModel m g)

end BranchingDynamics

instance {α : Type} [Scalar α] : Dynamics α BranchingDynamics BranchAction (List Var) where
  randomize := BranchingDynamics.randomize
  reset := BranchingDynamics.reset
  step := BranchingDynamics.step

end Milp
