import Milp.Episode.Configuring
import Milp.Episode.Observation
import Milp.Episode.Reward

/-!
# Environments

An environment plays episodes one after the other. A reset begins an episode on a model: the
parameters of the environment are set, the model is randomised by an engine of the episode's seed,
and the dynamics goes to its first decision. Steps carry out actions until the episode is over.
Resets are possible in every phase, steps only while an action is awaited. Any failure poisons the
environment and ends its episode; the next reset starts afresh.

Each reset on a model moves the seed on by one and takes all its randomness from it, so
environments of equal seeds play equal episodes.
-/

namespace Milp

/-- What is extracted from the transitions of an episode. -/
structure Extraction where
  observer : Observer := .nothing
  reward : Reward := .ending
  termination : Termination := .never
  informer : Informer := .nothing

/-- The extraction at the beginning of an episode. -/
def Extraction.restart (x : Extraction) : Extraction :=
  { x with observer := x.observer.restart, reward := x.reward.restart }

/-- What an agent gets from a reset or a step. There are no actions once the episode is over. -/
structure Transition (α β : Type) where
  done : Bool
  reward : Float
  actions : Option β
  observation : Observation α
  information : List (String × Information)

/-- The transition to a snapshot, and the extraction after it. -/
def Extraction.transition {α β : Type} (x : Extraction) (s : Snapshot α)
    (outcome : DynamicsOutcome β) : Transition α β × Extraction :=
  let done := x.termination.ends s || outcome.done
  let (observation, observer) := x.observer.observe s done
  ({ done
     reward := x.reward.value s done
     actions := if done then none else outcome.actions
     observation
     information := x.informer.inform s done },
    { x with observer, reward := x.reward.next s })

/-- A solver task as a process of decisions. -/
structure Environment (α δ : Type) where
  dynamics : δ
  extraction : Extraction := {}
  params : Configuration := .empty
  seed : UInt64
  phase : Phase := .created
  session : Option (EpisodeSession α) := none

namespace Environment

variable {α δ action β : Type}

/-- The result of a reset or a step, with the environment after it. -/
abbrev Result (α δ β : Type) : Type :=
  Attempt (EpisodeError α) (Transition α β) × Environment α δ

/-- Ends the episode with an error. -/
def poison (e : Environment α δ) (cause : EpisodeError α) : Result α δ β :=
  (Attempt.fail cause, { e with phase := .poisoned, session := none })

/-- Gives up in the middle of a call. The session is lost and the phase remains as it was. -/
def crash (e : Environment α δ) (c : Crash) : Result α δ β :=
  (.error (.crash c), { e with session := none })

/-- The environment with another seed; the next reset uses the one after it. -/
def reseed (e : Environment α δ) (seed : UInt64) : Environment α δ := { e with seed }

/-- The session of the episode. -/
def currentSession (e : Environment α δ) : Except (EpisodeError α) (EpisodeSession α) :=
  match e.session with
  | some s => .ok s
  | none => .error (.sequencing .noEpisode)

/-- The model of the episode, unless a suspended solve owns it. -/
def model (e : Environment α δ) : Except (EpisodeError α) (Model α) := do
  (← e.currentSession).model

variable [Scalar α]

/-- What the solver of the episode shows of itself. -/
def snapshot (e : Environment α δ) : Except (EpisodeError α) (Snapshot α) := do
  (← e.currentSession).snapshot

/-- Goes on after a reset or step of the dynamics: extracts the transition and sets the phase, or
ends the episode. -/
def arrive (e : Environment α δ) : DynamicsResult δ α β → Result α δ β
  | (.error (.error cause), dynamics, _) => { e with dynamics }.poison cause
  | (.error (.crash c), dynamics, _) => { e with dynamics }.crash c
  | (.ok outcome, dynamics, session) =>
    match session.snapshot with
    | .error cause => { e with dynamics }.poison cause
    | .ok s =>
      let (transition, extraction) := e.extraction.transition s outcome
      (.ok transition,
        { e with
          dynamics
          extraction
          session := some session
          phase := if transition.done then .terminal else .awaitingAction })

variable [Dynamics α δ action β]

/-- Starts a new episode on a model. -/
def reset (e : Environment α δ) (m : Model α) : Result α δ β :=
  let e := { e with seed := e.seed + 1, session := none }
  match m.setParams e.params.entries with
  | (_, .error cause) => e.poison (.ofSolver cause)
  | (m, .ok ()) =>
    match Dynamics.randomize e.dynamics m (Random.Engine.ofSeed e.seed) with
    | (.error cause, dynamics, _, _) => { e with dynamics }.poison cause
    | (.ok (), dynamics, m, _) =>
      let e := { e with dynamics, extraction := e.extraction.restart }
      e.arrive (Dynamics.reset dynamics (Session.idle m))

/-- Starts a new episode on a model, if there is one. Without a model the seed stays, and if there
is none because of a crash, so does everything else. -/
def resetOn (e : Environment α δ) (m : Attempt (EpisodeError α) (Model α)) : Result α δ β :=
  match m with
  | .ok m => e.reset m
  | .error (.error cause) => e.poison cause
  | .error (.crash c) => (.error (.crash c), e)

/-- Carries out an action of the episode. -/
def step (e : Environment α δ) (a : action) : Result α δ β :=
  match e.phase, e.session with
  | .awaitingAction, some session => e.arrive (Dynamics.step e.dynamics session a)
  | phase, _ => e.poison (.sequencing (.stepInPhase phase))

end Environment
end Milp
