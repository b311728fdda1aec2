import Milp.Episode.Session
import Milp.Random.Seed

/-!
# Dynamics

A dynamics says what an episode is about: which decisions of the solve it exposes, which actions
are legal at each of them, and how an action is carried out. It works on a session and keeps
between steps what it needs to judge the next action.
-/

namespace Milp

/-- What a reset or a step leads to: whether the episode is over, and if not the legal actions. -/
structure DynamicsOutcome (β : Type) where
  done : Bool
  actions : Option β

/-- A session without a memory for actions. -/
abbrev EpisodeSession (α : Type) : Type := Session α Unit

/-- The result of a reset or a step, with the dynamics and the session after it. -/
abbrev DynamicsResult (δ α β : Type) : Type :=
  Attempt (EpisodeError α) (DynamicsOutcome β) × δ × EpisodeSession α

namespace Dynamics

variable {α : Type}

/-- The range of the seeds drawn for the solver. -/
def solverSeeds : Int32 × Int32 := (1, 2147483647)

/-- Three seeds for the solver. -/
def drawSeeds (g : Random.Engine) : Int32 × Int32 × Int32 × Random.Engine :=
  let (low, high) := solverSeeds
  let (permutation, g) := g.between low high
  let (shift, g) := g.between low high
  let (lp, g) := g.between low high
  (permutation, shift, lp, g)

/-- Turns the permutations of a model on and draws its seeds. -/
def randomizeModel (m : Model α) (g : Random.Engine) :
    Except (EpisodeError α) Unit × Model α × Random.Engine :=
  let (permutation, shift, lp, g) := drawSeeds g
  let (m, result) := m.setParams
    [("randomization/permutevars", .bool true),
      ("randomization/permuteconss", .bool true),
      ("randomization/permutationseed", .int permutation),
      ("randomization/randomseedshift", .int shift),
      ("randomization/lpseed", .int lp)]
  (result.mapError .ofSolver, m, g)

/-- Randomises the model of a dynamics, which itself takes nothing from the engine. -/
def randomizeAlone {δ : Type} (d : δ) (m : Model α) (g : Random.Engine) :
    Except (EpisodeError α) Unit × δ × Model α × Random.Engine :=
  let randomized := randomizeModel m g
  (randomized.1, d, randomized.2)

end Dynamics

/-- The task of an episode on models over the numbers `α`. -/
class Dynamics (α δ : Type) (action actionSet : outParam Type) where
  /-- Randomises a model for a new episode. -/
  randomize : δ → Model α → Random.Engine →
    Except (EpisodeError α) Unit × δ × Model α × Random.Engine := Dynamics.randomizeAlone
  /-- Starts an episode on an idle model. -/
  reset : δ → EpisodeSession α → DynamicsResult δ α actionSet
  /-- Carries out an action and goes on to the next decision. -/
  step : δ → EpisodeSession α → action → DynamicsResult δ α actionSet

end Milp
