import Milp.Episode.Dynamics

/-!
# Episodes of configuring

An episode of one step: the action is a configuration of the solver, which then runs to its end
without asking anything.
-/

namespace Milp

/-- Values of parameters by name, in the order of the names. -/
structure Configuration where
  entries : List (String × ParamValue)

namespace Configuration

/-- A configuration without any value. -/
def empty : Configuration := ⟨[]⟩

/-- Puts an entry at its place in the order of names, in the place of one with the same name. -/
def insertEntry (name : String) (value : ParamValue) :
    List (String × ParamValue) → List (String × ParamValue)
  | [] => [(name, value)]
  | (other, v) :: rest =>
    if name = other then (name, value) :: rest
    else if name < other then (name, value) :: (other, v) :: rest
    else (other, v) :: insertEntry name value rest

/-- The configuration with one more value; a later value of a name replaces an earlier one. -/
def insert (c : Configuration) (name : String) (value : ParamValue) : Configuration :=
  ⟨insertEntry name value c.entries⟩

/-- The configuration of a list of values. -/
def ofList (values : List (String × ParamValue)) : Configuration :=
  values.foldl (fun c (name, value) => c.insert name value) empty

end Configuration

/-- The dynamics of configuring. There is no set of actions: every configuration may be tried. -/
structure ConfiguringDynamics where
  deriving DecidableEq, Repr, Inhabited

namespace ConfiguringDynamics

variable {α : Type} [Scalar α] (b : ConfiguringDynamics)

/-- Begins an episode; the solve has to wait for its configuration. -/
def reset (session : EpisodeSession α) : DynamicsResult ConfiguringDynamics α Unit :=
  (.ok ⟨false, none⟩, b, session)

/-- Applies a configuration and solves the model. Values before a refused one stay set. -/
def step (session : EpisodeSession α) (configuration : Configuration) :
    DynamicsResult ConfiguringDynamics α Unit :=
  match session.model with
  | .error e => (Attempt.fail e, b, session)
  | .ok m =>
    match m.setParams configuration.entries with
    | (m, .error e) => (Attempt.fail (.ofSolver e), b, .idle m)
    | (m, .ok ()) =>
      let (result, session) := (Session.idle m : EpisodeSession α).solve
      (result.map fun _ => ⟨true, none⟩, b, session)

end ConfiguringDynamics

instance {α : Type} [Scalar α] : Dynamics α ConfiguringDynamics Configuration Unit where
  reset := ConfiguringDynamics.reset
  step := ConfiguringDynamics.step

end Milp
