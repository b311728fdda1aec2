import Milp.Data.Model
import Milp.Episode.Policy
import Milp.Instance.Source

/-!
# Episodes as data

What an agent gets from an episode is written as data; how episodes are observed and rewarded, which
actions are taken and which policies are played is read from it. An action may name a position
in the action set of the last transition instead of a variable; positions are counted around.
-/

namespace Milp

instance : Writable Phase := ⟨fun p => .text p.text⟩

instance : Readable PickMode where
  read := Data.word "a way to pick" [("replace", .anew), ("remove", .once), ("repeat", .passes)]

/-! ### Transitions -/

instance : Writable Information where
  write
    | .flag b => .of b
    | .count n => .of n
    | .word s => .of s

/-- An observation as data. -/
def Observation.data : Observation Float → Data
  | .nothing => .nothing
  | .snapshot s => .of s
  | .both a b => .list [a.data, b.data]
  | .history flags => .of flags

instance : Writable (Observation Float) := ⟨Observation.data⟩

instance {β : Type} [Writable β] : Writable (Transition Float β) where
  write t := .parts [
    ("done", .of t.done),
    ("reward", .of t.reward),
    ("action_set", .of t.actions),
    ("observation", .of t.observation),
    ("information", .parts (t.information.map fun (name, i) => (name, .of i)))]

/-! ### Functions of transitions -/

instance : Readable Observer where
  read := Data.word "an observation"
    [("none", .nothing), ("state", .snapshot), ("pair", .both .nothing .snapshot),
      ("flags", .history [])]

/-- A reward is a word, or a part with the constant that it pays. -/
instance : Readable Reward where
  read
    | .text s =>
      Data.word "a reward"
        [("done", .ending), ("nodes", .nodes 0), ("iterations", .iterations 0),
          ("constant", .constant 0)] (.text s)
    | d => .constant <$> d.get "constant"

/-! ### Dynamics -/

instance : Writable BranchingDynamics where
  write b := .parts [("pseudo", .of b.pseudoCandidates), ("set", .of b.actionSet)]

instance : Writable (SumBranchingDynamics Float) where
  write b := .parts [("set", .of b.actionSet)]

instance : Writable ConfiguringDynamics := ⟨fun _ => .nothing⟩

instance : Writable PrimalSearchDynamics where
  write b := .parts [("trials", .of b.trials), ("spent", .of b.spent), ("last", .of b.lastResult)]

/-! ### Actions and policies -/

instance : Writable BranchAction where
  write
    | .onVariable v => .of v
    | .bySolver => .of "default"

instance : Writable Configuration where
  write c := .parts (c.entries.map fun (name, v) => (name, .of v))

instance : Writable (PartialAssignment Float) := ⟨fun a => .of a.values⟩

/-- Actions that can be told in data. -/
class Playable (action : Type) (actionSet : outParam Type) where
  /-- Reads an action, with the action set of the last transition. -/
  readAction : Option actionSet → Data → Except DataError action
  /-- Reads a policy. -/
  readPolicy : Data → Except DataError (Policy Float action actionSet)

/-- The variable at a position of the action set, or of the problem where there is no set. -/
def Move.pickFrom (set : Option (List Var)) (k : Nat) : Var :=
  match set with
  | none => k
  | some vs => Move.pick vs k

/-- The names of places. -/
def Place.words : List (String × Place) := [("first", .first), ("mid", .middle), ("last", .last)]

instance : Playable BranchAction (List Var) where
  readAction set d := do
    match d, ← d.get? "var" with
    | .text "default", _ => pure .bySolver
    | _, some v => pure (.onVariable v)
    | _, none => (.onVariable <| Move.pickFrom set ·) <$> d.get "pick"
  readPolicy := Data.word "a policy"
    (("default", Policy.bySolver) :: Place.words.map fun (name, place) => (name, place.branching))

/-- Sums of variables. -/
instance : Playable (List Var) (List Var) where
  readAction set d := do
    match ← d.get? "vars" with
    | some vs => pure vs
    | none => List.map (Move.pickFrom set) <$> d.getD "picks" []
  readPolicy := Data.word "a policy"
    (("prefix", Policy.longestSum) :: Place.words.map fun (name, place) => (name, place.sum))

instance : Playable Configuration Unit where
  readAction _ d := Configuration.ofList <$> d.getD "params" []
  readPolicy _ := .ok Policy.unconfigured

instance : Playable (PartialAssignment Float) (List Var) where
  readAction _ d := do pure ⟨← d.getD "vars" [], ← d.getD "values" []⟩
  readPolicy := Data.word "a policy"
    [("empty", Policy.idle), ("round", Policy.assigning Scalar.round),
      ("floor", Policy.assigning Scalar.floor), ("ceil", Policy.assigning Scalar.ceil)]

end Milp
