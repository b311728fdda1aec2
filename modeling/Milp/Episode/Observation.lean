import Milp.Search.Snapshot

/-!
# What is shown of an episode

An observer says what an agent observes at every transition of an episode, an informer what it may
note besides. Both look at the snapshot that the solver shows and at whether the episode is over;
observers may remember what they have seen since the episode began.
-/

namespace Milp

/-- What is observed at a transition. -/
inductive Observation (α : Type) where
  | nothing
  | snapshot (s : Option (Snapshot α))
  | both (first second : Observation α)
  | history (flags : List Bool)

/-- What an agent observes: nothing, the snapshot until the episode is over, what two observers see,
or for every transition of the episode so far whether it was over. -/
inductive Observer where
  | nothing
  | snapshot
  | both (first second : Observer)
  | history (flags : List Bool)
  deriving DecidableEq, Repr, Inhabited

namespace Observer

variable {α : Type}

/-- The observer at the beginning of an episode. -/
def restart : Observer → Observer
  | .nothing => .nothing
  | .snapshot => .snapshot
  | .both first second => .both first.restart second.restart
  | .history _ => .history []

/-- What is observed of a snapshot, and the observer after it. -/
def observe (s : Snapshot α) (done : Bool) : Observer → Observation α × Observer
  | .nothing => (.nothing, .nothing)
  | .snapshot => (.snapshot (if done then none else some s), .snapshot)
  | .both first second =>
    let (a, first) := first.observe s done
    let (b, second) := second.observe s done
    (.both a b, .both first second)
  | .history flags => (.history (flags ++ [done]), .history (flags ++ [done]))

end Observer

/-- A piece of information. -/
inductive Information where
  | flag (value : Bool)
  | count (value : Nat)
  | word (value : String)
  deriving DecidableEq, Repr

/-- What may be noted of a transition besides the observation: nothing, or how far the solve is. -/
inductive Informer where
  | nothing
  | progress
  deriving DecidableEq, Repr, Inhabited

/-- The information on a snapshot by name, in the order of the names. -/
def Informer.inform {α : Type} (s : Snapshot α) (done : Bool) :
    Informer → List (String × Information)
  | .nothing => []
  | .progress =>
    [("done", .flag done), ("nodes", .count s.nodesExplored), ("stage", .word s.stage.text)]

end Milp
