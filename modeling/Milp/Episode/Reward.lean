import Milp.Search.Snapshot

/-!
# How an episode is judged

A reward function gives every transition of an episode a number; a termination function may end
the episode before the solve is over. Rewards for work count down what the solver has done since
the transition before, so over an episode they add up to all of it.
-/

namespace Milp

/-- How transitions are rewarded: one for the end of the episode, minus the nodes or the pivots
since the last transition, or a constant. -/
inductive Reward where
  | ending
  | nodes (last : Nat)
  | iterations (last : Nat)
  | constant (value : Float)

namespace Reward

/-- The reward function at the beginning of an episode. -/
def restart : Reward → Reward
  | .ending => .ending
  | .nodes _ => .nodes 0
  | .iterations _ => .iterations 0
  | .constant value => .constant value

/-- What a counter has grown by since its last reading. -/
def growth (last now : Nat) : Nat := now - last

variable {α : Type}

/-- The work that a transition is charged for. -/
def charge (s : Snapshot α) : Reward → Nat
  | .nodes last => growth last s.nodesExplored
  | .iterations last => growth last s.iterations
  | _ => 0

/-- The reward of a transition. -/
def value (s : Snapshot α) (done : Bool) (r : Reward) : Float :=
  match r with
  | .ending => if done then 1 else 0
  | .constant value => value
  | r => -Float.ofNat (r.charge s)

/-- The reward function after a transition. -/
def next (s : Snapshot α) : Reward → Reward
  | .nodes _ => .nodes s.nodesExplored
  | .iterations _ => .iterations s.iterations
  | r => r

end Reward

/-- When an episode ends before the solve: never, or once enough nodes are explored. -/
inductive Termination where
  | never
  | nodeLimit (limit : Nat)
  deriving DecidableEq, Repr, Inhabited

/-- Whether the episode ends at a snapshot. -/
def Termination.ends {α : Type} (s : Snapshot α) : Termination → Bool
  | .never => false
  | .nodeLimit limit => limit ≤ s.nodesExplored

end Milp
