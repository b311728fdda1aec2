import Milp.Problem.Box

/-!
# Nodes

A node of the search tree stands for the part of the problem that the decisions on its path from
the root leave: tightened bounds and local rows. It carries them all, so it can wait while other
nodes are explored. Every child adds one of them.
-/

namespace Milp

/-- An open node. `parentBound` is the objective of its parent's relaxation. -/
structure Node (α : Type) where
  number : Nat
  depth : Nat
  parentBound : Extended α
  changes : List (BoundChange α)
  rows : List (Row α)

namespace Node

variable {α : Type}

/-- The root, where nothing is decided yet. -/
def root (bound : Extended α) : Node α := ⟨1, 0, bound, [], []⟩

/-- A child with one more tightened bound. -/
def child (n : Node α) (number : Nat) (bound : Extended α) (change : BoundChange α) : Node α :=
  { n with number, depth := n.depth + 1, parentBound := bound, changes := n.changes ++ [change] }

/-- A child with one more local row. -/
def childWithRow (n : Node α) (number : Nat) (bound : Extended α) (row : Row α) : Node α :=
  { n with number, depth := n.depth + 1, parentBound := bound, rows := n.rows ++ [row] }

/-- The box of the node in a problem. -/
def box [Scalar α] (n : Node α) (p : Problem α) : Box α :=
  n.changes.foldl Box.tighten (Box.ofProblem p)

end Node
end Milp
