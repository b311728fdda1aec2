import Milp.Random.Draw

/-!
# Random orders

A random order of positions, and the ranks that it gives them: the rank of a position is where
the order lists it. Orders and ranks are inverse permutations.
-/

namespace Milp.Random

/-- The positions below `n` in the order of the engine's shuffle. -/
def order (n : Nat) (g : Engine) : Array Nat := (g.shuffle (Array.range n)).1

/-- Where an order lists each position: the order is gone through, and every place noted as the rank
of what stands there. -/
def ranks (order : Array Nat) : Array Nat :=
  order.toList.zipIdx.foldl (fun ranks (v, i) => ranks.setIfInBounds v i) (Array.range order.size)

end Milp.Random
