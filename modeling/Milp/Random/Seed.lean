import Milp.Random.Engine

/-!
# Seeds

`derive` turns a base seed and a stream number into a seed of its own; for a fixed base, and for a
fixed stream, it is injective. A seed context hands out the seeds derived from its own, one after
the other, so that everything spawned after a re-seed is a function of the new seed.
-/

namespace Milp.Random

/-- The finalising mix of a 64-bit state. -/
def mix (z : UInt64) : UInt64 :=
  let z := (z ^^^ (z >>> 30)) * 0xBF58476D1CE4E5B9
  let z := (z ^^^ (z >>> 27)) * 0x94D049BB133111EB
  z ^^^ (z >>> 31)

/-- The seed of stream number `stream` under the seed `base`. -/
def derive (base stream : UInt64) : UInt64 :=
  mix (base + stream * 0x9E3779B97F4A7C15 + 0x9E3779B97F4A7C15)

/-- A seed and how many seeds were handed out since it was set. -/
structure SeedContext where
  seed : UInt64
  spawned : UInt64
  deriving DecidableEq, Repr

namespace SeedContext

/-- A context that has handed out nothing yet. -/
def ofSeed (seed : UInt64) : SeedContext := ⟨seed, 0⟩

/-- The next seed. -/
def spawn (c : SeedContext) : UInt64 × SeedContext :=
  let c := { c with spawned := c.spawned + 1 }
  (derive c.seed c.spawned, c)

/-- The engine of the next seed. -/
def spawnEngine (c : SeedContext) : Engine × SeedContext :=
  let (seed, c) := c.spawn
  (Engine.ofSeed seed, c)

end SeedContext
end Milp.Random
