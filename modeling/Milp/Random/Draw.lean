import Milp.Random.Engine
import Milp.Random.Layers

/-!
# Draws from an engine

Numbers in a range, fractions of one, exponentially distributed numbers and random orders, each as
a function of the word stream. A bounded draw multiplies a random word by the size of the range
and keeps the high half; a second word decides the rare cases where the low half would be unfair.
-/

namespace Milp.Random.Engine

/-- A number below `bound` from words of `width` bits: `next` draws a word. -/
def scaledBelow (width : Nat) (next : Engine → Nat × Engine) (bound : Nat) (g : Engine) :
    Nat × Engine :=
  let (x, g) := next g
  let base := Nat.pow 2 width
  let high := x * bound / base
  let low := x * bound % base
  if low > base - bound then
    let (y, g) := next g
    (if low + y * bound / base ≥ base then high + 1 else high, g)
  else (high, g)

/-- A number below `bound` from one or two words. -/
def below32 (bound : Nat) (g : Engine) : Nat × Engine :=
  scaledBelow 32 (fun g => let (w, g) := g.word; (w.toNat, g)) bound g

/-- A number below `bound` from two or four words. -/
def below64 (bound : Nat) (g : Engine) : Nat × Engine :=
  scaledBelow 64 (fun g => let (w, g) := g.long; (w.toNat, g)) bound g

/-- A position below `bound`; the size of the bound decides the width of the words. -/
def below (bound : Nat) (g : Engine) : Nat × Engine :=
  if bound < Nat.pow 2 32 then below32 bound g else below64 bound g

/-- A 32-bit integer between `low` and `high`, both included. The range of all integers is a word
as it is. -/
def between (low high : Int32) (g : Engine) : Int32 × Engine :=
  let count := (high - low + 1).toUInt32
  if count = 0 then
    let (w, g) := g.word
    (w.toInt32, g)
  else
    let (offset, g) := below32 count.toNat g
    (low + (UInt32.ofNat offset).toInt32, g)

/-- A fraction of one on the grid of `2 ^ -53`. -/
def unit (g : Engine) : Float × Engine :=
  let (x, g) := g.long
  ((x >>> 11).toFloat * Float.ofBits 0x3CA0000000000000, g)

/-- An exponentially distributed number with mean one, after at most `fuel` rejected points. The
layer is chosen by the low bits, the position in it by the high ones; a point beyond the next
layer's edge is compared with the density. -/
def exponentialWithin : Nat → Engine → Float × Engine
  | 0, g => (Layers.edge 1, g)
  | fuel + 1, g =>
    let (bits, g) := g.long
    let layer := (bits % 256).toNat
    let position := Float.ofBits ((0x3FF0000000000000 : UInt64) ||| (bits >>> 12)) -
      (1 - Float.ofBits 0x3CA0000000000000)
    let x := position * Layers.edge layer
    if x < Layers.edge (layer + 1) then (x, g)
    else
      let (u, g) := g.unit
      if layer = 0 then (Layers.edge 1 - Float.log u, g)
      else
        let lower := Layers.height layer
        let upper := Layers.height (layer + 1)
        if upper + (lower - upper) * u < Float.exp (-x) then (x, g)
        else exponentialWithin fuel g

/-- An exponentially distributed number with mean one. The chance of another rejection is below
one in fifty each time, so the bound on them is out of reach. -/
def exponential (g : Engine) : Float × Engine := exponentialWithin (Nat.pow 2 32) g

/-- Positions drawn in a row, the next one below a bound one larger than before. Several positions
come from one word: `chunk` holds what is left of it, enough for `left` further ones. -/
structure Positions where
  bound : Nat
  chunk : Nat
  left : Nat

namespace Positions

/-- The largest product `next * (next + 1) * …` of at most `fuel` further factors that fits a word,
with the number of its factors. -/
def product (next : Nat) : Nat → Nat → Nat → Nat × Nat
  | 0, value, count => (value, count)
  | fuel + 1, value, count =>
    let longer := value * (next + count)
    if longer < Nat.pow 2 32 then product next fuel longer (count + 1) else (value, count)

/-- The next position and what is left for the ones after it. -/
def next (p : Positions) (g : Engine) : Nat × Positions × Engine :=
  let bound := p.bound + 1
  let (chunk, left, g) :=
    if p.left = 0 then
      let (value, count) := product bound 32 bound 1
      let (chunk, g) := g.below32 value
      (chunk, count - 1, g)
    else (p.chunk, p.left - 1, g)
  if left = 0 then (chunk, ⟨bound, chunk, left⟩, g)
  else (chunk % bound, ⟨bound, chunk / bound, left⟩, g)

end Positions

/-- Swaps each position from `i` on with a random one up to it, for `count` positions. -/
def shuffleFrom {β : Type} (i : Nat) (p : Positions) :
    Nat → Array β → Engine → Array β × Engine
  | 0, xs, g => (xs, g)
  | count + 1, xs, g =>
    let (j, p, g) := p.next g
    shuffleFrom (i + 1) p count (xs.swapIfInBounds i j) g

/-- A random order of the elements. The first position is always zero and takes no word. -/
def shuffle {β : Type} (xs : Array β) (g : Engine) : Array β × Engine :=
  if xs.size ≤ 1 then (xs, g) else shuffleFrom 0 ⟨0, 0, 1⟩ xs.size xs g

end Milp.Random.Engine
