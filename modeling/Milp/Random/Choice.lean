import Milp.Number.Text
import Milp.Random.Draw

/-!
# Weighted choice without replacement

`choose` picks distinct positions of a weight list. Every positive weight `w` gets the key `w / e`
with a fresh exponential draw `e`, every zero weight the key zero, and the positions with the
largest keys win, earlier positions first among equal keys. So a position of weight zero is only
picked when the positive weights run out.
-/

namespace Milp.Random

/-- Why nothing can be chosen. -/
inductive ChoiceError (α : Type) where
  | tooMany (requested available : Nat)
  | badWeight (position : Nat) (weight : α)

namespace ChoiceError

/-- The error in words. -/
def message : ChoiceError Float → String
  | .tooMany requested available =>
    s!"cannot sample {requested} items from a population of {available}"
  | .badWeight position weight =>
    s!"weight at position {position} is invalid: " ++ Number.text weight

end ChoiceError

variable {α σ : Type} [Scalar α]

/-- The keys of the weights from position `i` on, in order; `draw` supplies the exponential
numbers. A weight that is negative or not finite ends the drawing. -/
def keys (draw : σ → α × σ) : Nat → List α → σ → Except (ChoiceError α) (List (α × Nat)) × σ
  | _, [], g => (.ok [], g)
  | i, w :: ws, g =>
    if !Scalar.isFinite w || w < 0 then (.error (.badWeight i w), g)
    else
      let (key, g) :=
        if w == 0 then (0, g)
        else
          let (e, g) := draw g
          (w / e, g)
      match keys draw (i + 1) ws g with
      | (.ok rest, g) => (.ok ((key, i) :: rest), g)
      | (.error e, g) => (.error e, g)

/-- Whether a key goes before another: the larger one, and the earlier of two equal ones. -/
def keyBefore (a b : α × Nat) : Bool := b.1 < a.1 || (!decide (a.1 < b.1) && a.2 ≤ b.2)

/-- Chooses `count` positions of the weights, in the order of their keys. -/
def choose (draw : σ → α × σ) (count : Nat) (weights : List α) (g : σ) :
    Except (ChoiceError α) (List Nat) × σ :=
  if count > weights.length then (.error (.tooMany count weights.length), g)
  else
    match keys draw 0 weights g with
    | (.error e, g) => (.error e, g)
    | (.ok ks, g) => (.ok (((ks.mergeSort keyBefore).take count).map (·.2)), g)

/-- An exponential draw as a scalar. -/
def exponentialScalar (g : Engine) : α × Engine :=
  let (e, g) := g.exponential
  (Scalar.ofDouble e, g)

end Milp.Random
