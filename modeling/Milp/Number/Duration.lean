import Milp.Number.Binary

/-!
# Durations

A duration is a whole number of nanoseconds. `ofSeconds?` rounds a double of seconds to it;
`text` writes it with two places in the largest unit that it reaches. In both a half goes to the
even neighbour.
-/

namespace Milp

/-- A span of time in nanoseconds. -/
structure Duration where
  nanos : Nat
  deriving DecidableEq, Repr, Inhabited

namespace Duration

/-- The nearest whole number to `num / den`; a half goes to the even neighbour. -/
def roundHalfEven (num den : Nat) : Nat :=
  let kept := num / den
  let rest := num % den
  if 2 * rest < den then kept
  else if den < 2 * rest then kept + 1
  else if kept % 2 = 0 then kept else kept + 1

/-- The length of a second in nanoseconds. -/
def second : Nat := 1000000000

/-- The duration of a whole number of seconds. -/
def ofWholeSeconds (seconds : Nat) : Duration := ⟨seconds * second⟩

/-- The duration of a non-negative number of seconds. There is none at `2 ^ 64` seconds or more,
nor for negative, infinite or undefined numbers. -/
def ofSeconds? (seconds : Float) : Option Duration :=
  match Number.parts seconds with
  | .finite negative mantissa exponent =>
    if negative && mantissa != 0 then none
    else if exponent < 0 then
      some ⟨roundHalfEven (mantissa * second) (Nat.pow 2 (-exponent).toNat)⟩
    else
      let whole := mantissa * Nat.pow 2 exponent.toNat
      if whole < Nat.pow 2 64 then some (ofWholeSeconds whole) else none
  | _ => none

/-- The units of the text form with their length in nanoseconds, largest first. -/
def units : List (Nat × String) := [(second, "s"), (1000000, "ms"), (1000, "µs")]

/-- The duration with two places: `1.50ms`. -/
def text (d : Duration) : String :=
  let (length, suffix) := (units.find? fun u => u.1 ≤ d.nanos).getD (1, "ns")
  let hundredths := roundHalfEven (d.nanos * 100) length
  let places := hundredths % 100
  let padding := if places < 10 then "0" else ""
  Nat.repr (hundredths / 100) ++ "." ++ padding ++ Nat.repr places ++ suffix

end Duration
end Milp
