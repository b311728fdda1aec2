/-!
# Failing and crashing

An operation that fails reports an error and leaves things in order. A crash ends everything that
was going on and carries a text or nothing readable; only those who expect one, such as the
worker of a channel, catch it.
-/

namespace Milp

/-- What a crash carries. -/
inductive Crash where
  | message (text : String)
  | silent
  deriving DecidableEq, Repr

/-- How an operation that may also crash can fail. -/
inductive Failure (ε : Type) where
  | error (cause : ε)
  | crash (cause : Crash)

/-- A result, an error or a crash. -/
abbrev Attempt (ε β : Type) : Type := Except (Failure ε) β

namespace Attempt

variable {ε ε' β : Type}

/-- An error that is no crash. -/
def fail (e : ε) : Attempt ε β := .error (.error e)

/-- An attempt that cannot crash. -/
def ofExcept : Except ε β → Attempt ε β
  | .ok b => .ok b
  | .error e => fail e

/-- Restates the errors of an attempt; a crash stays what it is. -/
def mapError (f : ε → ε') : Attempt ε β → Attempt ε' β
  | .ok b => .ok b
  | .error (.error e) => .error (.error (f e))
  | .error (.crash c) => .error (.crash c)

end Attempt
end Milp
