import Milp.Proofs.Search.Nesting
import Milp.Search.Run

/-!
# Runs

A run of a search is over when it has ended or failed, and then it stays as it is. A longer run goes on
where a shorter one has come to, and so does a run to the next decision point, which is over there, too.

Its monitors look at the clock again and again. A later look differs from an earlier one only where a
time limit has passed (`Search.commandAt_later`).
-/

namespace Milp

namespace Search

variable {α : Type} {s : Search α} {now later : Duration}

/-- What the monitors say later is what they said before, or that a time limit has passed. -/
theorem commandAt_later (s : Search α) (le : now.nanos ≤ later.nanos) :
    s.commandAt later = s.commandAt now ∨ s.commandAt later = .terminate .timeLimit :=
  have flags : (fun _ : Unit => s.interrupted) = fun _ => s.interrupted := rfl
  Monitor.command_later flags le s.monitor

/-- A search that its monitors let go on at one time is let go on at any other, unless a time limit has
passed. -/
theorem commandAt_of_inTime (going : s.commandAt now = .proceed)
    (inTime : s.commandAt later ≠ .terminate .timeLimit) : s.commandAt later = .proceed := by
  rcases Nat.le_total now.nanos later.nanos with forth | back
  · exact ((s.commandAt_later forth).resolve_right inTime).trans going
  · rcases s.commandAt_later back with same | passed
    · exact same.symm.trans going
    · cases going.symm.trans passed

end Search

/-- Whether a search is over. -/
def Turn.IsOver {α : Type} : Turn α → Prop
  | .ended .. | .failed .. => True
  | _ => False

instance {α : Type} : DecidablePred (Turn.IsOver : Turn α → Prop)
  | .proceed _ | .ask _ => .isFalse id
  | .ended .. | .failed .. => .isTrue trivial

namespace Plan

variable {α κ : Type} [Scalar α] {plan : Plan α} {handler : Handler α κ} {turn : Turn α} {k : κ}

/-- A search that is over stays as it is. -/
theorem drive_of_isOver (ended : turn.IsOver) (turns : Nat) :
    plan.drive handler turns turn k = (turn, k) := by
  cases turns with
  | zero => rfl
  | succ turns =>
    cases turn with
    | proceed s => exact ended.elim
    | ask d => exact ended.elim
    | ended status dual s => rfl
    | failed cause s => rfl

/-- A run goes on where an earlier one has come to. -/
theorem drive_add {first : Nat} {later : Turn α} {k' : κ}
    (run : plan.drive handler first turn k = (later, k')) (second : Nat) :
    plan.drive handler (first + second) turn k = plan.drive handler second later k' := by
  induction first generalizing turn k with
  | zero =>
    obtain ⟨rfl, rfl⟩ := Prod.mk.inj run
    rw [Nat.zero_add]
  | succ first ih =>
    rw [Nat.succ_add_eq_add_succ]
    cases turn with
    | proceed s => exact ih run
    | ask d => exact ih run
    | ended status dual s =>
      obtain ⟨rfl, rfl⟩ := Prod.mk.inj run
      have ended : (Turn.ended status dual s).IsOver := trivial
      exact (drive_of_isOver ended second).symm
    | failed cause s =>
      obtain ⟨rfl, rfl⟩ := Prod.mk.inj run
      have ended : (Turn.failed cause s).IsOver := trivial
      exact (drive_of_isOver ended second).symm

/-- Where there is no node to take, a run to the next decision point is over. -/
theorem toDecision_of_settled (settled : ∀ s, turn ≠ .proceed s) (turns : Nat) :
    plan.toDecision turns turn = turn := by
  cases turns with
  | zero => rfl
  | succ turns =>
    cases turn with
    | proceed s => exact absurd rfl (settled s)
    | _ => rfl

/-- What holds on from one node to the next holds at the next decision point. -/
theorem toDecision_keeps (holds : Turn α → Prop)
    (advance : ∀ s, holds (.proceed s) → holds (plan.advance s)) (h : holds turn) (turns : Nat) :
    holds (plan.toDecision turns turn) := by
  induction turns generalizing turn with
  | zero => exact h
  | succ turns ih =>
    cases turn with
    | proceed s => exact ih (advance s h)
    | _ => exact h

end Plan
end Milp
