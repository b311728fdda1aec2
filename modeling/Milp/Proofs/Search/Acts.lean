import Mathlib.Tactic.Choose
import Milp.Proofs.Search.Callback

/-!
# What a callback has done

A callback performs acts at a decision point: it tries assignments and asks the search to stop. What
acts lead to is what callbacks can lead to (`Decision.reaches_iff`), so for every confined handler
there are lists of acts that it performs, one for each decision (`Handler.confined_iff`). With these
it can be said of a run what its trials came to: `Plan.tally` counts those that got as far as a
solved relaxation, and those that were accepted.
-/

namespace Milp

/-- Something that a callback does at a decision point. -/
inductive Act (α : Type) where
  | attempt (assignment : List (Var × α))
  | interrupt

/-- How many trials got as far as a solved relaxation, and how many of them were accepted. -/
structure Tally where
  solved : Nat := 0
  accepted : Nat := 0
  deriving DecidableEq, Repr

instance : Add Tally := ⟨fun s t => ⟨s.solved + t.solved, s.accepted + t.accepted⟩⟩

namespace Decision

variable {α : Type} [Scalar α] (plan : Plan α)

/-- Whether a trial of an assignment gets as far as a solved relaxation. -/
def solves (d : Decision α) (assignment : List (Var × α)) : Bool :=
  (refusal? plan assignment).isNone &&
    match fixAll plan assignment d.focus.box with
    | none => false
    | some box => (plan.relax box d.focus.node.rows).toBool

/-- Whether a trial of an assignment is accepted. -/
def accepts (d : Decision α) (assignment : List (Var × α)) : Bool :=
  match (d.tryAssignment plan assignment).1 with
  | .ok .accepted => true
  | _ => false

/-- What a trial adds to the tally. -/
def trialTally (d : Decision α) (assignment : List (Var × α)) : Tally :=
  ⟨(d.solves plan assignment).toNat, (d.accepts plan assignment).toNat⟩

/-- The decision point after some acts. -/
def perform : List (Act α) → Decision α → Decision α
  | [], d => d
  | .attempt assignment :: rest, d => perform rest (d.tryAssignment plan assignment).2
  | .interrupt :: rest, d => perform rest d.interrupt

/-- The tally of some acts. -/
def tally : List (Act α) → Decision α → Tally
  | [], _ => {}
  | .attempt assignment :: rest, d =>
    d.trialTally plan assignment + tally rest (d.tryAssignment plan assignment).2
  | .interrupt :: rest, d => tally rest d.interrupt

/-- Acts one after the other. -/
theorem perform_append (first rest : List (Act α)) (d : Decision α) :
    d.perform plan (first ++ rest) = (d.perform plan first).perform plan rest := by
  induction first generalizing d with
  | nil => rfl
  | cons act first ih =>
    cases act with
    | attempt assignment => exact ih _
    | interrupt => exact ih _

variable {plan}

/-- What callbacks can lead to is what acts lead to. -/
theorem reaches_iff {d e : Decision α} : d.Reaches plan e ↔ ∃ acts, e = d.perform plan acts := by
  constructor
  · intro h
    induction h with
    | refl => exact ⟨[], rfl⟩
    | trial assignment _ ih =>
      obtain ⟨acts, rfl⟩ := ih
      exact ⟨acts ++ [.attempt assignment], by rw [perform_append]; rfl⟩
    | interrupt _ ih =>
      obtain ⟨acts, rfl⟩ := ih
      exact ⟨acts ++ [.interrupt], by rw [perform_append]; rfl⟩
  · rintro ⟨acts, rfl⟩
    induction acts generalizing d with
    | nil => exact .refl
    | cons act acts ih =>
      cases act with
      | attempt assignment => exact (Reaches.refl.trial assignment).trans ih
      | interrupt => exact Reaches.refl.interrupt.trans ih

end Decision

namespace Handler

variable {α κ : Type} [Scalar α]

/-- Whether a handler does at every decision point what the list of acts for it says. -/
def Performs (handler : Handler α κ) (acts : Plan α → Decision α → κ → List (Act α)) : Prop :=
  ∀ plan d k, (handler plan d k).2.1 = d.perform plan (acts plan d k)

/-- The confined handlers are those that perform acts. -/
theorem confined_iff {handler : Handler α κ} : handler.Confined ↔ ∃ acts, handler.Performs acts := by
  constructor
  · intro confined
    choose acts performs using fun plan d k => Decision.reaches_iff.mp (confined plan d k)
    exact ⟨acts, performs⟩
  · rintro ⟨acts, performs⟩ plan d k
    exact Decision.reaches_iff.mpr ⟨acts plan d k, performs plan d k⟩

/-- The handler that tries an assignment at every decision point and says what came of it. -/
def trying (assignment : List (Var × α)) : Handler α Unit := fun plan d k =>
  let e := d.perform plan [.attempt assignment]
  (.ok e.heuristicChoice, e, k)

/-- It performs one act. -/
theorem trying_performs (assignment : List (Var × α)) :
    (trying assignment).Performs fun _ _ _ => [.attempt assignment] := fun _ _ _ => rfl

end Handler

/-- The tally of a run of a search: that of all decisions on the way. -/
def Plan.tally {α κ : Type} [Scalar α] (plan : Plan α) (handler : Handler α κ)
    (acts : Plan α → Decision α → κ → List (Act α)) : Nat → Turn α → κ → Tally
  | 0, _, _ => {}
  | turns + 1, turn, k =>
    match turn with
    | .proceed s => tally plan handler acts turns (plan.advance s) k
    | .ask d =>
      let (reply, e, k') := handler plan d k
      d.tally plan (acts plan d k) + tally plan handler acts turns (plan.resolve e reply) k'
    | _ => {}

end Milp
