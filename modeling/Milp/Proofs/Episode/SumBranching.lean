import Milp.Episode.SumBranching
import Milp.Proofs.Episode.Refusal

/-!
# Sums that are accepted are not refused

The dynamics of branching on sums adds up values that it has seen in a snapshot, with the tolerance
that it has read from the model. Where the worker waits, these are the values and the tolerance of
the solver (`SumBranchingDynamics.Agrees`), so both come to the same sum
(`SumBranchingDynamics.Shows.branchingSum_eq`) and to the same verdict on whether it is whole.
-/

namespace Milp.SumBranchingDynamics

open Scalar

variable {α : Type} [Scalar α] {plan : Plan α} {d : Decision α} {b : SumBranchingDynamics α}

/-- Whether the dynamics judges sums by the values of a decision point, and offers what can be
branched on there. -/
structure Shows (b : SumBranchingDynamics α) (plan : Plan α) (d : Decision α) : Prop where
  offered : ∀ v ∈ b.actionSet.getD [], plan.branchingRefusal? d.focus v = none
  values_eq : b.values = d.focus.values

/-- The solver adds up the same values in the same order. -/
theorem Shows.branchingSum_eq (h : b.Shows plan d) {vars : List Var} {sum : α}
    (summed : b.sumOf [] vars 0 = .ok sum) : plan.branchingSum d.focus [] vars 0 = .ok sum := by
  generalize ([] : List Var) = seen at summed ⊢
  generalize (0 : α) = start at summed ⊢
  induction vars generalizing seen start with
  | nil => exact congrArg Except.ok (Except.ok.inj summed)
  | cons v vs ih =>
    rw [sumOf] at summed
    split_ifs at summed with unlisted repeated
    have listed : v ∈ b.actionSet.getD [] := by simpa using unlisted
    have new : v ∉ seen := by simpa using repeated
    rw [Plan.branchingSum, h.offered v listed, if_neg new, ← h.values_eq]
    exact ih _ _ summed

variable [Faithful α] {tol : α} {s : EpisodeSession α}

/-- Whether the dynamics has the tolerance of the solver and judges by the decision point where the
worker waits. -/
structure Agrees (tol : α) (b : SumBranchingDynamics α) (s : EpisodeSession α) : Prop where
  session : s.Unrefused { branching := true } tol
  tolerance_eq : s.isSuspended = true → b.tolerance = tol
  shows : ∀ plan d, s.WaitsAt plan d → b.Shows plan d

/-- The solver judges sums by the same tolerance. -/
theorem Agrees.tolerance_eq_of_waitsAt (h : Agrees tol b s) (waits : s.WaitsAt plan d) :
    b.tolerance = plan.tolerance :=
  (h.tolerance_eq waits.isSuspended).trans (h.session.branchable waits).1.tolerance_eq.symm

/-- A set of variables that is accepted can be branched on. -/
theorem Agrees.splitOf_eq (h : Agrees tol b s) (waits : s.WaitsAt plan d) {vars : List Var}
    (accepted : b.check vars = .ok ()) :
    ∃ sum, plan.splitOf d.focus (.branchedSum vars) = .ok (some (.onSum vars sum)) := by
  cases vars with
  | nil => cases accepted
  | cons v vs =>
    unfold check at accepted
    rw [if_neg (by simp)] at accepted
    cases summed : b.sumOf [] (v :: vs) 0 with
    | error refusal =>
      rw [summed] at accepted
      cases accepted
    | ok sum =>
      simp only [summed, bind, Except.bind] at accepted
      split_ifs at accepted with whole
      rw [h.tolerance_eq_of_waitsAt waits] at whole
      refine ⟨sum, ?_⟩
      simp only [Plan.splitOf, (h.shows plan d waits).branchingSum_eq summed, bind, Except.bind,
        if_neg whole]
      rfl

/-- Once the solve has moved, the dynamics judges by what the snapshot shows. -/
theorem outcome_agrees (h : s.Unrefused { branching := true } tol) (tolerance_eq : b.tolerance = tol)
    (done : Bool) (ended : done = true → ∀ plan d, ¬s.WaitsAt plan d) :
    (b.outcome s done).Keeps (Agrees tol) := by
  unfold outcome
  cases done with
  | true =>
    exact ⟨Attempt.not_reportsRefusal_ok _, h, fun _ => tolerance_eq,
      fun plan d waits => absurd waits (ended rfl plan d)⟩
  | false =>
    simp only [Bool.false_eq_true, if_false]
    split
    next e failed =>
      refine ⟨Attempt.not_reportsRefusal_fail (Session.snapshot_unrefused failed), h,
        fun _ => tolerance_eq, fun plan d waits => ?_⟩
      cases failed.symm.trans (h.snapshot_of_waitsAt waits)
    next shown snapshot_eq =>
      refine ⟨Attempt.not_reportsRefusal_ok _, h, fun _ => tolerance_eq, fun plan d waits => ?_⟩
      obtain rfl := Except.ok.inj (snapshot_eq.symm.trans (h.snapshot_of_waitsAt waits))
      exact ⟨(h.branchable waits).2.focus.candidates, rfl⟩

/-- A reset on an idle model takes over the tolerance of the model. -/
theorem reset_agrees {m : Model α} (h : m.Integral tol) (b : SumBranchingDynamics α) :
    (b.reset (.idle m)).Keeps (Agrees tol) := by
  obtain ⟨t, given, rfl⟩ := h.tolerance
  have started := Session.accepted_start h { branching := true } ()
  unfold reset
  simp only [Session.model, given]
  split
  next e s' _ eq =>
    rw [eq] at started
    exact ⟨Attempt.not_reportsRefusal_fail (started.error e rfl), started.session, fun _ => rfl,
      fun plan d waits => absurd waits (started.nobody nofun plan d)⟩
  next done s' _ eq =>
    rw [eq] at started
    exact outcome_agrees started.session rfl done fun ended => started.nobody (by simp [ended])

/-- A step. An action that is accepted is acceptable to the solver as well. -/
theorem Agrees.step (h : Agrees tol b s) (vars : List Var) :
    (b.step s vars).Keeps (Agrees tol) := by
  unfold SumBranchingDynamics.step
  split_ifs with unsuspended
  · exact ⟨Attempt.not_reportsRefusal_fail id, h⟩
  · have tolerance_eq := h.tolerance_eq (by simpa using unsuspended)
    split
    next refusal rejected => exact ⟨Attempt.not_reportsRefusal_fail id, h⟩
    next accepted =>
      have resumed := h.session.resume (.resolve (.branchedSum vars)) ()
        fun plan d waits => by
          obtain ⟨serves, branchable⟩ := h.session.branchable waits
          obtain ⟨sum, split_eq⟩ := h.splitOf_eq waits accepted
          refine Order.acceptable_resolve ⟨?_, _, split_eq⟩
          rw [branchable.point_eq_branching serves.hooks_eq]
          rfl
      split
      next e s' _ eq =>
        rw [eq] at resumed
        exact ⟨Attempt.not_reportsRefusal_fail (resumed.error e rfl), resumed.session,
          fun _ => tolerance_eq, fun plan d waits => absurd waits (resumed.nobody nofun plan d)⟩
      next done s' _ eq =>
        rw [eq] at resumed
        exact outcome_agrees resumed.session tolerance_eq done
          fun ended => resumed.nobody (by simp [ended])

end Milp.SumBranchingDynamics
