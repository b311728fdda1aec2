import Milp.Episode.PrimalSearch
import Milp.Proofs.Episode.Refusal

/-!
# Assignments that are accepted are not refused

The dynamics of primal search checks an assignment against the number of values in the snapshot,
which is the number of variables. So what it accepts can be tried
(`PrimalSearchDynamics.order_acceptable`), and what comes of the trials is a choice for the
heuristic points, the only ones that it asks for.
-/

namespace Milp.PrimalSearchDynamics

open Scalar

variable {α : Type} [Scalar α] {plan : Plan α} {d : Decision α}

/-- Finite values for variables of the problem can be tried. -/
theorem refusal?_eq_none {a : PartialAssignment α} (accepted : check plan.problem.size a = .ok ()) :
    Decision.refusal? plan (a.vars.zip a.values) = none := by
  unfold check at accepted
  split_ifs at accepted
  split at accepted
  · cases accepted
  next inside =>
    split at accepted
    · cases accepted
    next finite =>
      refine List.findSome?_eq_none_iff.mpr fun pair hpair => ?_
      obtain ⟨hv, hx⟩ := List.of_mem_zip hpair
      have small := List.find?_eq_none.mp inside pair.1 hv
      have regular := List.find?_eq_none.mp finite pair.2 hx
      simp only [decide_eq_true_iff] at small
      simp only [Bool.not_eq_true, Bool.not_eq_false'] at regular
      simp [small, regular]

/-- What comes of the trials may be chosen at a heuristic point. -/
theorem heuristicChoice_admissible (point : d.point = .heuristic) :
    d.heuristicChoice.Admissible plan d := by
  unfold Decision.heuristicChoice
  split_ifs
  · exact ⟨by rw [point]; rfl, none, rfl⟩
  · exact ⟨by rw [point]; rfl, none, rfl⟩

/-- To try an assignment that is accepted is acceptable to the solver. -/
theorem order_acceptable (b : PrimalSearchDynamics) (point : d.point = .heuristic)
    {a : PartialAssignment α} (accepted : check plan.problem.size a = .ok ()) :
    (b.order a).Acceptable plan d := by
  intro action eq k
  cases eq
  simp only
  -- the empty assignment is not tried at all
  generalize tried : (if a.vars.isEmpty = true then ((.ok none : Except (SolverError α) _), d)
    else ((d.tryAssignment plan (a.vars.zip a.values)).1.map some,
      (d.tryAssignment plan (a.vars.zip a.values)).2)) = trial
  obtain ⟨same, fine⟩ : d.SamePoint trial.2 ∧ ∀ e, trial.1 = .error e → ¬e.IsRefusal := by
    rw [← tried]
    split_ifs
    · exact ⟨.refl d, nofun⟩
    · refine ⟨Decision.samePoint_tryAssignment plan d _, fun e failed => ?_⟩
      cases result : (d.tryAssignment plan (a.vars.zip a.values)).1 with
      | ok r =>
        rw [result] at failed
        cases failed
      | error e' =>
        rw [result] at failed
        cases failed
        exact Decision.tryAssignment_unrefused (refusal?_eq_none accepted) result
  have point' : trial.2.point = .heuristic := same.point.trans point
  split
  next e failed =>
    refine ⟨same, nofun, fun cause eq => ?_⟩
    cases eq
    exact fine e failed
  next =>
    split_ifs
    · refine ⟨same, fun choice chosen => ?_, nofun⟩
      cases chosen
      exact heuristicChoice_admissible point'
    · exact ⟨same, nofun, nofun⟩

variable [Faithful α] {tol : α} {b : PrimalSearchDynamics} {s : EpisodeSession α}

/-- Whether the solve asks at the depths of the schedule. -/
def Agrees (tol : α) (b : PrimalSearchDynamics) (s : EpisodeSession α) : Prop :=
  s.Unrefused { heuristic := some b.schedule } tol

/-- Once the solve has moved, the trials are counted anew at a new node. -/
theorem outcome_agrees (h : Agrees tol b s) (done : Bool) :
    (b.outcome s done).Keeps (Agrees tol) := by
  unfold outcome
  cases done with
  | true => exact ⟨Attempt.not_reportsRefusal_ok _, h⟩
  | false =>
    simp only [Bool.false_eq_true, if_false]
    split
    next e failed =>
      exact ⟨Attempt.not_reportsRefusal_fail (Session.snapshot_unrefused failed), h⟩
    next shown _ =>
      refine ⟨Attempt.not_reportsRefusal_ok _, ?_⟩
      unfold track
      split_ifs <;> exact h

/-- After a trial, too. -/
theorem afterTrial_agrees (h : Agrees tol b s) (node : Nat) (done : Bool) :
    (b.afterTrial node s done).Keeps (Agrees tol) := by
  unfold afterTrial
  have spent : Agrees tol b.spend s := h
  split_ifs
  · exact outcome_agrees spent true
  · split
    next e failed =>
      exact ⟨Attempt.not_reportsRefusal_fail (Session.snapshot_unrefused failed), h⟩
    next shown _ =>
      have moved := outcome_agrees spent false
      split
      next e b' s' eq =>
        rw [eq] at moved
        exact moved
      next outcome b' s' eq =>
        rw [eq] at moved
        refine ⟨Attempt.not_reportsRefusal_ok _, ?_⟩
        simp only
        split_ifs <;> exact moved.2

/-- A reset on an idle model. -/
theorem reset_agrees {m : Model α} (h : m.Integral tol) (b : PrimalSearchDynamics) :
    (b.reset (.idle m)).Keeps (Agrees tol) := by
  unfold reset
  simp only
  split_ifs
  · refine ⟨?_, trivial⟩
    exact Attempt.not_reportsRefusal_map h.solveAlone_unrefused.not_reportsRefusal _
  · have started := Session.accepted_start h { heuristic := some b.schedule } ()
    split
    next e s' _ eq =>
      rw [eq] at started
      exact ⟨Attempt.not_reportsRefusal_fail (started.error e rfl), started.session⟩
    next done s' _ eq =>
      rw [eq] at started
      exact outcome_agrees (b := { b with spent := 0, lastNode := none, lastResult := none })
        started.session done

/-- A step. An assignment that is accepted is acceptable to the solver as well. -/
theorem Agrees.step (h : Agrees tol b s) (a : PartialAssignment α) :
    (b.step s a).Keeps (Agrees tol) := by
  unfold PrimalSearchDynamics.step
  split_ifs
  · exact ⟨Attempt.not_reportsRefusal_fail id, h⟩
  · split
    next e failed =>
      exact ⟨Attempt.not_reportsRefusal_fail (Session.snapshot_unrefused failed), h⟩
    next shown snapshot_eq =>
      split
      next refusal rejected => exact ⟨Attempt.not_reportsRefusal_fail id, h⟩
      next accepted =>
        have resumed := Session.Unrefused.resume h (b.order a) ()
          fun plan d waits => by
            obtain ⟨serves, branchable⟩ := Session.Unrefused.branchable h waits
            cases snapshot_eq.symm.trans (Session.Unrefused.snapshot_of_waitsAt h waits)
            exact order_acceptable b (branchable.point_eq_heuristic serves.hooks_eq)
              (branchable.focus.size_eq ▸ accepted)
        split
        next e s' _ eq =>
          rw [eq] at resumed
          exact ⟨Attempt.not_reportsRefusal_fail (resumed.error e rfl), resumed.session⟩
        next done s' _ eq =>
          rw [eq] at resumed
          exact afterTrial_agrees resumed.session _ done

end Milp.PrimalSearchDynamics
