import Milp.Proofs.Episode.Branching
import Milp.Proofs.Episode.PrimalSearch
import Milp.Proofs.Episode.SumBranching
import Milp.Proofs.Number.Double
import Milp.Proofs.Param.Configured

/-!
# The dynamics and the solver agree on what can be done

A dynamics checks an action by what a snapshot shows, and the solver checks the decision that is
made of it by the node in hand. Over doubles, for every problem that is built and for all settings,
what passes the first check passes the second one (`Model.decisions_agree`).

It comes down to the integral bounds of the variables (`Problem.Built.integral`) and to the range of
the tolerance (`Registry.Configured.exists_tolerance`), which make fractional variables unfixed
(`Box.Integral.isFixed_eq_false`) in the arithmetic of doubles (`Double`). The rest is that the
snapshot shows the decision point where the worker waits.
-/

namespace Milp

namespace Model

/-- Every solve of a problem that is built starts with integral bounds and a moderate tolerance. -/
theorem exists_integral {m : Model Float} (built : m.problem.Built)
    (configured : m.registry.Configured) : ∃ tol, m.Integral tol := by
  obtain ⟨t, read_eq, moderate⟩ := configured.exists_tolerance
  exact ⟨t, built.integral, moderate, t, read_eq, rfl⟩

/-- No episode on a problem that is built, with whatever settings, reports that the solver refused
what was decided: no branching, no sum of variables, no assignment and no choice. In episodes of
branching on sums, the dynamics and the solver come to the same sum and to the same verdict on it
wherever the worker waits. -/
theorem decisions_agree {m : Model Float} (built : m.problem.Built)
    (configured : m.registry.Configured) :
    Dynamics.NeverRefused BranchingDynamics m ∧
      Dynamics.NeverRefused (SumBranchingDynamics Float) m ∧
      Dynamics.NeverRefused PrimalSearchDynamics m ∧
      ∀ (b : SumBranchingDynamics Float) (s : EpisodeSession Float), Dynamics.Comes m b s →
        ∀ plan d, s.WaitsAt plan d → ∀ vars sum, b.sumOf [] vars 0 = .ok sum →
          plan.branchingSum d.focus [] vars 0 = .ok sum ∧
            Scalar.isWhole sum b.tolerance = Scalar.isWhole sum plan.tolerance := by
  obtain ⟨tol, integral⟩ := exists_integral built configured
  refine ⟨.of_keeps (BranchingDynamics.reset_agrees integral) fun _ _ a h => h.step a,
    .of_keeps (SumBranchingDynamics.reset_agrees integral) fun _ _ a h => h.step a,
    .of_keeps (PrimalSearchDynamics.reset_agrees integral)
      fun _ _ a h => h.step a,
    fun b s comes plan d waits vars sum summed => ?_⟩
  have agrees : b.Agrees tol s := comes.keeps (SumBranchingDynamics.reset_agrees integral)
    fun _ _ a h => h.step a
  exact ⟨(agrees.shows plan d waits).branchingSum_eq summed,
    by rw [agrees.tolerance_eq_of_waitsAt waits]⟩

end Model

/-! ### An episode of branching on sums -/

/-- Whether a session waits for a decision and the dynamics takes the first variable for a sum. -/
def SumBranchingDynamics.takesFirst (b : SumBranchingDynamics Float) :
    EpisodeSession Float → Bool
  | .controlled c _ => c.worker.phase == .waiting && (b.sumOf [] [0] 0).toOption.isSome
  | _ => false

/-- A reset on the problem leads to a decision point with a sum to branch on. -/
theorem SumBranchingDynamics.single_waits :
    ∃ (b : SumBranchingDynamics Float) (s : EpisodeSession Float) (plan : Plan Float)
      (d : Decision Float) (sum : Float),
      Dynamics.Comes (.ofProblem .single) b s ∧ s.WaitsAt plan d ∧ b.sumOf [] [0] 0 = .ok sum := by
  have comes := Dynamics.Comes.reset (m := .ofProblem .single)
    (initial : SumBranchingDynamics Float)
  have taken : (Dynamics.reset (initial : SumBranchingDynamics Float)
      (Session.idle (.ofProblem .single))).2.1.takesFirst
      (Dynamics.reset (initial : SumBranchingDynamics Float)
        (Session.idle (.ofProblem .single))).2.2 = true := by decide +kernel
  generalize Dynamics.reset (initial : SumBranchingDynamics Float)
    (Session.idle (.ofProblem .single)) = r at taken comes
  obtain ⟨result, b, s⟩ := r
  cases s with
  | idle => cases taken
  | vacant => cases taken
  | controlled c token =>
    rw [takesFirst, Bool.and_eq_true, beq_iff_eq] at taken
    obtain ⟨waiting, summed⟩ := taken
    cases sum_eq : b.sumOf [] [0] 0 with
    | error refusal =>
      rw [sum_eq] at summed
      cases summed
    | ok sum =>
      cases worker_eq : c.worker with
      | waiting m plan d => exact ⟨b, _, plan, d, sum, comes, ⟨c, token, m, rfl, worker_eq⟩, sum_eq⟩
      | _ =>
        rw [worker_eq] at waiting
        cases waiting

/-- With default settings nothing is refused on the problem, and the sum that the dynamics judges
is the one that the solver judges. -/
theorem Model.single_decisions_agree :
    Problem.single.Built ∧ defaultRegistry.Configured ∧
      Dynamics.NeverRefused BranchingDynamics (.ofProblem .single) ∧
      Dynamics.NeverRefused (SumBranchingDynamics Float) (.ofProblem .single) ∧
      Dynamics.NeverRefused PrimalSearchDynamics (.ofProblem .single) ∧
      ∃ (b : SumBranchingDynamics Float) (s : EpisodeSession Float) (plan : Plan Float)
        (d : Decision Float) (sum : Float),
        Dynamics.Comes (.ofProblem .single) b s ∧ s.WaitsAt plan d ∧
          plan.branchingSum d.focus [] [0] 0 = .ok sum ∧
          Scalar.isWhole sum b.tolerance = Scalar.isWhole sum plan.tolerance := by
  have configured : (ofProblem Problem.single).registry.Configured := by
    simp only [ofProblem, withRegistry]
    exact .default
  obtain ⟨branching, sums, primal, agree⟩ := decisions_agree Problem.single_built configured
  obtain ⟨b, s, plan, d, sum, comes, waits, summed⟩ := SumBranchingDynamics.single_waits
  exact ⟨Problem.single_built, .default, branching, sums, primal, b, s, plan, d, sum, comes, waits,
    agree b s comes plan d waits [0] sum summed⟩

end Milp
