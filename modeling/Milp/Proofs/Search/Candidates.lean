import Milp.Proofs.Search.Branchable
import Milp.Proofs.Search.InHand

/-!
# The candidates of a node

What is offered at a node to be branched on are integral variables that are not fixed there, in
ascending order, and there are some (`Focus.Offers`). Of the pseudo-candidates this is so by their
definition, but for there being any. The candidates are not empty, since the optimum is fractional
somewhere. Both rest on the same fact, that a variable with a fractional value is not fixed: this is why
candidates can be branched on (`Focus.Branchable`) and why each of them is a pseudo-candidate.
-/

namespace Milp

open Scalar

variable {α : Type}

/-- The integral variables are listed in ascending order. -/
theorem Problem.integralVars_ascending (p : Problem α) : p.integralVars.Pairwise (· < ·) :=
  List.Pairwise.filter _ List.pairwise_lt_range

variable [Scalar α]

/-- Whether variables can be offered at a node: there are some, in ascending order, and all of them are
integral and not fixed. -/
structure Focus.Offers (p : Problem α) (tol : α) (f : Focus α) (set : List Var) : Prop where
  nonempty : set ≠ []
  ascending : set.Pairwise (· < ·)
  integral : ∀ v ∈ set, p.isIntegral v = true
  unfixed : ∀ v ∈ set, f.box.isFree tol v = true

/-- Whether the candidates of a node are the variables with fractional values, and its pseudo-candidates
those that are not fixed, and both can be offered. -/
structure Focus.Listed (p : Problem α) (tol : α) (f : Focus α) : Prop where
  box_eq : f.box = f.node.box p
  mem_candidates : ∀ v, v ∈ f.candidates ↔
    p.isIntegral v = true ∧ isWhole (f.values.getD v 0) tol = false
  mem_pseudoCandidates : ∀ v, v ∈ f.pseudoCandidates ↔
    p.isIntegral v = true ∧ f.box.isFree tol v = true
  candidates : f.Offers p tol f.candidates
  pseudoCandidates : f.Offers p tol f.pseudoCandidates
  subset : f.candidates ⊆ f.pseudoCandidates

/-- Some of the variables that can be offered, in their order. -/
theorem Focus.Offers.some_of {p : Problem α} {tol : α} {f : Focus α} {all set : List Var}
    (h : f.Offers p tol all) (nonempty : set ≠ []) (ascending : set.Pairwise (· < ·))
    (subset : set ⊆ all) : f.Offers p tol set where
  nonempty := nonempty
  ascending := ascending
  integral v hv := h.integral v (subset hv)
  unfixed v hv := h.unfixed v (subset hv)

/-- The candidates of a node in hand, if its bounds are integral. -/
theorem Focus.Branchable.listed [Faithful α] {plan : Plan α} {f : Focus α} (h : f.Branchable plan)
    (presented : f.Presented plan) (moderate : Moderate plan.tolerance) :
    f.Listed plan.problem plan.tolerance := by
  have mem_candidates (v : Var) : v ∈ f.candidates ↔ plan.problem.isIntegral v = true ∧
      isWhole (f.values.getD v 0) plan.tolerance = false := by
    rw [presented.candidates_eq, Problem.fractionalVars, List.mem_filter,
      Problem.mem_integralVars, Bool.not_eq_true']
  have mem_pseudoCandidates (v : Var) : v ∈ f.pseudoCandidates ↔
      plan.problem.isIntegral v = true ∧ f.box.isFree plan.tolerance v = true := by
    rw [presented.pseudoCandidates_eq, List.mem_filter, Problem.mem_integralVars]
  have subset : f.candidates ⊆ f.pseudoCandidates := by
    intro v listed
    have integral := ((mem_candidates v).mp listed).1
    have unfixed : f.box.isFixed plan.tolerance v = false := by
      have fine := h.candidates v listed
      rw [Plan.branchingRefusal?, if_neg (not_le.mpr (Problem.lt_size_of_isIntegral integral)),
        if_neg (by simpa using integral)] at fine
      split_ifs at fine with fixed
      simpa using fixed
    exact (mem_pseudoCandidates v).mpr
      ⟨integral, h.integral.isFree_of_not_isFixed moderate integral unfixed⟩
  have pseudoCandidates : f.Offers plan.problem plan.tolerance f.pseudoCandidates := by
    refine ⟨fun none => ?_, ?_, fun v hv => ((mem_pseudoCandidates v).mp hv).1,
      fun v hv => ((mem_pseudoCandidates v).mp hv).2⟩
    · apply presented.fractional
      exact List.eq_nil_iff_forall_not_mem.mpr fun v hv => by simpa [none] using subset hv
    · rw [presented.pseudoCandidates_eq]
      exact plan.problem.integralVars_ascending.filter _
  refine ⟨presented.box_eq, mem_candidates, mem_pseudoCandidates, ?_, pseudoCandidates, subset⟩
  apply pseudoCandidates.some_of presented.fractional _ subset
  rw [presented.candidates_eq]
  exact plan.problem.integralVars_ascending.filter _

end Milp
