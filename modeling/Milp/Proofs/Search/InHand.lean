import Milp.Proofs.Search.Callback
import Milp.Search.Run

/-!
# The node in hand

At every decision point the node in hand is solved: its box is that of its changes, its values are an
optimum of its relaxation, and what is shown to be branched on is what can be read off these
(`Focus.Presented`). A search sees to it by itself whatever its open nodes are, and a decision keeps it
whatever it chooses, so nothing has to be known of the plan or of the callback.
-/

namespace Milp

variable {α : Type} [Scalar α] {plan : Plan α}

/-- Whether a focus is a node with an optimum that is fractional somewhere, and its candidates are read
off the optimum and the box. -/
structure Focus.Presented (plan : Plan α) (f : Focus α) : Prop where
  box_eq : f.box = f.node.box plan.problem
  answered : ∃ iterations, plan.relax f.box f.node.rows = .ok ⟨.optimal f.bound f.values, iterations⟩
  candidates_eq : f.candidates = plan.problem.fractionalVars plan.tolerance f.values
  fractional : f.candidates ≠ []
  pseudoCandidates_eq :
    f.pseudoCandidates = plan.problem.integralVars.filter (f.box.isFree plan.tolerance)

/-- Whether the node in hand is presented, if there is one. -/
def Turn.Presented (plan : Plan α) : Turn α → Prop
  | .ask d => d.focus.Presented plan
  | _ => True

namespace Plan

variable {f : Focus α} {d : Decision α}

/-- Going on behind the heuristic point of a node. -/
theorem offerBranching_presented (h : f.Presented plan) (s : Search α) :
    (plan.offerBranching s f).Presented plan := by
  unfold offerBranching
  split
  · exact h
  · trivial

/-- Going on with a node that has an optimum. -/
theorem explore_presented (s : Search α) {node : Node α} {bound : α} {values : Array α}
    {iterations : Nat} (answered : plan.relax (node.box plan.problem) node.rows =
      .ok ⟨.optimal bound values, iterations⟩) :
    (plan.explore s node (node.box plan.problem) bound values).Presented plan := by
  unfold explore
  simp only
  split_ifs with improves whole
  · trivial
  · trivial
  · have presented (dualBound : Extended α) : Focus.Presented plan {
        node, box := node.box plan.problem, bound, values
        candidates := plan.problem.fractionalVars plan.tolerance values
        pseudoCandidates :=
          plan.problem.integralVars.filter ((node.box plan.problem).isFree plan.tolerance)
        dualBound } :=
      ⟨rfl, ⟨iterations, answered⟩, rfl, by simpa using whole, rfl⟩
    unfold offer
    split
    · exact presented _
    · exact offerBranching_presented (presented _) _

/-- Taking the next open node. -/
theorem advance_presented (s : Search α) : (plan.advance s).Presented plan := by
  unfold advance
  split
  · trivial
  · split
    · trivial
    · simp only
      split
      · trivial
      next node _ _ _ _ _ =>
        unfold visit
        simp only
        split
        · trivial
        next relaxed answered =>
          obtain ⟨result, iterations⟩ := relaxed
          cases result with
          | infeasible => trivial
          | unbounded => trivial
          | optimal bound values => exact explore_presented _ answered

/-- Going on with a choice. -/
theorem answer_presented (h : d.focus.Presented plan) (choice : Choice) :
    (plan.answer d choice).Presented plan := by
  unfold answer
  split_ifs
  · trivial
  · trivial
  · split
    · trivial
    · unfold settle
      simp only
      split
      · trivial
      · split_ifs
        · trivial
        · split
          · exact offerBranching_presented h _
          · split <;> trivial

/-- Going on with any reply. -/
theorem resolve_presented (h : d.focus.Presented plan) (reply : Attempt (SolverError α) Choice) :
    (plan.resolve d reply).Presented plan := by
  cases reply with
  | ok choice => exact answer_presented h choice
  | error cause => trivial

/-- A whole run. -/
theorem drive_presented {κ : Type} {handler : Handler α κ} (confined : handler.Confined)
    (turns : Nat) {turn : Turn α} (h : turn.Presented plan) (k : κ) :
    (plan.drive handler turns turn k).1.Presented plan := by
  induction turns generalizing turn k with
  | zero => exact h
  | succ turns ih =>
    cases turn with
    | proceed s => exact ih (advance_presented s) k
    | ask d =>
      have same : (handler plan d k).2.1.focus = d.focus := (confined plan d k).samePoint.focus
      exact ih (resolve_presented (same ▸ h) _) _
    | ended => trivial
    | failed => trivial

end Plan

end Milp
