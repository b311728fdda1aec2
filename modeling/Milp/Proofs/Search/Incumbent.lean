import Milp.Proofs.Search.Acts
import Milp.Proofs.Search.InHand
import Milp.Proofs.Search.Soundness

/-!
# Where incumbents come from

Whatever a callback does, a search has no other incumbents than rounded optima of relaxations that
are whole within the tolerance (`Plan.Installed`): those of its nodes and those of accepted trials,
whose box is that of the node with the assignment fixed in it. The step lemmas say what each function
of a step does to the incumbent; `drive_backed` carries this over a whole run.
-/

namespace Milp

variable {α : Type} [Scalar α]

/-- Whether a solution is the rounded optimum of a relaxation, whole within the tolerance. The box is
that of a node in which an assignment is fixed: one that was tried, or none if it is the node's own. -/
def Plan.Installed (plan : Plan α) (tried : List (Var × α) → Prop) (best : Solution α) : Prop :=
  ∃ (node : Node α) (assignment : List (Var × α)) (box : Box α) (objective : α) (values : Array α)
    (iterations : Nat), (assignment = [] ∨ tried assignment) ∧
      Decision.fixAll plan assignment (node.box plan.problem) = some box ∧
      plan.relax box node.rows = .ok ⟨.optimal objective values, iterations⟩ ∧
      plan.problem.fractionalVars plan.tolerance values = [] ∧
      best = plan.problem.roundedSolution values

/-- Whether the incumbent of a turn was installed, and is there if the turn is an optimal end. -/
structure Turn.Backed (plan : Plan α) (tried : List (Var × α) → Prop) (turn : Turn α) : Prop where
  installed : ∀ best, turn.search.incumbent = some best → plan.Installed tried best
  present : ∀ dual s, turn = .ended .optimal dual s → s.incumbent.isSome

namespace Plan

variable {plan : Plan α} {tried : List (Var × α) → Prop} {s : Search α}

/-! ### Steps that leave the incumbent alone -/

/-- A search that goes on. -/
theorem proceed_backed (installed : ∀ best, s.incumbent = some best → plan.Installed tried best) :
    (Turn.proceed s).Backed plan tried := ⟨installed, nofun⟩

/-- A search that waits at a decision point. -/
theorem ask_backed {d : Decision α}
    (installed : ∀ best, d.search.incumbent = some best → plan.Installed tried best) :
    (Turn.ask d).Backed plan tried := ⟨installed, nofun⟩

/-- A search that was given up. -/
theorem failed_backed (cause : Failure (SolverError α))
    (installed : ∀ best, s.incumbent = some best → plan.Installed tried best) :
    (Turn.failed cause s).Backed plan tried := ⟨installed, nofun⟩

/-- The end of a search. -/
theorem finish_backed (installed : ∀ best, s.incumbent = some best → plan.Installed tried best)
    {ending : Ending} (closed : ending ≠ .stopped .optimal) :
    (plan.finish s ending).Backed plan tried := by
  unfold finish
  constructor
  · intro best has
    refine installed best ?_
    simpa [Turn.search] using has
  · intro dual s' same
    simp only [Turn.ended.injEq] at same
    obtain ⟨status, -, rfl⟩ := same
    cases ending with
    | explored =>
      simp only [endStatus] at status
      split at status
      next present => simpa using present
      next => cases status
    | unbounded => cases status
    | stopped status' => exact absurd (congrArg Ending.stopped status) closed

/-- A stop. -/
theorem stopAt_backed (installed : ∀ best, s.incumbent = some best → plan.Installed tried best)
    (node : Node α) {status : SolveStatus} (stopped : status ≠ .optimal) :
    (plan.stopAt s node status).Backed plan tried := by
  unfold stopAt
  refine finish_backed ?_ fun same => stopped (Ending.stopped.inj same)
  exact installed

/-- A stop for a reason is no optimum. -/
theorem ofStop_ne_optimal (reason : StopReason) : SolveStatus.ofStop reason ≠ .optimal := by
  cases reason <;> exact nofun

/-- Splitting a node leaves the incumbent alone. -/
theorem split_incumbent (plan : Plan α) (s : Search α) (f : Focus α) (split : Split α) :
    (plan.split s f split).incumbent = s.incumbent := by
  cases split <;> rfl

/-- Splitting by the rule of the settings leaves the incumbent alone. -/
theorem splitByRule_incumbent (plan : Plan α) (s : Search α) (f : Focus α) :
    (plan.splitByRule s f).incumbent = s.incumbent := by
  unfold splitByRule
  simp only
  split
  · rfl
  · exact split_incumbent _ _ _ _

/-- Going on behind the heuristic point. -/
theorem offerBranching_backed (installed : ∀ best, s.incumbent = some best → plan.Installed tried best)
    (f : Focus α) : (plan.offerBranching s f).Backed plan tried := by
  unfold offerBranching
  split
  · exact ask_backed installed
  · refine proceed_backed fun best has => installed best ?_
    rw [← has]
    exact (splitByRule_incumbent plan s f).symm

/-- Going on with a solved node. -/
theorem offer_backed (installed : ∀ best, s.incumbent = some best → plan.Installed tried best)
    (f : Focus α) : (plan.offer s f).Backed plan tried := by
  unfold offer
  split
  · exact ask_backed installed
  · exact offerBranching_backed installed f

/-- Going on from a decision point. -/
theorem answer_backed {d : Decision α} (h : (Turn.ask d).Backed plan tried) (choice : Choice) :
    (plan.answer d choice).Backed plan tried := by
  have installed : ∀ best, d.search.incumbent = some best → plan.Installed tried best := h.installed
  unfold answer
  split
  · exact failed_backed _ installed
  · split
    · exact stopAt_backed installed _ nofun
    · split
      · exact failed_backed _ installed
      next split? _ =>
        unfold settle
        simp only
        split
        next reason _ => exact stopAt_backed installed _ (ofStop_ne_optimal reason)
        next =>
          split
          · exact proceed_backed installed
          · split
            · exact offerBranching_backed installed _
            · split
              · refine proceed_backed fun best has => installed best ?_
                rw [← has]
                exact (split_incumbent _ _ _ _).symm
              · refine proceed_backed fun best has => installed best ?_
                rw [← has]
                exact (splitByRule_incumbent _ _ _).symm

/-! ### Steps that install -/

/-- Going on with the optimum of a relaxation. -/
theorem explore_backed (installed : ∀ best, s.incumbent = some best → plan.Installed tried best)
    {node : Node α} {bound : α} {values : Array α} {iterations : Nat}
    (answered : plan.relax (node.box plan.problem) node.rows =
      .ok ⟨.optimal bound values, iterations⟩) :
    (plan.explore s node (node.box plan.problem) bound values).Backed plan tried := by
  unfold explore
  simp only
  -- what is written into the journal does not matter
  generalize shown : (s.note (.nodeSolved node.number node.depth bound)).display plan
    (.node node.number node.depth bound s.stack.length) = s'
  have same : s'.incumbent = s.incumbent := by rw [← shown]; simp
  rw [← same] at installed
  split
  · exact proceed_backed installed
  · split
    next whole =>
      refine proceed_backed fun best has => ?_
      cases has
      exact ⟨node, [], _, bound, values, iterations, .inl rfl, rfl, answered,
        List.isEmpty_iff.mp whole, rfl⟩
    · exact offer_backed installed _

/-- Solving the relaxation of a node. -/
theorem visit_backed (installed : ∀ best, s.incumbent = some best → plan.Installed tried best)
    (node : Node α) : (plan.visit s node).Backed plan tried := by
  unfold visit
  simp only
  split
  · exact failed_backed _ installed
  next relaxed answered =>
    split
    next => exact proceed_backed installed
    next =>
      apply finish_backed
      · exact installed
      · exact nofun
    next bound values optimal =>
      obtain ⟨result, iterations⟩ := relaxed
      obtain rfl : result = .optimal bound values := optimal
      apply explore_backed _ answered
      exact installed

/-- Taking the next open node. -/
theorem advance_backed (h : (Turn.proceed s).Backed plan tried) : (plan.advance s).Backed plan tried := by
  have installed : ∀ best, s.incumbent = some best → plan.Installed tried best := h.installed
  unfold advance
  split
  · exact finish_backed installed nofun
  · split
    · exact proceed_backed installed
    · simp only
      split
      next reason _ =>
        apply stopAt_backed _ _ (ofStop_ne_optimal reason)
        exact installed
      · apply visit_backed
        exact installed

/-- What a callback does at a decision point. -/
theorem perform_backed {d : Decision α} (presented : d.focus.Presented plan)
    (h : (Turn.ask d).Backed plan tried) (acts : List (Act α))
    (listed : ∀ assignment, .attempt assignment ∈ acts → tried assignment) :
    (Turn.ask (d.perform plan acts)).Backed plan tried := by
  induction acts generalizing d with
  | nil => exact h
  | cons act acts ih =>
    have later : ∀ assignment, .attempt assignment ∈ acts → tried assignment :=
      fun assignment found => listed assignment (List.mem_cons_of_mem act found)
    cases act with
    | interrupt =>
      have stopped : (Turn.ask d.interrupt).Backed plan tried := ask_backed h.installed
      exact ih (d := d.interrupt) presented stopped later
    | attempt assignment =>
      have same := (Decision.samePoint_tryAssignment plan d assignment).focus
      refine ih (same ▸ presented) (ask_backed fun best has => ?_) later
      rcases Decision.tryAssignment_incumbent plan d assignment with unchanged | ⟨values, found, new⟩
      · exact h.installed best (unchanged.symm.trans has)
      · obtain ⟨box, objective, iterations, fixed, answered, whole, -⟩ := found
        cases new.symm.trans has
        exact ⟨d.focus.node, assignment, box, objective, values, iterations,
          .inr (listed assignment List.mem_cons_self), presented.box_eq ▸ fixed, answered, whole, rfl⟩

/-! ### A whole run -/

/-- A run installs its incumbents. -/
theorem drive_backed {κ : Type} {handler : Handler α κ}
    {acts : Plan α → Decision α → κ → List (Act α)} (performs : handler.Performs acts) (turns : Nat)
    {turn : Turn α} (k : κ) (presented : turn.Presented plan)
    (h : turn.Backed plan fun assignment => ∃ d k, .attempt assignment ∈ acts plan d k) :
    (plan.drive handler turns turn k).1.Backed plan fun assignment =>
      ∃ d k, .attempt assignment ∈ acts plan d k := by
  induction turns generalizing turn k with
  | zero => exact h
  | succ turns ih =>
    cases turn with
    | proceed s => exact ih k (advance_presented s) (advance_backed h)
    | ask d =>
      have same := (Handler.confined_iff.mpr ⟨acts, performs⟩ plan d k).samePoint.focus
      have reached := perform_backed presented h (acts plan d k) fun assignment listed =>
        ⟨d, k, listed⟩
      rw [← performs plan d k] at reached
      simp only [drive]
      refine ih _ (resolve_presented (same ▸ presented) _) ?_
      unfold resolve
      split
      · exact answer_backed reached _
      · exact failed_backed _ reached.installed
    | ended status dual s => exact h
    | failed cause s => exact h

/-- A search starts without an incumbent. -/
theorem start_backed (stats : Statistics α) (interrupted : Bool) :
    (Turn.proceed (Search.start plan stats none interrupted)).Backed plan tried := by
  refine proceed_backed fun best has => ?_
  simp only [Search.start, Search.display_incumbent, Search.note_incumbent] at has
  cases has

end Plan
end Milp
