import Milp.Proofs.Problem.IntegralBounds
import Milp.Proofs.Relaxation.Values
import Milp.Proofs.Search.Callback
import Milp.Proofs.Search.Soundness

/-!
# Candidates can be branched on

At every decision point of a search, the candidates and the pseudo-candidates that are shown can be
branched on: none of them is refused. What a search keeps up for this is that the bounds of all
open nodes are integral, since children are bounded by whole numbers (`Focus.Branchable.split`). In
such a box a variable with a fractional value is not fixed.

`Turn.Branchable` is the invariant, `Plan.advance_branchable` and `Plan.answer_branchable` carry it
over the steps. A search whose choices are admissible fails at relaxations only.
-/

namespace Milp

open Scalar

/-! ### Refusals -/

/-- Whether an error says that what was decided cannot be done. -/
def SolverError.IsRefusal {α : Type} : SolverError α → Prop
  | .invalidBranching _ _ => True
  | .invalidSumBranching _ => True
  | .invalidChoice _ _ => True
  | .invalidAssignment _ => True
  | _ => False

/-- Whether a failure says that what was decided cannot be done. A crash does not. -/
def Failure.IsRefusal {α : Type} : Failure (SolverError α) → Prop
  | .error e => e.IsRefusal
  | .crash _ => False

variable {α : Type} [Scalar α] {plan : Plan α}

/-- Whether a choice can be made at a decision point. -/
structure Choice.Admissible (plan : Plan α) (d : Decision α) (c : Choice) : Prop where
  valid : c.isValidAt d.point = true
  split : ∃ split?, plan.splitOf d.focus c = .ok split?

/-- A trial of an assignment of finite values to variables of the problem is not refused. -/
theorem Decision.tryAssignment_unrefused {d : Decision α} {assignment : List (Var × α)}
    (fine : refusal? plan assignment = none) {e : SolverError α}
    (failed : (d.tryAssignment plan assignment).1 = .error e) : ¬e.IsRefusal := by
  unfold tryAssignment at failed
  rw [fine] at failed
  simp only at failed
  generalize ({ d with search := { d.search with stats := d.search.stats.onTrial } } :
    Decision α) = d' at failed
  have relaxation : ∀ e', (d'.probe plan assignment).1 = .error e' → ¬e'.IsRefusal := by
    intro e' probed
    unfold probe at probed
    split at probed
    · cases probed
    · split at probed
      · cases probed
        exact id
      · cases probed
  split at failed
  next e' d'' eq =>
    cases failed
    exact relaxation _ (congrArg Prod.fst eq)
  next => cases failed

variable [Faithful α] {s : Search α} {f : Focus α}

/-! ### The invariant -/

/-- What a plan needs for candidates to be branchable: integral bounds, a moderate tolerance, and
answers that lie in their boxes. -/
structure Plan.Integral (plan : Plan α) : Prop where
  box : (Box.ofProblem plan.problem).Integral plan.problem
  moderate : Moderate plan.tolerance
  values : ∀ box rows relaxed objective values, plan.relax box rows = .ok relaxed →
    relaxed.result = .optimal objective values →
      (∀ v < plan.problem.size, box.isCrossed plan.tolerance v = false) ∧
        values.size = box.lower.size ∧
        ∀ v < box.lower.size, isFinite (values.getD v 0) = true ∧
          ∃ x, values.getD v 0 = Relaxation.clampInto box v x

/-- Whether the boxes of all open nodes have integral bounds. -/
def Search.Integral (plan : Plan α) (s : Search α) : Prop :=
  ∀ n ∈ s.stack, (n.box plan.problem).Integral plan.problem

/-- Whether the node in hand has integral bounds and finite values, and its candidates can be branched
on. -/
structure Focus.Branchable (plan : Plan α) (f : Focus α) : Prop where
  box_eq : f.box = f.node.box plan.problem
  integral : f.box.Integral plan.problem
  size_eq : f.values.size = plan.problem.size
  finite : ∀ v, isFinite (f.values.getD v 0) = true
  candidates : ∀ v ∈ f.candidates, plan.branchingRefusal? f v = none
  pseudoCandidates : ∀ v ∈ f.pseudoCandidates, plan.branchingRefusal? f v = none

/-- Whether a decision is one that was asked for, with a branchable node in hand. -/
structure Decision.Branchable (plan : Plan α) (d : Decision α) : Prop where
  search : d.search.Integral plan
  focus : d.focus.Branchable plan
  asked : plan.asksAt d.focus d.point = true

/-- What holds at every turn of a search whose choices are admissible. -/
def Turn.Branchable (plan : Plan α) : Turn α → Prop
  | .proceed s => s.Integral plan
  | .ask d => d.Branchable plan
  | .ended _ _ _ => True
  | .failed cause _ => ¬cause.IsRefusal

/-! ### Splitting the node in hand -/

namespace Focus.Branchable

/-- Both values that the children of a variable are bounded by are whole. -/
theorem splitValues (h : f.Branchable plan) (v : Var) :
    IsInteger (plan.splitValues f v).1 ∧ IsInteger (plan.splitValues f v).2 := by
  have finite := h.finite v
  simp only [Plan.splitValues]
  split_ifs
  · exact ⟨.floor finite, .ceil finite⟩
  · exact ⟨.round finite, (IsInteger.round finite).succ⟩
  · exact ⟨(IsInteger.round finite).pred, .round finite⟩

/-- The children of the node in hand have integral bounds. -/
theorem split (h : f.Branchable plan) (hs : s.Integral plan) (split : Split α) :
    (plan.split s f split).Integral plan := by
  have pushed {down up : Node α} (hdown : (down.box plan.problem).Integral plan.problem)
      (hup : (up.box plan.problem).Integral plan.problem) :
      (plan.pushChildren s down up).Integral plan := by
    obtain ⟨children, stack_eq, mem⟩ := Plan.pushChildren_stack plan s down up
    intro n hn
    rw [stack_eq] at hn
    rcases List.mem_append.mp hn with new | old
    · rcases (mem n).mp new with rfl | rfl
      · exact hdown
      · exact hup
    · exact hs n old
  have own := h.box_eq ▸ h.integral
  cases split with
  | onVariable v =>
    obtain ⟨down, up⟩ := h.splitValues v
    refine pushed ?_ ?_
    · rw [Node.box_child]
      exact own.tighten down
    · rw [Node.box_child]
      exact own.tighten up
  | onSum vs sum => exact pushed own own

/-- So do the children by the rule of the settings. -/
theorem splitByRule (h : f.Branchable plan) (hs : s.Integral plan) :
    (plan.splitByRule s f).Integral plan := by
  unfold Plan.splitByRule
  simp only
  split
  · exact hs
  next v _ =>
    generalize (plan.settings.rule.select f.candidates f.values plan.rank s.engine).2 = engine
    exact h.split (s := { s with engine }) hs (.onVariable v)

/-- Going on behind the heuristic point. -/
theorem offerBranching (h : f.Branchable plan) (hs : s.Integral plan) :
    (plan.offerBranching s f).Branchable plan := by
  unfold Plan.offerBranching
  split
  next asks => exact ⟨hs, h, asks⟩
  next => exact h.splitByRule hs

/-- Going on with a solved node. -/
theorem offer (h : f.Branchable plan) (hs : s.Integral plan) :
    (plan.offer s f).Branchable plan := by
  unfold Plan.offer
  split
  next asks => exact ⟨hs, h, asks⟩
  next => exact h.offerBranching hs

end Focus.Branchable

/-! ### Steps -/

namespace Plan

/-- A node with an optimum has a branchable focus. -/
theorem Integral.branchable (h : plan.Integral) {node : Node α} {bound : α} {values : Array α}
    {relaxed : Relaxed α} (own : (node.box plan.problem).Integral plan.problem)
    (solved : plan.relax (node.box plan.problem) node.rows = .ok relaxed)
    (optimal : relaxed.result = .optimal bound values) (dualBound : Extended α) :
    Focus.Branchable plan {
      node, box := node.box plan.problem, bound, values
      candidates := plan.problem.fractionalVars plan.tolerance values
      pseudoCandidates :=
        plan.problem.integralVars.filter ((node.box plan.problem).isFree plan.tolerance)
      dualBound } := by
  obtain ⟨uncrossed, size_eq, moved⟩ := h.values _ _ _ _ _ solved optimal
  rw [Node.size_box] at size_eq moved
  have unrefused {v : Var} (integral : plan.problem.isIntegral v = true)
      (unfixed : (node.box plan.problem).isFixed plan.tolerance v = false) :
      (if v ≥ plan.problem.size then some BranchingRefusal.outOfRange
        else if !plan.problem.isIntegral v then some .continuous
        else if (node.box plan.problem).isFixed plan.tolerance v then some .fixed
        else none) = none := by
    rw [if_neg (not_le.mpr (Problem.lt_size_of_isIntegral integral)), integral, unfixed]
    rfl
  refine ⟨rfl, own, size_eq, fun v => ?_, fun v listed => ?_, fun v listed => ?_⟩
  · by_cases inside : v < plan.problem.size
    · exact (moved v inside).1
    · rw [← size_eq] at inside
      rw [Array.getD_eq_getD_getElem?, Array.getElem?_eq_none (not_lt.mp inside)]
      exact Faithful.finite_zero
  · have integral := Problem.isIntegral_of_mem_fractionalVars listed
    have inside := Problem.lt_size_of_isIntegral integral
    have fractional : isWhole (values.getD v 0) plan.tolerance = false := by
      simpa using (List.mem_filter.mp listed).2
    obtain ⟨finite, x, value_eq⟩ := moved v inside
    rw [value_eq] at finite fractional
    exact unrefused integral
      (own.isFixed_eq_false h.moderate integral (uncrossed v inside) finite fractional)
  · obtain ⟨mem, free⟩ := List.mem_filter.mp listed
    have integral := Problem.mem_integralVars.mp mem
    exact unrefused integral (own.isFixed_of_isFree h.moderate integral free)

/-- Going on with the optimum of a node's relaxation. -/
theorem explore_branchable (h : plan.Integral) (hs : s.Integral plan) {node : Node α} {bound : α}
    {values : Array α} {relaxed : Relaxed α}
    (own : (node.box plan.problem).Integral plan.problem)
    (solved : plan.relax (node.box plan.problem) node.rows = .ok relaxed)
    (optimal : relaxed.result = .optimal bound values) :
    (plan.explore s node (node.box plan.problem) bound values).Branchable plan := by
  unfold explore
  simp only
  -- what is written into the journal does not matter
  generalize shown : (s.note (.nodeSolved node.number node.depth bound)).display plan
    (.node node.number node.depth bound s.stack.length) = s'
  have kept : s'.Integral plan := by
    rw [Search.Integral, ← shown, Search.display_stack]
    exact hs
  split_ifs
  · exact kept
  · exact kept
  · exact (h.branchable own solved optimal _).offer kept

/-- Solving the relaxation of a node. -/
theorem visit_branchable (h : plan.Integral) (hs : s.Integral plan) {node : Node α}
    (own : (node.box plan.problem).Integral plan.problem) :
    (plan.visit s node).Branchable plan := by
  unfold visit
  simp only
  split
  · exact id
  next relaxed answered =>
    split
    next => exact hs
    next => trivial
    next bound values optimal =>
      apply explore_branchable h ?_ own answered optimal
      exact hs

/-- Taking the next open node. -/
theorem advance_branchable (h : plan.Integral) (hs : s.Integral plan) :
    (plan.advance s).Branchable plan := by
  unfold advance
  split
  · trivial
  next node rest nonempty =>
    have others : ∀ n ∈ rest, (n.box plan.problem).Integral plan.problem :=
      fun n hn => hs n (nonempty ▸ List.mem_cons_of_mem _ hn)
    have own : (node.box plan.problem).Integral plan.problem :=
      hs node (nonempty ▸ List.mem_cons_self)
    split
    · exact others
    · simp only
      split
      · trivial
      · apply visit_branchable h ?_ own
        exact others

/-- Going on with an admissible choice. -/
theorem answer_branchable {d : Decision α} (h : d.Branchable plan) {choice : Choice}
    (admissible : choice.Admissible plan d) : (plan.answer d choice).Branchable plan := by
  obtain ⟨valid, split?, split_eq⟩ := admissible
  unfold answer
  rw [valid, split_eq]
  simp only [Bool.not_true, Bool.false_eq_true, if_false]
  split_ifs
  · trivial
  · unfold settle
    simp only
    split
    · trivial
    · split_ifs
      · exact h.search
      · split
        · exact h.focus.offerBranching h.search
        · split
          · exact h.focus.split h.search _
          · exact h.focus.splitByRule h.search

end Plan

/-! ### Decision points and the start -/

namespace Decision.Branchable

variable {d e : Decision α}

/-- Trials leave the node in hand and the open nodes alone. -/
theorem of_samePoint (h : d.Branchable plan) (same : d.SamePoint e) : e.Branchable plan where
  search := by
    rw [Search.Integral, same.stack]
    exact h.search
  focus := same.focus ▸ h.focus
  asked := by
    rw [same.focus, same.point]
    exact h.asked

end Decision.Branchable

/-- A run that leaves every decision to the solver is never refused anything. -/
theorem Plan.drive_passive_branchable (h : plan.Integral) (turns : Nat) {turn : Turn α}
    (branchable : turn.Branchable plan) :
    (plan.drive Handler.passive turns turn ()).1.Branchable plan := by
  induction turns generalizing turn with
  | zero => exact branchable
  | succ turns ih =>
    cases turn with
    | proceed s => exact ih (advance_branchable h branchable)
    | ask d => exact ih (answer_branchable branchable ⟨rfl, none, rfl⟩)
    | ended => exact branchable
    | failed => exact branchable

/-- The plan of a solve has integral bounds if its problem has. -/
theorem Plan.ofSettings_integral {p : Problem α} (box : (Box.ofProblem p).Integral p)
    {settings : Settings α} (moderate : Moderate settings.tolerance) (hooks : Option Hooks)
    (clock : Clock) : (Plan.ofSettings p settings hooks clock).Integral where
  box := box
  moderate := moderate
  values box rows relaxed objective values solved optimal := by
    obtain ⟨result, iterations⟩ := relaxed
    cases optimal
    obtain ⟨uncrossed, moved⟩ := Relaxation.Method.solve_values solved
    refine ⟨fun v hv => .trans ?_ (uncrossed v hv), moved⟩
    exact congrArg (box.isCrossed · v)
      (Relaxation.Method.natural_withSeed_feasibility p settings.tolerance settings.lpSeed).symm

/-- A search starts with the box of the problem. -/
theorem Plan.start_integral (h : plan.Integral) (stats : Statistics α)
    (incumbent : Option (Solution α)) (interrupted : Bool) :
    (Search.start plan stats incumbent interrupted).Integral plan := by
  intro n hn
  unfold Search.start at hn
  simp only [Search.display_stack, Search.note_stack, List.mem_singleton] at hn
  rw [hn]
  exact h.box

end Milp
