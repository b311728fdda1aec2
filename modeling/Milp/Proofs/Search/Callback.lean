import Mathlib.Tactic.SplitIfs
import Milp.Search.Script

/-!
# What a callback can do

A callback sees a decision point and may do two things to it, any number of times: try a partial
assignment and ask the search to stop. `Decision.Reaches` is what that leads to, and a handler is
`Confined` if it does nothing else. Prepared moves are confined (`Script.handler_confined`).

Main statements, one for each of the two operations and then for everything that is reached:

* `Decision.SamePoint` — what no callback touches: the node in hand, the open nodes, the numbering
  and the random engine.
* `Decision.tryAssignment_incumbent` — a trial leaves the incumbent as it was, unless the
  relaxation of a smaller box has a whole optimum that improves on it (`Decision.Accepts`).
-/

namespace Milp

namespace Decision

variable {α : Type}

/-! ### What stays the same -/

/-- Whether two states belong to the same decision point of the same search, whatever trials were
made in between. -/
structure SamePoint (d e : Decision α) : Prop where
  focus : e.focus = d.focus
  point : e.point = d.point
  stack : e.search.stack = d.search.stack
  lastNumber : e.search.lastNumber = d.search.lastNumber
  engine : e.search.engine = d.search.engine

namespace SamePoint

/-- A state belongs to its own decision point. -/
theorem refl (d : Decision α) : SamePoint d d := ⟨rfl, rfl, rfl, rfl, rfl⟩

/-- Belonging to the same decision point is transitive. -/
theorem trans {d e f : Decision α} (hde : SamePoint d e) (hef : SamePoint e f) : SamePoint d f :=
  ⟨hef.focus.trans hde.focus, hef.point.trans hde.point, hef.stack.trans hde.stack,
    hef.lastNumber.trans hde.lastNumber, hef.engine.trans hde.engine⟩

end SamePoint

variable [Scalar α] {plan : Plan α}

/-- Whether callbacks can lead from one state of a decision point to another. -/
inductive Reaches (plan : Plan α) (d : Decision α) : Decision α → Prop
  | refl : Reaches plan d d
  | trial {e : Decision α} (assignment : List (Var × α)) :
      Reaches plan d e → Reaches plan d (e.tryAssignment plan assignment).2
  | interrupt {e : Decision α} : Reaches plan d e → Reaches plan d e.interrupt

/-- What is reached from what is reached is reached. -/
theorem Reaches.trans {d e f : Decision α} (hde : Reaches plan d e) (hef : Reaches plan e f) :
    Reaches plan d f := by
  induction hef with
  | refl => exact hde
  | trial assignment _ ih => exact ih.trial assignment
  | interrupt _ ih => exact ih.interrupt

/-- Judging a trial keeps the decision point. -/
theorem samePoint_judge (plan : Plan α) (d : Decision α) (result : RelaxationResult α) :
    SamePoint d (d.judge plan result).2 := by
  cases result with
  | optimal objective values =>
    simp only [judge]
    split_ifs
    · exact SamePoint.refl d
    · exact SamePoint.refl d
    · exact ⟨rfl, rfl, rfl, rfl, rfl⟩
  | infeasible => exact SamePoint.refl d
  | unbounded => exact SamePoint.refl d

/-- Completing an assignment keeps the decision point. -/
theorem samePoint_probe (plan : Plan α) (d : Decision α) (assignment : List (Var × α)) :
    SamePoint d (d.probe plan assignment).2 := by
  unfold probe
  split
  · exact SamePoint.refl d
  · split
    · exact SamePoint.refl d
    next relaxed _ =>
      have counted : SamePoint d { d with
          search := { d.search with stats := d.search.stats.onRelaxation relaxed.iterations } } :=
        ⟨rfl, rfl, rfl, rfl, rfl⟩
      exact counted.trans (samePoint_judge plan _ relaxed.result)

/-- A trial keeps the decision point. -/
theorem samePoint_tryAssignment (plan : Plan α) (d : Decision α) (assignment : List (Var × α)) :
    SamePoint d (d.tryAssignment plan assignment).2 := by
  have counted : SamePoint d { d with search := { d.search with stats := d.search.stats.onTrial } } :=
    ⟨rfl, rfl, rfl, rfl, rfl⟩
  have probed := counted.trans (samePoint_probe plan _ assignment)
  unfold tryAssignment
  split
  · exact SamePoint.refl d
  · simp only
    split
    next h => rw [h] at probed; exact probed
    next h =>
      rw [h] at probed
      exact probed.trans ⟨rfl, rfl, rfl, rfl, rfl⟩

/-- Callbacks keep the decision point. -/
theorem Reaches.samePoint {d e : Decision α} (h : Reaches plan d e) : SamePoint d e := by
  induction h with
  | refl => exact SamePoint.refl d
  | trial assignment _ ih => exact ih.trans (samePoint_tryAssignment plan _ assignment)
  | interrupt _ ih => exact ih.trans ⟨rfl, rfl, rfl, rfl, rfl⟩

/-! ### What becomes of the incumbent -/

/-- Whether a trial of an assignment finds a whole optimum that improves on the incumbent. -/
def Accepts (plan : Plan α) (d : Decision α) (assignment : List (Var × α)) (values : Array α) :
    Prop :=
  ∃ box objective iterations, fixAll plan assignment d.focus.box = some box ∧
    plan.relax box d.focus.node.rows = .ok ⟨.optimal objective values, iterations⟩ ∧
    plan.problem.fractionalVars plan.tolerance values = [] ∧
    plan.problem.canImprove (Scalar.extend objective) d.search.incumbent plan.tolerance = true

/-- Completing an assignment leaves the incumbent as it was, or makes the optimum that it accepts
the incumbent. -/
theorem probe_incumbent (plan : Plan α) (d : Decision α) (assignment : List (Var × α)) :
    (d.probe plan assignment).2.search.incumbent = d.search.incumbent ∨
      ∃ values, Accepts plan d assignment values ∧
        (d.probe plan assignment).2.search.incumbent =
          some (plan.problem.roundedSolution values) := by
  unfold probe
  split
  · exact .inl rfl
  next box fixed =>
    split
    · exact .inl rfl
    next relaxed answered =>
      obtain ⟨result, iterations⟩ := relaxed
      cases result with
      | infeasible => exact .inl rfl
      | unbounded => exact .inl rfl
      | optimal objective values =>
        simp only [judge]
        split_ifs with fractional improves
        · exact .inl rfl
        · exact .inl rfl
        · refine .inr ⟨values, ⟨box, objective, iterations, fixed, answered, ?_, ?_⟩, rfl⟩
          · simpa using fractional
          · simpa using improves

/-- A trial leaves the incumbent as it was, or makes the optimum that it accepts the incumbent. -/
theorem tryAssignment_incumbent (plan : Plan α) (d : Decision α) (assignment : List (Var × α)) :
    (d.tryAssignment plan assignment).2.search.incumbent = d.search.incumbent ∨
      ∃ values, Accepts plan d assignment values ∧
        (d.tryAssignment plan assignment).2.search.incumbent =
          some (plan.problem.roundedSolution values) := by
  unfold tryAssignment
  split
  · exact .inl rfl
  · have probed := probe_incumbent plan
      { d with search := { d.search with stats := d.search.stats.onTrial } } assignment
    simp only
    split
    next h => rw [h] at probed; exact probed
    next h => rw [h] at probed; exact probed

end Decision

/-! ### Handlers -/

namespace Handler

variable {α κ : Type} [Scalar α]

/-- Whether a handler does nothing to a decision point but try assignments and ask the search to
stop. What it chooses and what it remembers is its own affair. -/
def Confined (handler : Handler α κ) : Prop :=
  ∀ plan d k, Decision.Reaches plan d (handler plan d k).2.1

/-- The handler that leaves every decision to the solver is confined. -/
theorem passive_confined : (Handler.passive : Handler α κ).Confined := fun _ _ _ => .refl

end Handler

/-! ### Prepared moves -/

section Moves

variable {α : Type} [Scalar α] (plan : Plan α)

/-- Effects are trials and requests to stop. -/
theorem Move.carryOut_reaches (effects : List (Effect α)) (d : Decision α) :
    Decision.Reaches plan d (Move.carryOut plan effects d).2.2 := by
  induction effects generalizing d with
  | nil => exact .refl
  | cons effect rest ih =>
    cases effect with
    | attempt assignment caught =>
      have tried : Decision.Reaches plan d (d.tryAssignment plan assignment).2 := Decision.Reaches.refl.trial _
      unfold Move.carryOut
      split
      next h =>
        rw [h] at tried
        exact tried.trans (ih _)
      next h =>
        rw [h] at tried
        split
        · exact tried.trans (ih _)
        · exact tried
    | interrupt =>
      have stopped : Decision.Reaches plan d d.interrupt := Decision.Reaches.refl.interrupt
      exact stopped.trans (ih _)
    | fail cause => exact .refl
    | crash cause => exact .refl

/-- A move does what its effects do. -/
theorem Move.play_reaches (m : Move α) (d : Decision α) : Decision.Reaches plan d (m.play plan d).2.1 := by
  have effects := Move.carryOut_reaches plan m.effects d
  unfold Move.play
  simp only
  split <;> exact effects

/-- Taking a decision from a script does what its moves do. -/
theorem Script.decide_reaches (tail : Move α) (moves : List (Move α)) (d : Decision α)
    (records : Array (MoveRecord α)) :
    Decision.Reaches plan d (Script.decide plan tail moves d records).2.1 := by
  induction moves generalizing d records with
  | nil =>
    have played := Move.play_reaches plan tail d
    unfold Script.decide
    simp only
    split <;> exact played
  | cons m rest ih =>
    have played := Move.play_reaches plan m d
    unfold Script.decide
    simp only
    split
    · exact played
    · exact played.trans (ih _ _)
    · exact played

/-- Scripts are confined. -/
theorem Script.handler_confined : (Script.handler : Handler α (Script α)).Confined :=
  fun plan d script => Script.decide_reaches plan script.tail script.moves d script.records

end Moves
end Milp
