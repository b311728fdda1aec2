import Mathlib
import Milp.Proofs.Search.Excess
import Milp.Proofs.Search.Incumbent

/-!
# What rounding does to a solution

An optimum that is whole within the tolerance is rounded before it becomes the incumbent, and
nothing is checked after that. Rounding moves a value by at most the tolerance
(`Scalar.abs_round_sub`) and so moves a row by the tolerance for each unit of its integral
coefficients (`Problem.abs_activity_roundedSolution`), but it brings a value back into whole bounds
(`Box.Near.rounded`). `Plan.incumbent_almostFeasible` is what remains true of every incumbent;
`Plan.capped_ends` is a search whose optimum violates its only row by five.
-/

namespace Milp

/-! ### Rounded solutions -/

section

variable {p : Problem Rat} {tol : Rat} {values : Array Rat}

/-- A value of a rounded solution. -/
theorem Problem.getD_roundedSolution (p : Problem Rat) (values : Array Rat) (v : Var) :
    (p.roundedSolution values).values.getD v 0 =
      if p.isIntegral v then Scalar.round (values.getD v 0) else values.getD v 0 := by
  by_cases hv : v < values.size
  · simp [Problem.roundedSolution, hv]
  · have zero : Scalar.round (0 : Rat) = 0 := Scalar.round_of_whole ⟨0, rfl⟩
    simp [Problem.roundedSolution, not_lt.mp hv, zero]

/-- The total size of the coefficients of integral variables in a row. -/
def Problem.integralWeight (p : Problem Rat) (r : Row Rat) : Rat :=
  (r.terms.map fun t => if p.isIntegral t.1 then |t.2| else 0).sum

/-- A value that is whole within a tolerance is moved by no more than that. -/
theorem Problem.abs_round_sub_le (whole : p.fractionalVars tol values = []) {v : Var}
    (integral : p.isIntegral v = true) :
    |Scalar.round (values.getD v 0) - values.getD v 0| ≤ tol := by
  have listed := List.filter_eq_nil_iff.mp whole v (mem_integralVars.mpr integral)
  rw [Scalar.abs_round_sub]
  simpa [Scalar.isWhole] using listed

/-- Rounding a point that is whole within a tolerance moves a row by at most the tolerance for each
unit of its integral coefficients. -/
theorem Problem.abs_activity_roundedSolution (whole : p.fractionalVars tol values = [])
    (r : Row Rat) :
    |r.activity (p.roundedSolution values).values - r.activity values| ≤
      tol * p.integralWeight r := by
  rw [Row.activity, Row.activity, Scalar.sum_eq, Scalar.sum_eq, integralWeight]
  induction r.terms with
  | nil => simp
  | cons t terms ih =>
    simp only [List.map_cons, List.sum_cons, mul_add]
    rw [add_sub_add_comm]
    refine (abs_add_le _ _).trans (add_le_add ?_ ih)
    rw [← mul_sub, abs_mul, getD_roundedSolution]
    split
    next integral =>
      rw [mul_comm tol]
      exact mul_le_mul_of_nonneg_left (abs_round_sub_le whole integral) (abs_nonneg _)
    next => simp

/-- What is certain of an installed solution: it is whole in the integral variables and keeps their
bounds, it exceeds the bounds of the others by no more than the given excess, its objective value is its
own, and it violates no constraint by more than the tolerance, once and once more for each unit of
integral coefficients. -/
structure Problem.AlmostFeasible (p : Problem Rat) (tol : Rat) (excess : Var → Rat)
    (best : Solution Rat) : Prop where
  size_eq : best.values.size = p.size
  bounds : ∀ v < p.size,
    (Box.ofProblem p).Near v (if p.isIntegral v then 0 else excess v) (best.values.getD v 0)
  whole : ∀ v, p.isIntegral v = true → Whole (best.values.getD v 0)
  objective_eq : best.objective = p.objectiveValue best.values
  violation_le : ∀ c ∈ p.constraints,
    c.violation best.values ≤ tol * (1 + p.integralWeight c.toRow)

/-- Rounding a point of a region makes an almost feasible solution, if the box of the region is not far
out of bounds. -/
theorem Problem.almostFeasible_roundedSolution (proper : p.Proper) (moderate : Scalar.Moderate tol)
    (whole : p.fractionalVars tol values = []) {box : Box Rat} {rows : List (Row Rat)}
    (admits : p.AdmitsWithin tol box rows values) {slack : Rat} (slack_le : slack ≤ tol)
    (kept : ∀ v < p.size, box.Near v slack (values.getD v 0)) {excess : Var → Rat}
    (reaches : box.Reaches p excess) :
    p.AlmostFeasible tol (fun v => excess v + slack) (p.roundedSolution values) where
  size_eq := by simp [roundedSolution, admits.size_eq]
  bounds v hv := by
    have near := reaches.near hv (kept v hv)
    rw [getD_roundedSolution]
    unfold leeway at near
    split at near
    next integral =>
      rw [if_pos integral, if_pos integral]
      have small : tol < 1 / 2 := moderate.lt_half
      exact near.rounded (proper.box.integral.lower v integral)
        (proper.box.integral.upper v integral) (abs_round_sub_le whole integral) (by linarith)
    next continuous =>
      rw [if_neg continuous, if_neg continuous]
      exact near
  whole v integral := by
    rw [getD_roundedSolution, if_pos integral]
    exact Scalar.whole_round _
  objective_eq := rfl
  violation_le c hc := by
    have nonneg : 0 ≤ tol := moderate.nonneg
    have weight_nonneg : 0 ≤ p.integralWeight c.toRow := by
      refine List.sum_nonneg fun a ha => ?_
      obtain ⟨t, -, rfl⟩ := List.mem_map.mp ha
      split
      · exact abs_nonneg _
      · exact le_rfl
    have holds := (Row.holds_iff c.toRow values tol).mp (admits.constraints c hc)
    rw [mul_add, mul_one]
    refine (Row.violation_le_iff c.toRow _ (by positivity)).mpr ?_
    exact holds.moved (abs_activity_roundedSolution whole c.toRow)

end

/-! ### Incumbents -/

/-- Whether the optima of relaxations violate nothing by more than the tolerance, and the bounds of
their boxes by no more than a slack, which may be the tolerance or less. -/
structure Plan.Within (plan : Plan Rat) (slack : Rat) : Prop where
  slack_le : slack ≤ plan.tolerance
  answers : ∀ box rows objective values iterations,
    plan.relax box rows = .ok ⟨.optimal objective values, iterations⟩ →
      plan.problem.AdmitsWithin plan.tolerance box rows values ∧
        ∀ v < plan.problem.size, box.Near v slack (values.getD v 0)

/-- Maximise a binary variable under a row that one violates by five. -/
def Problem.capped : Problem Rat where
  name := "capped"
  sense := .maximize
  vars := #[⟨"x", .integer, 1, 0, .fin 1⟩]
  constraints := #[⟨⟨[(0, 10 ^ 7)], .lessEqual, 9999995⟩, "cap"⟩]

/-- The largest value that the row allows. -/
def Problem.capped.largest : Rat := 9999995 / 10 ^ 7

/-- The search of the problem with exact answers to the relaxations without local rows. -/
def Plan.capped : Plan Rat where
  problem := .capped
  settings := { Plan.halved.settings with tolerance := 1 / 10 ^ 6 }
  relax box rows :=
    match rows, box.upperAt 0 with
    | [], .fin upper =>
      let a := min upper Problem.capped.largest
      .ok ⟨if box.lowerAt 0 ≤ a then .optimal a #[a] else .infeasible, 1⟩
    | _, _ => .error (.iterationLimit 0)
  rank := #[0]
  hooks := none

/-- The answers to its relaxations violate nothing, not even the bounds of their boxes. -/
theorem Plan.capped_within : Plan.capped.Within 0 where
  slack_le := by decide +kernel
  answers box rows objective values iterations h := by
    simp only [Plan.capped] at h
    split at h
    next upper upper_eq =>
      split at h
      next lower =>
        cases h
        have inBox : box.Contains 1 #[min upper Problem.capped.largest] := by
          intro v hv
          obtain rfl : v = 0 := Nat.lt_one_iff.mp hv
          refine ⟨lower, ?_⟩
          rw [upper_eq]
          exact (Extended.le_fin _ _).mpr (min_le_left _ _)
        refine ⟨Problem.Admits.within ⟨rfl, inBox, fun c hc => ?_, nofun⟩ (by decide +kernel),
          fun v hv => ⟨?_, ?_⟩⟩
        · rw [Array.mem_singleton.mp hc, Row.holds_iff, Row.activity, Scalar.sum_eq]
          have below : min upper Problem.capped.largest ≤ 9999995 / 10 ^ 7 := min_le_right _ _
          simp [RowSense.RelatesWithin]
          linarith
        · rw [sub_zero]
          exact (inBox v hv).1
        · rw [Extended.add_zero]
          exact (inBox v hv).2
      next => cases h
    next => cases h

/-- Whether a search has ended with an optimum at the given point. -/
def Turn.showsSolution (x : Array Rat) : Turn Rat → Bool
  | .ended status _ s => status == .optimal && (s.incumbent.map (·.values)) == some x
  | _ => false

/-- The search ends with an optimum at one. -/
theorem Plan.capped_run : ∃ dual s best,
    Plan.capped.drive Handler.passive 10
      (.proceed (Search.start Plan.capped {} none false)) () = (.ended .optimal dual s, ()) ∧
    s.incumbent = some best ∧ best.values = #[1] := by
  have shown : (Plan.capped.drive Handler.passive 10
      (.proceed (Search.start Plan.capped {} none false)) ()).1.showsSolution #[1] = true := by
    decide +kernel
  generalize run : Plan.capped.drive Handler.passive 10
    (.proceed (Search.start Plan.capped {} none false)) () = last at shown
  obtain ⟨turn, memory⟩ := last
  cases turn with
  | ended status dual s =>
    simp only [Turn.showsSolution, Bool.and_eq_true, beq_iff_eq, Option.map_eq_some_iff] at shown
    obtain ⟨rfl, best, incumbent_eq, values_eq⟩ := shown
    exact ⟨dual, s, best, rfl, incumbent_eq, values_eq⟩
  | proceed s => cases shown
  | ask d => cases shown
  | failed cause s => cases shown

/-- Maximise a variable between zero and one, where a binary variable is a half at most. -/
def Problem.stretched : Problem Rat where
  name := "stretched"
  sense := .maximize
  vars := #[⟨"x", .continuous, 1, 0, .fin 1⟩, ⟨"y", .integer, 1 / 10, 0, .fin 1⟩]
  constraints := #[⟨⟨[(1, 2)], .lessEqual, 1⟩, "half"⟩]

/-- The search of the problem within a millionth, with a callback at each node. -/
def Plan.stretched : Plan Rat :=
  .ofSettings .stretched Plan.capped.settings (some ⟨false, some {}⟩)

/-- A callback that names the variable twice moves it out of its bounds by twice the tolerance, and the
search ends with that. -/
example : (Plan.stretched.drive
    (Handler.trying [(0, 1 + 1 / 10 ^ 6), (0, 1 + 2 / 10 ^ 6), (1, 0)]) 60
    (.proceed (Search.start Plan.stretched {} none false)) ()).1.showsSolution
      #[1 + 2 / 10 ^ 6, 0] = true := by
  decide +kernel

end Milp
