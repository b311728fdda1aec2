import Milp.Proofs.Relaxation.Shift

/-!
# Correctness of the simplex method

What the two phases say of a standard form is carried back to the region of a box and local rows.
The basic solution lies in the box as it is (`Builds.lifts_values`), its objective value is the cost
of its columns up to the value of the lower bounds (`Builds.sign_mul_objectiveValue`), and points of
the region and of the form give one another (`Form.Meets.admitsWithin`, `Builds.exists_meets`).
Together this is `Method.solve_correct`: in exact arithmetic every answer is right.
-/

namespace Milp.Relaxation

open Tableau
open Form (columnVar)

variable {p : Problem Rat} {tols : Tolerances Rat} {box : Box Rat} {rowOrder : Array Nat}
  {rows : List (Row Rat)} {f : Form Rat} {t : Tableau Rat f.rows.size f.width}

/-! ### Values of the variables -/

/-- A value within the bounds of a variable stays. -/
theorem clampInto_eq {v : Var} {x : Rat} (lower : box.lowerAt v ≤ x)
    (upper : (Extended.fin (box.lowerAt v)).le (box.upperAt v) = true →
      (Extended.fin x).le (box.upperAt v) = true) : clampInto box v x = x := by
  simp only [clampInto, if_neg (not_lt.mpr lower)]
  split
  next ordered =>
    have below := upper ordered
    cases high : box.upperAt v with
    | fin u =>
      rw [high, Extended.le_fin] at below
      exact if_neg (not_lt.mpr below)
    | _ => rfl
  next => rfl

/-- The values of the basic columns, variable by variable. -/
def shifts (f : Form Rat) (t : Tableau Rat f.rows.size f.width) : List (Var × Rat) :=
  (List.finRange f.rows.size).filterMap fun i =>
    (f.columns[(t.basis.get i).val]?).map fun v => (v, t.rhs.get i)

/-- A value is listed for the variable of a basic column. -/
theorem mem_shifts {v : Var} {a : Rat} :
    (v, a) ∈ shifts f t ↔ ∃ (i : Fin f.rows.size) (k : Fin f.columns.size),
      t.basis.get i = f.column k ∧ columnVar f.columns k = v ∧ t.rhs.get i = a := by
  simp only [shifts, List.mem_filterMap, List.mem_finRange, true_and, Option.map_eq_some_iff,
    Prod.mk.injEq]
  constructor
  · rintro ⟨i, _, column, rfl, rfl⟩
    obtain ⟨hk, same⟩ := Array.getElem?_eq_some_iff.mp column
    exact ⟨i, ⟨_, hk⟩, rfl, same, rfl⟩
  · rintro ⟨i, k, basic, rfl, rfl⟩
    refine ⟨i, columnVar f.columns k, ?_, rfl, rfl⟩
    have position : (t.basis.get i).val = k := congrArg Fin.val basic
    rw [position]
    exact Array.getElem?_eq_getElem k.2

/-- The structural columns of the basic solution. -/
def basicColumns (f : Form Rat) (t : Tableau Rat f.rows.size f.width) (k : Fin f.columns.size) :
    Rat := t.basic (f.column k)

/-- The first value that is listed for a variable is how far the variable lies above its lower
bound. -/
theorem find_shifts (canonical : t.Canonical) (nodup : f.columns.toList.Nodup) (v : Var) :
    (((shifts f t).find? (·.1 = v)).map (·.2)).getD 0 = offset f.columns (basicColumns f t) v := by
  cases found : (shifts f t).find? (·.1 = v) with
  | some s =>
    obtain ⟨v', a⟩ := s
    have own : v' = v := by simpa using List.find?_some found
    obtain ⟨i, k, basic, column, value⟩ := mem_shifts.mp (List.mem_of_find?_eq_some found)
    rw [← own, ← column, offset_column nodup, basicColumns, ← basic, Tableau.basic,
      canonical.spread_basis, value]
    rfl
  | none =>
    have missing := List.find?_eq_none.mp found
    by_cases column : v ∈ f.columns
    · obtain ⟨k, rfl⟩ := exists_column column
      have zero : basicColumns f t k = 0 := spread_eq_zero fun i basic =>
        absurd (decide_eq_true rfl) (missing _ (mem_shifts.mpr ⟨i, k, basic, rfl, rfl⟩))
      rw [offset_column nodup, zero]
      rfl
    · rw [offset_of_not_mem column]
      rfl

/-- A value is moved into the box from where the basic solution has it. -/
theorem getD_values {v : Var} (hv : v < box.lower.size) :
    (f.values box t).getD v 0 = clampInto box v
      (box.lowerAt v + (((shifts f t).find? (·.1 = v)).map (·.2)).getD 0) := by
  simp only [Form.values, shifts, Array.getD_eq_getD_getElem?, Array.getElem?_map,
    Array.getElem?_range, hv, if_true, Option.map_some, Option.getD_some]
  split
  next v' a found => simp only [found, Option.map_some, Option.getD_some]
  next found => simp only [found, Option.map_none, Option.getD_none, add_zero]

/-- The values of a feasible basic solution are those of its columns: none is moved into the box. -/
theorem Builds.lifts_values (h : Builds p tols rowOrder rows box f) (sharp : tols.Sharp)
    (size : box.lower.size = p.size) (canonical : t.Canonical) (meets : f.Meets t.basic) :
    Lifts box f.columns (basicColumns f t) (f.values box t) := by
  have nonneg (k : Fin f.columns.size) : 0 ≤ basicColumns f t k := meets.nonneg (f.column k)
  intro v
  by_cases hv : v < box.lower.size
  · rw [getD_values hv, find_shifts canonical h.free.nodup]
    refine clampInto_eq (le_add_of_nonneg_right (offset_nonneg nonneg v)) fun ordered => ?_
    · by_cases column : v ∈ f.columns
      · obtain ⟨k, rfl⟩ := exists_column column
        rw [offset_column h.free.nodup]
        exact h.below_upper sharp meets.holds k
      · rw [offset_of_not_mem column, add_zero]
        exact ordered
  · have outside : v ∉ f.columns := fun column => hv (size ▸ ((h.free.mem_iff v).mp column).1)
    rw [offset_of_not_mem outside]
    simp [Box.lowerAt, Form.values, not_lt.mp hv]

/-! ### Objective values -/

/-- The objective value of a point is that of the lower bounds and that of its columns. -/
theorem Builds.objectiveValue_eq (h : Builds p tols rowOrder rows box f)
    {z : Fin f.columns.size → Rat} {x : Array Rat} (size_eq : x.size = p.size)
    (lifts : Lifts box f.columns z x) :
    p.objectiveValue x = (∑ v ∈ Finset.range p.size, p.objectiveAt v * box.lowerAt v) +
      ∑ k : Fin f.columns.size, p.objectiveAt (columnVar f.columns k) * z k := by
  have columns : ∑ v ∈ Finset.range p.size, p.objectiveAt v * offset f.columns z v =
      ∑ k : Fin f.columns.size, p.objectiveAt (columnVar f.columns k) * z k := by
    simp only [offset, Finset.mul_sum]
    rw [Finset.sum_comm]
    refine Finset.sum_congr rfl fun k _ => ?_
    have listed : columnVar f.columns k ∈ Finset.range p.size :=
      Finset.mem_range.mpr (h.free.column_lt k)
    simp only [mul_ite, mul_zero]
    rw [Finset.sum_ite_eq, if_pos listed]
  rw [p.objectiveValue_eq size_eq, ← columns, ← Finset.sum_add_distrib]
  show ∑ v ∈ Finset.range p.size, p.objectiveAt v * x.getD v 0 = _
  refine Finset.sum_congr rfl fun v _ => ?_
  rw [lifts v, mul_add]

/-- The objective value of the lower bounds, turned so that smaller is better. -/
def baseCost (p : Problem Rat) (box : Box Rat) : Rat :=
  p.sense.sign * ∑ v ∈ Finset.range p.size, p.objectiveAt v * box.lowerAt v

/-- The objective value of a point, turned so that smaller is better, is that of the lower bounds
and the cost of its columns. -/
theorem Builds.sign_mul_objectiveValue (h : Builds p tols rowOrder rows box f)
    {z : Fin f.columns.size → Rat} {x : Array Rat} (size_eq : x.size = p.size)
    (lifts : Lifts box f.columns z x) :
    p.sense.sign * p.objectiveValue x = baseCost p box + ∑ k, f.columnCost p k * z k := by
  rw [h.objectiveValue_eq size_eq lifts, mul_add, baseCost]
  simp only [Form.columnCost, Finset.mul_sum, mul_assoc]

/-! ### Answers -/

/-- The point of the variables that belongs to one of the columns. -/
def lifted (box : Box Rat) (columns : Array Var) (z : Fin columns.size → Rat) : Array Rat :=
  (Array.range box.lower.size).map fun v => box.lowerAt v + offset columns z v

/-- It is that of the columns. -/
theorem Builds.lifts_lifted (h : Builds p tols rowOrder rows box f) (size : box.lower.size = p.size)
    (z : Fin f.columns.size → Rat) : Lifts box f.columns z (lifted box f.columns z) := by
  intro v
  by_cases hv : v < box.lower.size
  · simp [lifted, hv]
  · have outside : v ∉ f.columns := fun column => hv (size ▸ ((h.free.mem_iff v).mp column).1)
    rw [offset_of_not_mem outside]
    simp [lifted, Box.lowerAt, not_lt.mp hv]

/-- The assumptions on a region: every constraint is listed, and every variable has a lower bound
and an upper bound that is defined. -/
structure Regular (p : Problem Rat) (rowOrder : Array Nat) (box : Box Rat) : Prop where
  complete : ∀ i < p.constraints.size, i ∈ rowOrder
  size : box.lower.size = p.size
  defined : box.Defined p.size

section

variable (h : Builds p tols rowOrder rows box f) (regular : Regular p rowOrder box)
  (sharp : tols.Sharp) (nonneg : 0 ≤ tols.feasibility)
  (uncrossed : ∀ v < p.size, box.isCrossed tols.feasibility v = false)

include h regular sharp nonneg uncrossed

/-- The values of an optimal basic solution violate nothing by more than the tolerance for
feasibility. -/
theorem Form.Answers.admitsWithin {objective : Rat} {values : Array Rat}
    (answer : f.Answers p box (.optimal objective values)) :
    p.AdmitsWithin tols.feasibility box rows values := by
  obtain ⟨t, canonical, meets, rfl, -, -⟩ := answer
  have lifts := h.lifts_values sharp regular.size canonical meets
  refine h.free.admitsWithin regular.complete regular.defined uncrossed nonneg ?_ lifts
    (fun k => meets.nonneg (f.column k)) (h.relatesWithin sharp nonneg meets.holds)
  simp [Form.values, regular.size]

/-- The points of the form are points of the region within the tolerance for feasibility. -/
theorem Form.Meets.admitsWithin {y : Fin f.width → Rat} (meets : f.Meets y) :
    p.AdmitsWithin tols.feasibility box rows
      (lifted box f.columns fun k => y (f.column k)) := by
  refine h.free.admitsWithin regular.complete regular.defined uncrossed nonneg ?_
    (h.lifts_lifted regular.size _) (fun k => meets.nonneg (f.column k))
    (h.relatesWithin sharp nonneg meets.holds)
  simp [lifted, regular.size]

end

/-- A point of the region gives one of the form, if every variable without a column is at its lower
bound. -/
theorem Builds.exists_meets (h : Builds p tols rowOrder rows box f) (size : box.lower.size = p.size)
    {x : Array Rat} (admits : p.Admits box rows x)
    (settled : ∀ v < p.size, box.isFree tols.feasibility v = false → x.getD v 0 = box.lowerAt v) :
    ∃ y, f.Meets y ∧ Lifts box f.columns (fun k => y (f.column k)) x := by
  have lifts := h.free.lifts_of_settled size admits.size_eq settled
  obtain ⟨nonneg, holds⟩ := h.free.holds_of_admits rowOrder lifts admits
  have meets := Form.meets_withSlacks nonneg ((h.holds_iff _).mpr fun r hr _ => holds r hr)
  refine ⟨_, meets, ?_⟩
  simpa only [Form.withSlacks_column] using lifts

/-- Where feasibility is exact, a variable of a point in the box that is not free is at its lower
bound. -/
theorem eq_lower_of_not_isFree {x : Array Rat} {v : Var} (hv : v < p.size)
    (inBox : box.Contains p.size x) (fixed : box.isFree 0 v = false) :
    x.getD v 0 = box.lowerAt v := by
  obtain ⟨lower, upper⟩ := inBox v hv
  refine le_antisymm ?_ lower
  have bounded := mt Box.isFree_iff.mpr (Bool.eq_false_iff.mp fixed)
  rw [not_or, not_exists] at bounded
  cases high : box.upperAt v with
  | fin u =>
    rw [high, Extended.le_fin] at upper
    have narrow : ¬ 0 < u - box.lowerAt v := fun wide => bounded.2 u ⟨high, wide⟩
    linarith
  | posInf => exact absurd high bounded.1
  | negInf =>
    rw [high] at upper
    cases upper
  | undefined =>
    rw [high] at upper
    cases upper

/-- Where feasibility is exact, every point of the region is that of its columns. -/
theorem FreeColumns.lifts_exact {columns : Array Var} (h : FreeColumns p tols box columns)
    (zero : tols.feasibility = 0) (size : box.lower.size = p.size) {x : Array Rat}
    (admits : p.Admits box rows x) :
    Lifts box columns
      (fun k => x.getD (columnVar columns k) 0 - box.lowerAt (columnVar columns k)) x :=
  h.lifts_of_settled size admits.size_eq fun _ hv fixed =>
    eq_lower_of_not_isFree hv admits.inBox (zero ▸ fixed)

/-- Where feasibility is exact, a region has no points if a row without coefficients fails. -/
theorem not_admits_of_fails (sharp : tols.Sharp) (zero : tols.feasibility = 0)
    (size : box.lower.size = p.size) {r : FormRow Rat (Form.freeColumns p tols box).size}
    (hr : r ∈ Form.allRows p rowOrder rows box (Form.freeColumns p tols box))
    (empty : r.isEmpty tols = true) (fails : r.holdsAtZero tols = false) (x : Array Rat) :
    ¬ p.Admits box rows x := by
  intro admits
  have free := freeColumns_free p tols box
  have holds := (free.holds_of_admits rowOrder (free.lifts_exact zero size admits) admits).2 r hr
  rw [FormRow.Holds, activity_of_isEmpty sharp empty] at holds
  rw [(holdsAtZero_iff r).mpr (holds.within zero.ge)] at fails
  cases fails

/-- Where feasibility is exact, an answer for the form is one for the region. -/
theorem Form.Answers.exact (h : Builds p tols rowOrder rows box f)
    (regular : Regular p rowOrder box) (sharp : tols.Sharp) (zero : tols.feasibility = 0)
    (uncrossed : ∀ v < p.size, box.isCrossed tols.feasibility v = false)
    {result : RelaxationResult Rat} (answer : f.Answers p box result) :
    p.Answers box rows result := by
  have point {x : Array Rat} (admits : p.Admits box rows x) :
      ∃ y, f.Meets y ∧ Lifts box f.columns (fun k => y (f.column k)) x :=
    h.exists_meets regular.size admits fun v hv fixed =>
      eq_lower_of_not_isFree hv admits.inBox (zero ▸ fixed)
  rcases result with ⟨objective, values⟩ | _ | _
  · have admits := answer.admitsWithin h regular sharp zero.ge uncrossed
    rw [zero, p.admitsWithin_zero_iff] at admits
    obtain ⟨t, canonical, meets, rfl, rfl, least⟩ := answer
    refine ⟨admits, rfl, fun x hx better => ?_⟩
    obtain ⟨y, meets', lifts'⟩ := point hx
    have cheaper := least y meets'
    rw [Form.sum_phaseTwoCost, Form.sum_phaseTwoCost] at cheaper
    have lifts := h.lifts_values sharp regular.size canonical meets
    rw [Sense.better_iff_sign_mul_lt, h.sign_mul_objectiveValue hx.size_eq lifts',
      h.sign_mul_objectiveValue admits.size_eq lifts, add_lt_add_iff_left] at better
    exact absurd better cheaper.not_gt
  · intro x hx
    obtain ⟨y, meets, -⟩ := point hx
    exact answer y meets
  · intro a
    obtain ⟨y, meets, below⟩ := answer (p.sense.sign * a - baseCost p box)
    have admits := meets.admitsWithin h regular sharp zero.ge uncrossed
    rw [zero, p.admitsWithin_zero_iff] at admits
    refine ⟨_, admits, ?_⟩
    rw [Form.sum_phaseTwoCost] at below
    rw [Sense.better_iff_sign_mul_lt, h.sign_mul_objectiveValue admits.size_eq
      (h.lifts_lifted regular.size _)]
    exact lt_sub_iff_add_lt'.mp below

namespace Method

variable {m : Method Rat}

/-- A region is refused at once because of a box without points or a row without coefficients, or
its standard form is solved. -/
theorem solve_cases (m : Method Rat) (p : Problem Rat) (box : Box Rat) (rows : List (Row Rat)) :
    (m.solve p box rows = .ok ⟨.infeasible, 0⟩ ∧
      ((∃ v < p.size, box.isCrossed m.tolerances.feasibility v = true) ∨
        Form.build? p m.tolerances m.rowOrder rows box = none)) ∨
    ∃ f, Builds p m.tolerances m.rowOrder rows box f ∧
      (∀ v < p.size, box.isCrossed m.tolerances.feasibility v = false) ∧
      m.solve p box rows = m.solveForm p box f := by
  unfold solve
  split
  next crossed =>
    obtain ⟨v, hv, beyond⟩ := List.any_eq_true.mp crossed
    exact .inl ⟨rfl, .inl ⟨v, List.mem_range.mp hv, beyond⟩⟩
  next uncrossed =>
    split
    next none => exact .inl ⟨rfl, .inr none⟩
    next f some =>
      refine .inr ⟨f, builds_of_build? some, fun v hv => ?_, rfl⟩
      refine Bool.eq_false_iff.mpr fun beyond => uncrossed (List.any_eq_true.mpr ?_)
      exact ⟨v, List.mem_range.mpr hv, beyond⟩

/-- A relaxation is left without an answer only when the pivots are used up. -/
theorem solve_error (sharp : m.tolerances.Sharp) (nonneg : 0 ≤ m.tolerances.feasibility)
    {e : RelaxationError} (h : m.solve p box rows = .error e) :
    e = .iterationLimit m.maxIterations := by
  rcases m.solve_cases p box rows with ⟨refused, -⟩ | ⟨f, builds, -, solved⟩
  · rw [refused] at h
    cases h
  · have start := Form.reaches_start builds.isTurned
    exact (solveForm_answers sharp nonneg start p box).1 e (solved ▸ h)

/-- In exact arithmetic the simplex method answers every relaxation correctly, whatever the ranks of
the columns are and in whatever order the rows are taken; its first phase never finds a ray. -/
theorem solve_correct (exact : m.tolerances = ⟨0, 0, 0⟩)
    (order : m.rowOrder.toList.Perm (List.range p.constraints.size))
    (size : box.lower.size = p.size) (defined : box.Defined p.size) (rows : List (Row Rat)) :
    m.solve p box rows ≠ .error .phaseOneUnbounded ∧
      ∀ relaxed, m.solve p box rows = .ok relaxed → p.Answers box rows relaxed.result := by
  have sharp : m.tolerances.Sharp := by
    rw [exact]
    exact ⟨rfl, rfl⟩
  have zero : m.tolerances.feasibility = 0 := by rw [exact]
  have complete (i : Nat) (hi : i < p.constraints.size) : i ∈ m.rowOrder :=
    Array.mem_toList_iff.mp (order.mem_iff.mpr (List.mem_range.mpr hi))
  refine ⟨fun h => absurd (solve_error sharp zero.ge h) nofun, fun relaxed h => ?_⟩
  rcases m.solve_cases p box rows with ⟨refused, cause⟩ | ⟨f, builds, uncrossed, solved⟩
  · rw [refused] at h
    cases h
    intro x admits
    rcases cause with ⟨v, hv, crossed⟩ | none
    · rw [Box.isCrossed_eq_false hv admits.inBox zero.ge] at crossed
      cases crossed
    · obtain ⟨r, hr, empty, fails⟩ := fails_of_build? none
      exact not_admits_of_fails sharp zero size hr empty fails x admits
  · have start := Form.reaches_start builds.isTurned
    have answers := (solveForm_answers sharp zero.ge start p box).2 relaxed (solved ▸ h) (.inl zero)
    exact answers.exact builds ⟨complete, size, defined⟩ sharp zero uncrossed

end Method

end Milp.Relaxation

namespace Milp

deriving instance DecidableEq for RelaxationResult
deriving instance DecidableEq for Relaxed

/-- A problem with constraints of every kind, one of them redundant. -/
def Problem.mixed : Problem Rat where
  name := "mixed"
  sense := .maximize
  vars := #[⟨"x", .continuous, 2, 0, .posInf⟩, ⟨"y", .continuous, 1, 0, .fin 5⟩]
  constraints := #[⟨⟨[(0, 1), (1, 1)], .equal, 4⟩, "total"⟩,
    ⟨⟨[(0, 1), (1, -1)], .greaterEqual, -2⟩, "lead"⟩, ⟨⟨[(0, 2), (1, 2)], .equal, 8⟩, "twice"⟩]

/-- Exact arithmetic with the columns and the rows in another order. -/
def Relaxation.Method.reordered : Relaxation.Method Rat := ⟨⟨0, 0, 0⟩, 100, #[1, 0], #[2, 0, 1]⟩

/-- The answer to the problem with a local row is the right one. -/
theorem Problem.mixed_answered :
    Relaxation.Method.reordered.solve .mixed (Box.ofProblem .mixed) [⟨[(0, 1)], .lessEqual, 3⟩] =
      .ok ⟨.optimal 7 #[3, 1], 3⟩ ∧
    Problem.mixed.Answers (Box.ofProblem .mixed) [⟨[(0, 1)], .lessEqual, 3⟩]
      (.optimal 7 #[3, 1]) := by
  have solved : Relaxation.Method.reordered.solve .mixed (Box.ofProblem .mixed)
      [⟨[(0, 1)], .lessEqual, 3⟩] = .ok ⟨.optimal 7 #[3, 1], 3⟩ := by
    decide +kernel
  have defined : (Box.ofProblem Problem.mixed).Defined Problem.mixed.size := by
    unfold Box.Defined
    decide +kernel
  have size : (Box.ofProblem Problem.mixed).lower.size = Problem.mixed.size := by decide +kernel
  exact ⟨solved, (Relaxation.Method.solve_correct rfl (by decide) size defined _).2 _ solved⟩

end Milp
