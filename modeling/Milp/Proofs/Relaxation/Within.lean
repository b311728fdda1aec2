import Milp.Proofs.Relaxation.Correctness
import Milp.Proofs.Relaxation.Drift
import Milp.Proofs.Relaxation.Values

/-!
# Optimal answers within the tolerances

The values of an optimal answer always keep to the bounds, since they are moved into the box in the
end. What they violate of a row is bounded by what can be read off the last tableau
(`Form.allowance`): a row with coefficients holds but for the residue of the basic solution and for
what pivots have clipped, and a row that was left out for its small coefficients holds within the
tolerance for feasibility but for these coefficients. There is no bound on the residue itself. The
first phase may leave some of it in artificial columns, and the pivots that drive these out may blow it
up: `Problem.residual_violated` is a region without a point where it leaves less than a millionth, and
the answer violates a row by half a unit.

Where the first phase leaves nothing and no right-hand side is negative in the end, there is no residue
(`Rests.residue_eq_zero`). A method without tolerances of its own leaves nothing if the region has a
point at all.
-/

namespace Milp.Relaxation

open Tableau
open Form (columnVar columnVar_mem)

variable {m : Method Rat} {p : Problem Rat} {tols : Tolerances Rat} {box : Box Rat}
  {rowOrder : Array Nat} {rows : List (Row Rat)} {f : Form Rat}
  {t : Tableau Rat f.rows.size f.width}

/-! ### Bounds -/

/-- A value that is moved into the bounds of a variable stays where it is, or goes to the bound that it
is beyond. -/
theorem clampInto_cases {v : Var} (x : Rat)
    (ordered : (Extended.fin (box.lowerAt v)).le (box.upperAt v) = true) :
    (clampInto box v x = x ∧ box.lowerAt v ≤ x ∧ (Extended.fin x).le (box.upperAt v) = true) ∨
      (clampInto box v x = box.lowerAt v ∧ x < box.lowerAt v) ∨
        ∃ u, box.upperAt v = .fin u ∧ clampInto box v x = u ∧ u < x := by
  have order : (Scalar.extend (box.lowerAt v)).le (box.upperAt v) = true := ordered
  simp only [clampInto, if_pos order]
  by_cases below : x < box.lowerAt v
  · refine .inr (.inl ⟨?_, below⟩)
    rw [if_pos below]
    cases high : box.upperAt v with
    | fin u =>
      rw [high, Extended.le_fin] at ordered
      exact if_neg ordered.not_gt
    | _ => rfl
  · rw [if_neg below]
    cases high : box.upperAt v with
    | fin u =>
      rcases lt_or_ge u x with above | within
      · exact .inr (.inr ⟨u, rfl, if_pos above, above⟩)
      · exact .inl ⟨if_neg within.not_gt, not_lt.mp below, (Extended.le_fin x u).mpr within⟩
    | posInf => exact .inl ⟨rfl, not_lt.mp below, rfl⟩
    | negInf =>
      rw [high] at ordered
      cases ordered
    | undefined =>
      rw [high] at ordered
      cases ordered

/-- A value that is moved into the bounds of a variable lies between them, unless they exclude each
other. -/
theorem clampInto_mem {v : Var} (x : Rat)
    (ordered : (Extended.fin (box.lowerAt v)).le (box.upperAt v) = true) :
    box.lowerAt v ≤ clampInto box v x ∧
      (Extended.fin (clampInto box v x)).le (box.upperAt v) = true := by
  rcases clampInto_cases x ordered with ⟨same, lower, upper⟩ | ⟨same, -⟩ | ⟨u, high, same, -⟩
  · rw [same]
    exact ⟨lower, upper⟩
  · rw [same]
    exact ⟨le_rfl, ordered⟩
  · rw [same, high, Extended.le_fin]
    rw [high, Extended.le_fin] at ordered
    exact ⟨ordered, le_rfl⟩

/-- Moving a value into the bounds does not take it away from a value that is nearly between them. -/
theorem abs_clampInto_sub_le {v : Var} {x y tol : Rat} (nonneg : 0 ≤ tol)
    (ordered : (Extended.fin (box.lowerAt v)).le (box.upperAt v) = true)
    (lower : box.lowerAt v - tol ≤ y) (upper : ∀ u, box.upperAt v = .fin u → y ≤ u + tol) :
    |clampInto box v x - y| ≤ |x - y| + tol := by
  have above := le_abs_self (x - y)
  have below := neg_abs_le (x - y)
  rw [abs_le]
  rcases clampInto_cases x ordered with ⟨same, -, -⟩ | ⟨same, low⟩ | ⟨u, high, same, beyond⟩
  · rw [same]
    constructor <;> linarith
  · rw [same]
    constructor <;> linarith
  · rw [same]
    have near := upper u high
    constructor <;> linarith

/-- The bounds of a variable with a column do not exclude each other. -/
theorem Builds.ordered_column (h : Builds p tols rowOrder rows box f) (nonneg : 0 ≤ tols.feasibility)
    (k : Fin f.columns.size) :
    (Extended.fin (box.lowerAt (columnVar f.columns k))).le
      (box.upperAt (columnVar f.columns k)) = true := by
  rcases Box.isFree_iff.mp ((h.free.mem_iff _).mp (columnVar_mem k)).2
    with upper | ⟨u, upper, wide⟩
  · rw [upper]
    rfl
  · rw [upper, Extended.le_fin]
    linarith

/-- A variable whose bounds exclude each other has no column and stays at its lower bound. -/
theorem Builds.getD_values_of_crossed (h : Builds p tols rowOrder rows box f)
    (nonneg : 0 ≤ tols.feasibility) {v : Var} (hv : v < box.lower.size)
    (crossed : ¬ (Extended.fin (box.lowerAt v)).le (box.upperAt v) = true) :
    (f.values box t).getD v 0 = box.lowerAt v := by
  have none : (shifts f t).find? (·.1 = v) = none := by
    refine List.find?_eq_none.mpr fun s listed own => crossed ?_
    obtain ⟨v', a⟩ := s
    obtain ⟨i, k, -, rfl, -⟩ := mem_shifts.mp listed
    obtain rfl : columnVar f.columns k = v := of_decide_eq_true own
    exact h.ordered_column nonneg k
  rw [getD_values hv, none, Option.map_none, Option.getD_none, add_zero]
  exact if_neg crossed

/-- The values of any tableau keep to the bounds within the tolerance for feasibility. -/
theorem Builds.values_inBox (h : Builds p tols rowOrder rows box f) (nonneg : 0 ≤ tols.feasibility)
    (size : box.lower.size = p.size) (defined : box.Defined p.size)
    (uncrossed : ∀ v < p.size, box.isCrossed tols.feasibility v = false) {v : Var}
    (hv : v < p.size) :
    box.lowerAt v ≤ (f.values box t).getD v 0 ∧
      (Extended.fin ((f.values box t).getD v 0)).le ((box.upperAt v).add (.fin tols.feasibility)) =
        true := by
  have inside : v < box.lower.size := size ▸ hv
  by_cases ordered : (Extended.fin (box.lowerAt v)).le (box.upperAt v) = true
  · obtain ⟨lower, upper⟩ := clampInto_mem
      (box.lowerAt v + (((shifts f t).find? (·.1 = v)).map (·.2)).getD 0) ordered
    rw [getD_values inside]
    exact ⟨lower, Extended.le_add_fin upper nonneg⟩
  · rw [h.getD_values_of_crossed nonneg inside ordered]
    exact ⟨le_rfl, Box.lower_le_of_not_isCrossed (defined v hv) (uncrossed v hv)⟩

/-! ### Rows at points of the first tableau -/

/-- A point that solves the first tableau violates the rows by no more than its residue. -/
theorem Form.holdsWithin_of_solves {y : Fin f.width → Rat} (solves : f.tableau.Solves y) :
    f.HoldsWithin (residue f.artificialStart y) fun k => y (f.column k) := by
  intro i
  have row := (sum_entry_eq y i).symm.trans (solves i)
  rw [rhs_tableau, slackShare, artificialShare] at row
  have last : f.artificialStart ≤ f.artificialIndex i := Nat.le_add_right _ _
  cases sense : f.rows[i].sense with
  | lessEqual =>
    have slack : f.rows[i].hasSlack = true := by
      rw [FormRow.hasSlack, sense]
      rfl
    have artificial : ¬ f.rows[i].hasArtificial = true := by
      rw [FormRow.hasArtificial, sense]
      exact Bool.false_ne_true
    have sign : slackSign RowSense.lessEqual = (1 : Rat) := rfl
    rw [dif_pos slack, dif_neg artificial, sense, sign, one_mul] at row
    have low : -residue f.artificialStart y ≤ y (f.slackColumn i slack) :=
      neg_residue_le (slackIndex_lt slack)
    show f.rows[i].activity _ ≤ f.rows[i].rhs + residue f.artificialStart y
    linarith
  | greaterEqual =>
    have slack : f.rows[i].hasSlack = true := by
      rw [FormRow.hasSlack, sense]
      rfl
    have artificial : f.rows[i].hasArtificial = true := by
      rw [FormRow.hasArtificial, sense]
      rfl
    rw [dif_pos slack, dif_pos artificial, sense, slackSign] at row
    have both : |y (f.artificialColumn i artificial)| - y (f.slackColumn i slack) ≤
        residue f.artificialStart y := abs_sub_le_residue (slackIndex_lt slack) last
    have least := le_abs_self (y (f.artificialColumn i artificial))
    show f.rows[i].rhs - residue f.artificialStart y ≤ f.rows[i].activity _
    linarith
  | equal =>
    have slack : ¬ f.rows[i].hasSlack = true := by
      rw [FormRow.hasSlack, sense]
      exact Bool.false_ne_true
    have artificial : f.rows[i].hasArtificial = true := by
      rw [FormRow.hasArtificial, sense]
      rfl
    rw [dif_neg slack, dif_pos artificial, add_zero] at row
    have small : |y (f.artificialColumn i artificial)| ≤ residue f.artificialStart y :=
      abs_le_residue last
    show |f.rows[i].activity _ - f.rows[i].rhs| ≤ residue f.artificialStart y
    rwa [← row, sub_add_cancel_left, abs_neg]

/-- It violates the rows with coefficients that the form is made of by no more. -/
theorem Builds.relatesWithin_of_solves (h : Builds p tols rowOrder rows box f)
    {y : Fin f.width → Rat} (solves : f.tableau.Solves y) {r : FormRow Rat f.columns.size}
    (listed : r ∈ Form.allRows p rowOrder rows box f.columns) (kept : r.isEmpty tols = false) :
    r.sense.RelatesWithin (residue f.artificialStart y) (r.activity fun k => y (f.column k))
      r.rhs := by
  have turned : r.turned ∈ f.rows.toList := by
    rw [h.rows_eq]
    exact List.mem_map_of_mem (List.mem_filter.mpr ⟨listed, by rw [kept]; rfl⟩)
  obtain ⟨i, hi, same⟩ := List.mem_iff_getElem.mp turned
  have row := Form.holdsWithin_of_solves solves ⟨i, hi⟩
  have same' : f.rows[i] = r.turned := same
  simp only [Fin.getElem_fin, same'] at row
  exact (r.relatesWithin_turned _ _).mp row

/-! ### Rows at the values -/

namespace FormRow

variable {n : Nat}

/-- The size of the coefficients of a row. -/
def weight (r : FormRow Rat n) : Rat := ∑ k : Fin n, |r.coefficients.get k|

/-- The weight of a row is not negative. -/
theorem weight_nonneg (r : FormRow Rat n) : 0 ≤ r.weight :=
  Finset.sum_nonneg fun _ _ => abs_nonneg _

/-- The left-hand side moves by no more than the point, for each unit of the weight. -/
theorem abs_activity_sub_le (r : FormRow Rat n) {x y : Fin n → Rat} {a : Rat}
    (near : ∀ k, |x k - y k| ≤ a) : |r.activity x - r.activity y| ≤ r.weight * a := by
  rw [activity, activity, weight, ← Finset.sum_sub_distrib, Finset.sum_mul]
  refine (Finset.abs_sum_le_sum_abs _ _).trans (Finset.sum_le_sum fun k _ => ?_)
  rw [← mul_sub, abs_mul]
  exact mul_le_mul_of_nonneg_left (near k) (abs_nonneg _)

/-- The most that a row can add up to at a point without negative values. -/
def reach (r : FormRow Rat n) (x : Fin n → Rat) : Rat := ∑ k : Fin n, |r.coefficients.get k| * x k

/-- The left-hand side is no larger than that. -/
theorem abs_activity_le_reach (r : FormRow Rat n) {x : Fin n → Rat} (nonneg : ∀ k, 0 ≤ x k) :
    |r.activity x| ≤ r.reach x := by
  refine (Finset.abs_sum_le_sum_abs _ _).trans (Finset.sum_le_sum fun k _ => ?_)
  rw [abs_mul, abs_of_nonneg (nonneg k)]

end FormRow

/-- How far the variables of the columns lie above their lower bounds at the values of a tableau. -/
def Form.heights (f : Form Rat) (box : Box Rat) (t : Tableau Rat f.rows.size f.width)
    (k : Fin f.columns.size) : Rat :=
  (f.values box t).getD (columnVar f.columns k) 0 - box.lowerAt (columnVar f.columns k)

/-- What a row may be violated by at the values of a tableau that comes after a number of pivots. A row
without coefficients that may be pivots was left out of the form, as it holds within the tolerance for
feasibility where all columns are zero; any other row is violated by the residue of the tableau and by
what the pivots have clipped. -/
def Form.allowance (f : Form Rat) (tols : Tolerances Rat) (box : Box Rat)
    (t : Tableau Rat f.rows.size f.width) (pivots : Nat) (r : Row Rat) : Rat :=
  let shifted := shift box f.columns r
  if shifted.isEmpty tols then tols.feasibility + shifted.reach (f.heights box t)
  else (1 + shifted.weight) *
    (residue f.artificialStart t.basic + 2 * (pivots * (f.rows.size * tols.ratio)))

namespace Builds

variable (h : Builds p tols rowOrder rows box f)

include h

/-- The values of any tableau are those of the columns as far as they lie above the lower bounds. -/
theorem lifts_heights (size : box.lower.size = p.size) :
    Lifts box f.columns (f.heights box t) (f.values box t) := by
  refine h.free.lifts_of_settled size (by simp [Form.values, size]) fun v hv fixed => ?_
  obtain ⟨x, value_eq, rests⟩ := f.getD_values t (size ▸ hv : v < box.lower.size)
  have absent : v ∉ f.columns := fun listed => by
    rw [((h.free.mem_iff v).mp listed).2] at fixed
    cases fixed
  rw [value_eq, rests absent]
  exact clampInto_eq le_rfl id

/-- The value of a column's variable is where its column has it, moved into the box. -/
theorem getD_values_column (size : box.lower.size = p.size) (canonical : t.Canonical)
    (k : Fin f.columns.size) :
    (f.values box t).getD (columnVar f.columns k) 0 =
      clampInto box (columnVar f.columns k)
        (box.lowerAt (columnVar f.columns k) + t.basic (f.column k)) := by
  have inside : columnVar f.columns k < box.lower.size := size ▸ h.free.column_lt k
  rw [getD_values inside, find_shifts canonical h.free.nodup, offset_column h.free.nodup]
  rfl

/-- No height is negative. -/
theorem heights_nonneg (nonneg : 0 ≤ tols.feasibility) (size : box.lower.size = p.size)
    (canonical : t.Canonical) (k : Fin f.columns.size) : 0 ≤ f.heights box t k := by
  rw [Form.heights, h.getD_values_column size canonical, sub_nonneg]
  exact (clampInto_mem _ (h.ordered_column nonneg k)).1

/-- The heights are as near to a point of the first tableau as that is to the basic solution, but for its
residue: moving the values into the box takes no more than the residue away. -/
theorem abs_heights_sub_le (nonneg : 0 ≤ tols.feasibility) (small : tols.pivot < 1)
    (size : box.lower.size = p.size) (canonical : t.Canonical) {y : Fin f.width → Rat}
    (solves : f.tableau.Solves y) (k : Fin f.columns.size) :
    |f.heights box t k - y (f.column k)| ≤
      |t.basic (f.column k) - y (f.column k)| + residue f.artificialStart y := by
  have below : (f.column k).val < f.artificialStart := k.2.trans_le (Nat.le_add_right _ _)
  have lower : -residue f.artificialStart y ≤ y (f.column k) := neg_residue_le below
  have near := abs_clampInto_sub_le (x := box.lowerAt (columnVar f.columns k) + t.basic (f.column k))
    (y := box.lowerAt (columnVar f.columns k) + y (f.column k)) (residue_nonneg f.artificialStart y)
    (h.ordered_column nonneg k) (by linarith) fun u high => by
      have row := h.relatesWithin_of_solves solves
        ((forall_allRows_iff.mp fun _ listed => listed).2.2 k _
          (upperRow?_eq_some_iff.mpr ⟨u, high, rfl⟩)) (isEmpty_upperRow small k u)
      rw [activity_upperRow] at row
      have bound : y (f.column k) ≤
        u - box.lowerAt (columnVar f.columns k) + residue f.artificialStart y := row
      linarith
  rwa [← h.getD_values_column size canonical, add_sub_add_left_eq_sub, ← sub_sub] at near

/-- A row is violated by no more than the shifted row is at the heights. -/
theorem violation_le_of_heights (size : box.lower.size = p.size) {r : Row Rat} {tol : Rat}
    (nonneg : 0 ≤ tol) (within : (Form.shift box f.columns r).sense.RelatesWithin tol
      ((Form.shift box f.columns r).activity (f.heights box t)) (Form.shift box f.columns r).rhs) :
    r.violation (f.values box t) ≤ tol := by
  have lifts := h.lifts_heights (t := t) size
  exact (r.violation_le_iff _ nonneg).mpr
    ((r.holds_iff _ tol).mp ((lifts.holds_iff r tol).mpr within))

/-- Every row is violated by no more than its allowance. -/
theorem violation_le (nonneg : 0 ≤ tols.feasibility) (slight : tols.Slight)
    (size : box.lower.size = p.size) {pivots : Nat} (drifts : Drifts tols pivots f.tableau t)
    {r : Row Rat}
    (listed : Form.shift box f.columns r ∈ Form.allRows p rowOrder rows box f.columns) :
    r.violation (f.values box t) ≤ f.allowance tols box t pivots r := by
  unfold Form.allowance
  by_cases empty : (Form.shift box f.columns r).isEmpty tols = true
  · simp only [if_pos empty]
    have reach := (Form.shift box f.columns r).abs_activity_le_reach
      (h.heights_nonneg nonneg size drifts.canonical)
    refine h.violation_le_of_heights size (add_nonneg nonneg ((abs_nonneg _).trans reach)) ?_
    refine ((holdsAtZero_iff _).mp (h.empty _ listed empty)).moved ?_
    rwa [sub_zero]
  · simp only [if_neg empty]
    obtain ⟨y, solves, close, residue_le⟩ := drifts.exists_near
    have rest_le := residue_le f.artificialStart
    have drift_nonneg : 0 ≤ (pivots : Rat) * (f.rows.size * tols.ratio) := by
      have := slight.ratio_nonneg
      positivity
    generalize (pivots : Rat) * (f.rows.size * tols.ratio) = drift at *
    have near (k : Fin f.columns.size) :
        |f.heights box t k - y (f.column k)| ≤ drift + residue f.artificialStart y :=
      (h.abs_heights_sub_le nonneg slight.pivot_lt_one size drifts.canonical solves k).trans
        (add_le_add_left (close _) _)
    have held := (h.relatesWithin_of_solves solves listed (Bool.eq_false_iff.mpr empty)).moved
      ((Form.shift box f.columns r).abs_activity_sub_le near)
    have weight_nonneg := (Form.shift box f.columns r).weight_nonneg
    have rest_nonneg := residue_nonneg f.artificialStart y
    refine (h.violation_le_of_heights size (by positivity) held).trans ?_
    calc _ ≤ residue f.artificialStart t.basic + drift + (Form.shift box f.columns r).weight *
            (drift + (residue f.artificialStart t.basic + drift)) := by gcongr
      _ ≤ (1 + (Form.shift box f.columns r).weight) *
            (residue f.artificialStart t.basic + 2 * drift) := by linarith

end Builds

/-! ### Optimal answers -/

namespace Method

variable {s : Tableau Rat f.rows.size f.width} {left rest : Nat}

/-- The last tableau has drifted by the pivots of the two phases and by one for each row where artificial
columns were driven out. -/
theorem Finishes.drifts (h : m.Finishes p box rows f s t left rest) (slight : m.tolerances.Slight) :
    Drifts m.tolerances (m.maxIterations - rest + f.rows.size) f.tableau t := by
  obtain ⟨left_le, first⟩ := phaseOne_drifts slight f.canonical_tableau h.first
  obtain ⟨rest_le, second⟩ := first.run slight h.second
  exact second.mono slight.ratio_nonneg (by omega)

/-- A method without tolerances of its own keeps to the rows within the tolerance for feasibility, if the
standard form has a point. -/
theorem admitsWithin_of_sharp (sharp : m.tolerances.Sharp) (nonneg : 0 ≤ m.tolerances.feasibility)
    (regular : Regular p m.rowOrder box) {objective : Rat} {values : Array Rat} {iterations : Nat}
    (h : m.solve p box rows = .ok ⟨.optimal objective values, iterations⟩) {x : Array Rat}
    (admits : p.Admits box rows x) (settled : ∀ v < p.size,
      box.isFree m.tolerances.feasibility v = false → x.getD v 0 = box.lowerAt v) :
    p.AdmitsWithin m.tolerances.feasibility box rows values := by
  rcases m.solve_cases p box rows with ⟨refused, -⟩ | ⟨f, builds, uncrossed, solved⟩
  · rw [refused] at h
    cases h
  · rw [solved] at h
    obtain ⟨y, meets, -⟩ := builds.exists_meets regular.size admits settled
    have start := Form.reaches_start builds.isTurned
    have answers := (solveForm_answers sharp nonneg start p box).2 _ h (.inr ⟨y, meets⟩)
    exact answers.admitsWithin builds regular sharp nonneg uncrossed

/-- An optimal answer keeps to the bounds within the tolerance for feasibility, whatever the tolerances
are. For slight tolerances every row is violated by no more than its allowance at the last tableau; and
if the first phase leaves artificial columns only in rows that have the value zero and nothing to give,
and no right-hand side is negative in the end, then that tableau has no residue. A method without
tolerances of its own keeps to the rows within the tolerance for feasibility if some point of the region
has every variable that is fixed within that tolerance at its lower bound. -/
theorem solve_within (nonneg : 0 ≤ m.tolerances.feasibility)
    (regular : Regular p m.rowOrder box) {objective : Rat} {values : Array Rat} {iterations : Nat}
    (h : m.solve p box rows = .ok ⟨.optimal objective values, iterations⟩) :
    (∀ v < p.size, box.lowerAt v ≤ values.getD v 0 ∧ (Extended.fin (values.getD v 0)).le
      ((box.upperAt v).add (.fin m.tolerances.feasibility)) = true) ∧
    (m.tolerances.Slight → ∃ f s t left rest, m.Finishes p box rows f s t left rest ∧
      values = f.values box t ∧
      (∀ c ∈ p.constraints, c.violation values ≤
        f.allowance m.tolerances box t (iterations + f.rows.size) c.toRow) ∧
      (∀ r ∈ rows, r.violation values ≤
        f.allowance m.tolerances box t (iterations + f.rows.size) r) ∧
      (Rests f.artificialStart s → (∀ i : Fin f.rows.size, 0 ≤ t.rhs.get i) →
        residue f.artificialStart t.basic = 0)) ∧
    (m.tolerances.Sharp → (∃ x, p.Admits box rows x ∧ ∀ v < p.size,
      box.isFree m.tolerances.feasibility v = false → x.getD v 0 = box.lowerAt v) →
        p.AdmitsWithin m.tolerances.feasibility box rows values) := by
  obtain ⟨crossed, f, s, t, left, rest, finishes, rfl, rfl, -⟩ := solve_optimal h
  have builds := builds_of_build? finishes.built
  refine ⟨fun v hv => ?_, fun slight => ?_, fun sharp ⟨x, admits, settled⟩ =>
    admitsWithin_of_sharp sharp nonneg regular h admits settled⟩
  · have uncrossed (v : Var) (hv : v < p.size) : box.isCrossed m.tolerances.feasibility v = false :=
      Bool.eq_false_iff.mpr (List.any_eq_false.mp crossed v (List.mem_range.mpr hv))
    exact builds.values_inBox nonneg regular.size regular.defined uncrossed hv
  · have drifts := finishes.drifts slight
    obtain ⟨constraints, locals, -⟩ := forall_allRows_iff.mp fun _ listed => listed
    refine ⟨f, s, t, left, rest, finishes, rfl, fun c hc => ?_, fun r hr => ?_, fun rests final => ?_⟩
    · obtain ⟨i, hi, rfl⟩ := Array.mem_iff_getElem.mp hc
      exact builds.violation_le nonneg slight regular.size drifts
        (constraints i (regular.complete i hi) _ (Array.getElem?_eq_getElem hi))
    · exact builds.violation_le nonneg slight regular.size drifts (locals r hr)
    · exact (rests.run slight finishes.second).residue_eq_zero final

end Method

end Milp.Relaxation

namespace Milp

open Relaxation Tableau

/-- Exact arithmetic but for a tolerance for feasibility. -/
def Relaxation.Method.tolerant : Method Rat := ⟨⟨1 / 10 ^ 6, 0, 0⟩, 100, #[1, 0], #[2, 0, 1]⟩

/-- The tolerances that the solver has where nothing else is said, as exact numbers. -/
def Relaxation.Method.millionth : Method Rat :=
  ⟨⟨1 / 10 ^ 6, 1 / 10 ^ 9, 1 / 10 ^ 12⟩, 100000, #[0, 1, 2], #[0]⟩

/-- These tolerances with the columns and the rows in another order. -/
def Relaxation.Method.millionthReordered : Method Rat :=
  { Method.millionth with columnRank := #[1, 0], rowOrder := #[2, 0, 1] }

/-- The box of the mixed problem is regular. -/
theorem Problem.mixed_regular : Regular .mixed #[2, 0, 1] (Box.ofProblem .mixed) := by
  refine ⟨by decide +kernel, by decide +kernel, ?_⟩
  unfold Box.Defined
  decide +kernel

/-- A point of the mixed problem with a local row. -/
theorem Problem.mixed_admits :
    Problem.mixed.Admits (Box.ofProblem .mixed) [⟨[(0, 1)], .lessEqual, 3⟩] #[3, 1] := by
  refine ⟨by decide +kernel, ?_, ?_, by decide +kernel⟩
  · unfold Box.Contains
    decide +kernel
  · decide +kernel

/-- The answer to a problem with points violates nothing by more than the tolerance. With the tolerances
of the solver the first phase leaves the artificial column of the redundant row, number six, in the basis;
nothing is left of it in the end, and no row is violated by more than pivots may have clipped. -/
theorem Problem.mixed_within :
    (Method.tolerant.solve .mixed (Box.ofProblem .mixed) [⟨[(0, 1)], .lessEqual, 3⟩] =
      .ok ⟨.optimal 7 #[3, 1], 3⟩ ∧
    Problem.mixed.AdmitsWithin (1 / 10 ^ 6) (Box.ofProblem .mixed) [⟨[(0, 1)], .lessEqual, 3⟩]
      #[3, 1]) ∧
    Method.millionthReordered.solve .mixed (Box.ofProblem .mixed) [⟨[(0, 1)], .lessEqual, 3⟩] =
      .ok ⟨.optimal 7 #[3, 1], 3⟩ ∧
    ∃ f s t left rest, Method.millionthReordered.Finishes .mixed (Box.ofProblem .mixed)
        [⟨[(0, 1)], .lessEqual, 3⟩] f s t left rest ∧
      s.basis.toList.map Fin.val = [0, 6, 1, 3, 4] ∧ residue f.artificialStart t.basic = 0 ∧
      (∀ c ∈ Problem.mixed.constraints, c.violation #[3, 1] ≤ 1 / 10 ^ 8) ∧
      ∀ r ∈ ([⟨[(0, 1)], .lessEqual, 3⟩] : List (Row Rat)), r.violation #[3, 1] ≤ 1 / 10 ^ 8 := by
  have solved : Method.tolerant.solve .mixed (Box.ofProblem .mixed)
      [⟨[(0, 1)], .lessEqual, 3⟩] = .ok ⟨.optimal 7 #[3, 1], 3⟩ := by
    decide +kernel
  have solved' : Method.millionthReordered.solve .mixed (Box.ofProblem .mixed)
      [⟨[(0, 1)], .lessEqual, 3⟩] = .ok ⟨.optimal 7 #[3, 1], 3⟩ := by
    decide +kernel
  have free : ∀ v < Problem.mixed.size,
      (Box.ofProblem Problem.mixed).isFree (1 / 10 ^ 6) v ≠ false := by
    decide +kernel
  have slight : Method.millionthReordered.tolerances.Slight :=
    ⟨by decide +kernel, by decide +kernel, by decide +kernel⟩
  have seen : Method.millionthReordered.finishesWith .mixed (Box.ofProblem .mixed)
      [⟨[(0, 1)], .lessEqual, 3⟩] (fun f s t => decide (
        s.basis.toList.map Fin.val = [0, 6, 1, 3, 4] ∧ s.Rests f.artificialStart ∧
        (∀ i : Fin f.rows.size, 0 ≤ t.rhs.get i) ∧
        (∀ c ∈ Problem.mixed.constraints, f.allowance Method.millionthReordered.tolerances
          (Box.ofProblem .mixed) t (3 + f.rows.size) c.toRow ≤ 1 / 10 ^ 8) ∧
        ∀ r ∈ ([⟨[(0, 1)], .lessEqual, 3⟩] : List (Row Rat)),
          f.allowance Method.millionthReordered.tolerances (Box.ofProblem .mixed) t
            (3 + f.rows.size) r ≤ 1 / 10 ^ 8)) = true := by
    decide +kernel
  refine ⟨⟨solved, (Method.solve_within (by decide +kernel) Problem.mixed_regular solved).2.2
    ⟨rfl, rfl⟩ ⟨_, Problem.mixed_admits, fun v hv fixed => absurd fixed (free v hv)⟩⟩, solved', ?_⟩
  obtain ⟨f, s, t, left, rest, finishes, -, constraints, locals, settled⟩ :=
    (Method.solve_within (by decide +kernel) Problem.mixed_regular solved').2.1 slight
  obtain ⟨basis, rests, nonneg, within, within'⟩ := of_decide_eq_true (finishes.test seen)
  exact ⟨f, s, t, left, rest, finishes, basis, settled rests nonneg,
    fun c hc => (constraints c hc).trans (within c hc), fun r hr => (locals r hr).trans (within' r hr)⟩

/-- A problem without points: `x` has to lie above one by more than half a millionth. -/
def Problem.residual : Problem Rat where
  name := "residual"
  sense := .maximize
  vars := #[⟨"x", .continuous, 0, 0, .fin 1⟩, ⟨"z", .continuous, 2, 0, .posInf⟩,
    ⟨"w", .continuous, 1, 0, .posInf⟩]
  constraints := #[⟨⟨[(0, 1), (1, -1 / 2 ^ 20)], .greaterEqual, 1 + 1 / 2 ^ 21⟩, "low"⟩]

/-- Less than a millionth is left of the artificial column in the first phase; driving it out brings
`z` to minus one half, and the answer violates the local row by as much. -/
theorem Problem.residual_violated :
    Method.millionth.solve .residual (Box.ofProblem .residual) [⟨[(2, 1), (1, 1)], .lessEqual, 1⟩] =
      .ok ⟨.optimal (3 / 2) #[1, 0, 3 / 2], 2⟩ ∧
    ¬ Problem.residual.AdmitsWithin Method.millionth.tolerances.feasibility
      (Box.ofProblem .residual) [⟨[(2, 1), (1, 1)], .lessEqual, 1⟩] #[1, 0, 3 / 2] := by
  constructor
  · decide +kernel
  · intro h
    exact absurd (h.rows _ (List.mem_singleton.mpr rfl)) (by decide +kernel)

/-- That is what the last tableau has for its residue. -/
example : Method.millionth.finishesWith .residual (Box.ofProblem .residual)
    [⟨[(2, 1), (1, 1)], .lessEqual, 1⟩]
    (fun f _ t => decide (residue f.artificialStart t.basic = 1 / 2)) = true := by
  decide +kernel

end Milp
