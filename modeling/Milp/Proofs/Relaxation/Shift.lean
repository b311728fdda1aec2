import Milp.Proofs.Relaxation.Answer
import Milp.Proofs.Relaxation.FirstTableau

/-!
# Points of a region and points of its standard form

The standard form of a relaxation has a column for every free variable, which counts from the lower
bound. `Lifts` says that a point of the variables is that of the columns.
-/

namespace Milp.Relaxation

open Tableau
open Form (columnVar columnVar_mem)

/-! ### Columns and variables -/

/-- How far a variable lies above its lower bound at a point of the columns. -/
def offset (columns : Array Var) (z : Fin columns.size → Rat) (v : Var) : Rat :=
  ∑ k : Fin columns.size, if columnVar columns k = v then z k else 0

/-- Whether a point of the variables is that of the columns, counted from the lower bounds. -/
def Lifts (box : Box Rat) (columns : Array Var) (z : Fin columns.size → Rat) (x : Array Rat) :
    Prop :=
  ∀ v, x.getD v 0 = box.lowerAt v + offset columns z v

section Columns

variable {box : Box Rat} {columns : Array Var} {z : Fin columns.size → Rat} {x : Array Rat}

/-- A variable of a column has a position among them. -/
theorem exists_column {v : Var} (h : v ∈ columns) :
    ∃ k : Fin columns.size, columnVar columns k = v := by
  obtain ⟨k, hk, same⟩ := Array.mem_iff_getElem.mp h
  exact ⟨⟨k, hk⟩, same⟩

/-- A variable without a column stays at its lower bound. -/
theorem offset_of_not_mem {v : Var} (h : v ∉ columns) : offset columns z v = 0 := by
  refine Finset.sum_eq_zero fun k _ => if_neg fun same => h ?_
  rw [← same]
  exact columnVar_mem k

/-- The variable of a column lies as far above its lower bound as the column says. -/
theorem offset_column (nodup : columns.toList.Nodup) (k : Fin columns.size) :
    offset columns z (columnVar columns k) = z k := by
  rw [offset, Finset.sum_eq_single k]
  · exact if_pos rfl
  · intro i _ other
    refine if_neg fun same => other (Fin.ext ?_)
    have listed : columns.toList[i.val] = columns.toList[k.val] := same
    exact nodup.getElem_inj_iff.mp listed
  · simp

/-- No variable lies below its lower bound if no column is negative. -/
theorem offset_nonneg (nonneg : ∀ k, 0 ≤ z k) (v : Var) : 0 ≤ offset columns z v := by
  refine Finset.sum_nonneg fun k _ => ?_
  split
  · exact nonneg k
  · exact le_rfl

/-- A sum over the variables of terms is one over the columns. -/
theorem sum_offset (terms : List (Var × Rat)) :
    (terms.map fun t => t.2 * offset columns z t.1).sum =
      ∑ k, ((terms.filter (·.1 = columnVar columns k)).map (·.2)).sum * z k := by
  induction terms with
  | nil => simp
  | cons t terms ih =>
    rw [List.map_cons, List.sum_cons, ih, offset, Finset.mul_sum, ← Finset.sum_add_distrib]
    refine Finset.sum_congr rfl fun k _ => ?_
    by_cases h : t.1 = columnVar columns k
    · simp [h, add_mul]
    · simp [h, Ne.symm h]

/-! ### Rows -/

/-- The left-hand side of a shifted row. -/
theorem activity_shift (r : Row Rat) :
    (Form.shift box columns r).activity z =
      (r.terms.map fun t => t.2 * offset columns z t.1).sum := by
  have total (ts : List (Var × Rat)) (a : Rat) :
      ts.foldl (fun sum t => sum + t.2) a = a + (ts.map (·.2)).sum := by
    induction ts generalizing a with
    | nil => simp
    | cons t ts ih => rw [List.foldl_cons, ih, List.map_cons, List.sum_cons, add_assoc]
  rw [sum_offset, FormRow.activity]
  refine Finset.sum_congr rfl fun k _ => ?_
  rw [Form.shift, Vector.get_eq_getElem, Vector.getElem_ofFn, total, zero_add]
  rfl

/-- The right-hand side of a shifted row. -/
theorem rhs_shift (r : Row Rat) :
    (Form.shift box columns r).rhs = r.rhs - (r.terms.map fun t => t.2 * box.lowerAt t.1).sum := by
  have less (ts : List (Var × Rat)) (a : Rat) :
      ts.foldl (fun rhs t => rhs - t.2 * box.lowerAt t.1) a =
        a - (ts.map fun t => t.2 * box.lowerAt t.1).sum := by
    induction ts generalizing a with
    | nil => simp
    | cons t ts ih => rw [List.foldl_cons, ih, List.map_cons, List.sum_cons, sub_sub]
  exact less r.terms r.rhs

/-- A row holds at a point if the shifted row does at its columns. -/
theorem Lifts.holds_iff (h : Lifts box columns z x) (r : Row Rat) (tol : Rat) :
    r.holds x tol = true ↔ r.sense.RelatesWithin tol ((Form.shift box columns r).activity z)
      (Form.shift box columns r).rhs := by
  rw [Row.holds_iff]
  refine RowSense.relatesWithin_congr ?_
  have split : r.activity x = (r.terms.map fun t => t.2 * box.lowerAt t.1).sum +
      (r.terms.map fun t => t.2 * offset columns z t.1).sum := by
    rw [Row.activity, Scalar.sum_eq, ← List.sum_map_add]
    congr 1
    refine List.map_congr_left fun t _ => ?_
    show t.2 * x.getD t.1 0 = _
    rw [h t.1, mul_add]
  rw [split, activity_shift, rhs_shift]
  ring

/-- The row of a finite upper bound. -/
def upperRow (box : Box Rat) (columns : Array Var) (k : Fin columns.size) (u : Rat) :
    FormRow Rat columns.size :=
  ⟨Vector.ofFn fun j => if j = k then 1 else 0, .lessEqual,
    u - box.lowerAt (columnVar columns k)⟩

/-- A column has a row for its upper bound if that is finite. -/
theorem upperRow?_eq_some_iff {k : Fin columns.size} {row : FormRow Rat columns.size} :
    Form.upperRow? box columns k = some row ↔
      ∃ u, box.upperAt (columnVar columns k) = .fin u ∧ upperRow box columns k u = row := by
  have same : columnVar columns k = columns[k] := rfl
  rw [Form.upperRow?, same]
  cases box.upperAt columns[k] with
  | fin u => simp [upperRow, same]
  | _ => simp

/-- The left-hand side of the row of an upper bound is the column. -/
theorem activity_upperRow (k : Fin columns.size) (u : Rat) :
    (upperRow box columns k u).activity z = z k := by
  simp [FormRow.activity, upperRow]

/-- A row without coefficients has no left-hand side. -/
theorem activity_of_isEmpty {n : Nat} {tols : Tolerances Rat} (sharp : tols.Sharp)
    {r : FormRow Rat n} (h : r.isEmpty tols = true) (y : Fin n → Rat) : r.activity y = 0 := by
  refine Finset.sum_eq_zero fun k _ => ?_
  have zero : Scalar.abs (r.coefficients.get k) ≤ tols.pivot :=
    of_decide_eq_true (Vector.all_eq_true.mp h k k.2)
  rw [Scalar.abs_eq, sharp.pivot, abs_nonpos_iff] at zero
  rw [zero, zero_mul]

/-- The row of an upper bound has a coefficient. -/
theorem isEmpty_upperRow {tols : Tolerances Rat} (small : tols.pivot < 1) (k : Fin columns.size)
    (u : Rat) : (upperRow box columns k u).isEmpty tols = false := by
  refine Bool.eq_false_iff.mpr fun empty => ?_
  have own : Scalar.abs ((upperRow box columns k u).coefficients.get k) ≤ tols.pivot :=
    of_decide_eq_true (Vector.all_eq_true.mp empty k k.2)
  rw [upperRow, Vector.get_eq_getElem, Vector.getElem_ofFn, if_pos rfl, Scalar.abs_eq,
    abs_one] at own
  exact absurd small own.not_gt

/-- What it means for a row without coefficients to hold. -/
theorem holdsAtZero_iff {n : Nat} {tols : Tolerances Rat} (r : FormRow Rat n) :
    r.holdsAtZero tols = true ↔ r.sense.RelatesWithin tols.feasibility 0 r.rhs := by
  obtain ⟨coefficients, sense, rhs⟩ := r
  cases sense
  · simp only [FormRow.holdsAtZero, RowSense.RelatesWithin, decide_eq_true_iff]
    exact neg_le_iff_add_nonneg
  · simp only [FormRow.holdsAtZero, RowSense.RelatesWithin, decide_eq_true_iff, sub_nonpos]
  · simp only [FormRow.holdsAtZero, RowSense.RelatesWithin, decide_eq_true_iff, Scalar.abs_eq,
      zero_sub, abs_neg]

end Columns

/-! ### Regions -/

section Regions

variable {p : Problem Rat} {tols : Tolerances Rat} {box : Box Rat} {rowOrder : Array Nat}
  {rows : List (Row Rat)} {columns : Array Var} {f : Form Rat}

/-- Whether the free variables have a column each. -/
structure FreeColumns {α : Type} [Scalar α] (p : Problem α) (tols : Tolerances α) (box : Box α)
    (columns : Array Var) : Prop where
  nodup : columns.toList.Nodup
  mem_iff : ∀ v, v ∈ columns ↔ v < p.size ∧ box.isFree tols.feasibility v = true

/-- The columns of a standard form are those of the free variables. -/
theorem freeColumns_free {α : Type} [Scalar α] (p : Problem α) (tols : Tolerances α)
    (box : Box α) : FreeColumns p tols box (Form.freeColumns p tols box) where
  nodup := List.nodup_range.filter _
  mem_iff v := by simp [Form.freeColumns, Problem.positions]

/-- The variable of a column is one of the problem's. -/
theorem FreeColumns.column_lt (h : FreeColumns p tols box columns) (k : Fin columns.size) :
    columnVar columns k < p.size := ((h.mem_iff _).mp (columnVar_mem k)).1

/-- What holds of all rows holds of the shifted constraints, the shifted local rows, and the rows of
the upper bounds. -/
theorem forall_allRows_iff {P : FormRow Rat columns.size → Prop} :
    (∀ r ∈ Form.allRows p rowOrder rows box columns, P r) ↔
      (∀ i ∈ rowOrder, ∀ c, p.constraints[i]? = some c → P (Form.shift box columns c.toRow)) ∧
      (∀ r ∈ rows, P (Form.shift box columns r)) ∧
      ∀ k r, Form.upperRow? box columns k = some r → P r := by
  simp only [Form.allRows, List.forall_mem_append, List.forall_mem_map, List.mem_filterMap,
    Array.mem_toList_iff, List.mem_finRange, true_and, forall_exists_index, and_imp, and_assoc]
  constructor
  · rintro ⟨constraints, locals, uppers⟩
    exact ⟨fun i hi c => constraints c i hi, locals, fun k r => uppers r k⟩
  · rintro ⟨constraints, locals, uppers⟩
    exact ⟨fun c i hi => constraints i hi c, locals, fun r k => uppers k r⟩

/-- A point is that of its columns, if every variable without a column is at its lower bound. -/
theorem FreeColumns.lifts_of_settled (h : FreeColumns p tols box columns)
    (size : box.lower.size = p.size) {x : Array Rat} (size_eq : x.size = p.size)
    (settled : ∀ v < p.size, box.isFree tols.feasibility v = false → x.getD v 0 = box.lowerAt v) :
    Lifts box columns
      (fun k => x.getD (columnVar columns k) 0 - box.lowerAt (columnVar columns k)) x := by
  intro v
  by_cases column : v ∈ columns
  · obtain ⟨k, rfl⟩ := exists_column column
    rw [offset_column h.nodup, add_sub_cancel]
  · rw [offset_of_not_mem column, add_zero]
    by_cases hv : v < p.size
    · refine settled v hv (Bool.eq_false_iff.mpr fun free => column ?_)
      exact (h.mem_iff v).mpr ⟨hv, free⟩
    · have outside : p.size ≤ v := not_lt.mp hv
      simp [Box.lowerAt, size_eq, size, outside]

/-- The columns of a point of the region are not negative and satisfy all rows. -/
theorem FreeColumns.holds_of_admits (h : FreeColumns p tols box columns) (rowOrder : Array Nat)
    {z : Fin columns.size → Rat} {x : Array Rat} (lifts : Lifts box columns z x)
    (admits : p.Admits box rows x) :
    (∀ k, 0 ≤ z k) ∧ ∀ r ∈ Form.allRows p rowOrder rows box columns, r.Holds z := by
  have above (k : Fin columns.size) :
      x.getD (columnVar columns k) 0 = box.lowerAt (columnVar columns k) + z k := by
    rw [lifts, offset_column h.nodup]
  have within (k : Fin columns.size) := admits.inBox (columnVar columns k) (h.column_lt k)
  have exact_of_holds (r : Row Rat) (hr : r.holds x 0 = true) :
      (Form.shift box columns r).Holds z :=
    (RowSense.relatesWithin_zero_iff _ _ _).mp ((lifts.holds_iff r 0).mp hr)
  refine ⟨fun k => ?_, forall_allRows_iff.mpr ⟨?_, ?_, ?_⟩⟩
  · have lower := (within k).1
    rw [above] at lower
    linarith
  · intro i _ c hc
    exact exact_of_holds _ (admits.constraints c (Array.mem_of_getElem? hc))
  · intro r hr
    exact exact_of_holds r (admits.rows r hr)
  · intro k r hr
    obtain ⟨u, upper, rfl⟩ := upperRow?_eq_some_iff.mp hr
    have bound := (within k).2
    rw [above, upper, Extended.le_fin] at bound
    rw [FormRow.Holds, activity_upperRow]
    exact le_sub_iff_add_le'.mpr bound

/-- If all rows hold within the tolerance for feasibility, the point lies in the region within that
tolerance, provided that the order lists every constraint. -/
theorem FreeColumns.admitsWithin (h : FreeColumns p tols box columns)
    (complete : ∀ i < p.constraints.size, i ∈ rowOrder) (defined : box.Defined p.size)
    (uncrossed : ∀ v < p.size, box.isCrossed tols.feasibility v = false)
    (tol_nonneg : 0 ≤ tols.feasibility) {z : Fin columns.size → Rat} {x : Array Rat}
    (size_eq : x.size = p.size) (lifts : Lifts box columns z x) (nonneg : ∀ k, 0 ≤ z k)
    (within : ∀ r ∈ Form.allRows p rowOrder rows box columns,
      r.sense.RelatesWithin tols.feasibility (r.activity z) r.rhs) :
    p.AdmitsWithin tols.feasibility box rows x := by
  obtain ⟨constraints, locals, uppers⟩ := forall_allRows_iff.mp within
  refine ⟨size_eq, fun v hv => ?_, fun v hv => ?_, fun c hc => ?_, fun r hr => ?_⟩
  · rw [lifts v]
    linarith [offset_nonneg nonneg v]
  · rw [lifts v]
    by_cases column : v ∈ columns
    · obtain ⟨k, rfl⟩ := exists_column column
      rw [offset_column h.nodup]
      rcases Box.isFree_iff.mp ((h.mem_iff _).mp column).2 with upper | ⟨u, upper, -⟩
      · rw [upper]
        rfl
      · have row := uppers k _ (upperRow?_eq_some_iff.mpr ⟨u, upper, rfl⟩)
        rw [activity_upperRow] at row
        have bound : z k ≤ u - box.lowerAt (columnVar columns k) + tols.feasibility := row
        rw [upper]
        refine (Extended.le_fin _ _).mpr ?_
        linarith
    · rw [offset_of_not_mem column, add_zero]
      exact Box.lower_le_of_not_isCrossed (defined v hv) (uncrossed v hv)
  · obtain ⟨i, hi, rfl⟩ := Array.mem_iff_getElem.mp hc
    refine (lifts.holds_iff _ _).mpr (constraints i (complete i hi) _ ?_)
    exact Array.getElem?_eq_getElem hi
  · exact (lifts.holds_iff r _).mpr (locals r hr)

/-! ### Standard forms -/

/-- What a standard form is made of: columns for the free variables, and the rows that have
coefficients, turned. The rows without coefficients hold. -/
structure Builds (p : Problem Rat) (tols : Tolerances Rat) (rowOrder : Array Nat)
    (rows : List (Row Rat)) (box : Box Rat) (f : Form Rat) : Prop where
  free : FreeColumns p tols box f.columns
  rows_eq : f.rows.toList = ((Form.allRows p rowOrder rows box f.columns).filter fun r =>
    !r.isEmpty tols).map FormRow.turned
  empty : ∀ r ∈ Form.allRows p rowOrder rows box f.columns, r.isEmpty tols = true →
    r.holdsAtZero tols = true

/-- A standard form is built so. -/
theorem builds_of_build? (h : Form.build? p tols rowOrder rows box = some f) :
    Builds p tols rowOrder rows box f := by
  simp only [Form.build?] at h
  split at h
  next all =>
    cases h
    refine ⟨freeColumns_free p tols box, rfl, fun r hr empty => ?_⟩
    have decided := List.all_eq_true.mp all r hr
    rw [empty] at decided
    exact decided
  next => cases h

/-- If there is no standard form, a row without coefficients fails. -/
theorem fails_of_build? (h : Form.build? p tols rowOrder rows box = none) :
    ∃ r ∈ Form.allRows p rowOrder rows box (Form.freeColumns p tols box),
      r.isEmpty tols = true ∧ r.holdsAtZero tols = false := by
  simp only [Form.build?] at h
  split at h
  next => cases h
  next some => simpa using some

namespace Builds

/-- The rows of the form have the points of the rows with coefficients. -/
theorem holds_iff (h : Builds p tols rowOrder rows box f) (z : Fin f.columns.size → Rat) :
    f.Holds z ↔
      ∀ r ∈ Form.allRows p rowOrder rows box f.columns, r.isEmpty tols = false → r.Holds z := by
  have listed : f.Holds z ↔ ∀ r ∈ f.rows.toList, r.Holds z := by
    rw [List.forall_mem_iff_getElem]
    exact ⟨fun all i hi => all ⟨i, hi⟩, fun all i => all i i.2⟩
  rw [listed, h.rows_eq, List.forall_mem_map]
  simp only [List.mem_filter, Bool.not_eq_true', FormRow.holds_turned, and_imp]

/-- No right-hand side is negative. -/
theorem isTurned (h : Builds p tols rowOrder rows box f) : f.IsTurned := by
  intro i
  have listed : f.rows[i] ∈ f.rows.toList := by simp
  rw [h.rows_eq] at listed
  obtain ⟨r, -, turned⟩ := List.mem_map.mp listed
  rw [← turned]
  exact r.rhs_turned_nonneg

/-- Where the rows of the form hold, all rows do within the tolerance for feasibility. -/
theorem relatesWithin (h : Builds p tols rowOrder rows box f) (sharp : tols.Sharp)
    (nonneg : 0 ≤ tols.feasibility) {z : Fin f.columns.size → Rat} (holds : f.Holds z) :
    ∀ r ∈ Form.allRows p rowOrder rows box f.columns,
      r.sense.RelatesWithin tols.feasibility (r.activity z) r.rhs := by
  intro r hr
  by_cases empty : r.isEmpty tols = true
  · rw [activity_of_isEmpty sharp empty]
    exact (holdsAtZero_iff r).mp (h.empty r hr empty)
  · exact RowSense.Relates.within
      ((h.holds_iff z).mp holds r hr (by simpa using empty)) nonneg

/-- At a point of the form every variable of a column lies below its upper bound. -/
theorem below_upper (h : Builds p tols rowOrder rows box f) (sharp : tols.Sharp)
    {z : Fin f.columns.size → Rat} (holds : f.Holds z) (k : Fin f.columns.size) :
    (Extended.fin (box.lowerAt (columnVar f.columns k) + z k)).le
      (box.upperAt (columnVar f.columns k)) = true := by
  rcases Box.isFree_iff.mp ((h.free.mem_iff (columnVar f.columns k)).mp (columnVar_mem k)).2
    with upper | ⟨u, upper, -⟩
  · rw [upper]
    rfl
  · have rows := (forall_allRows_iff.mp ((h.holds_iff z).mp holds)).2.2
    have row := rows k _ (upperRow?_eq_some_iff.mpr ⟨u, upper, rfl⟩)
      (isEmpty_upperRow (sharp.pivot ▸ one_pos) k u)
    rw [FormRow.Holds, activity_upperRow] at row
    rw [upper]
    exact (Extended.le_fin _ _).mpr (le_sub_iff_add_le'.mp row)

end Builds

end Regions
end Milp.Relaxation
