import Milp.Proofs.Relaxation.Correctness

/-!
# The standard form is equivalent to the region

In exact arithmetic a standard form loses nothing and adds nothing (`Form.build?_represents`): how
far the free variables lie above their lower bounds is a bijection from the points of the region to
the points of the form, that is, to the points without negative columns that satisfy every row that
is kept. The two objective values differ by that of the lower bounds. There is no standard form only
if a row without coefficients fails, and then the region has no points.
-/

namespace Milp.Relaxation

open Form (columnVar columnVar_mem)

variable {p : Problem Rat} {tols : Tolerances Rat} {box : Box Rat} {rowOrder : Array Nat}
  {rows : List (Row Rat)} {f : Form Rat}

/-! ### The two sets of points -/

/-- The points of a region. -/
def region (p : Problem Rat) (box : Box Rat) (rows : List (Row Rat)) : Set (Array Rat) :=
  {x | p.Admits box rows x}

/-- The points of a form: no column is negative, and every row holds. -/
def Form.points (f : Form Rat) : Set (Fin f.columns.size → Rat) := {z | (∀ k, 0 ≤ z k) ∧ f.Holds z}

/-- How far the free variables of a point lie above their lower bounds. -/
def Form.shifted (f : Form Rat) (box : Box Rat) (x : Array Rat) (k : Fin f.columns.size) : Rat :=
  x.getD (columnVar f.columns k) 0 - box.lowerAt (columnVar f.columns k)

/-- Whether a standard form stands for a region: its columns are the variables with room between
their bounds, each of them once; the shift to the columns is a bijection between the points; no
right-hand side is negative; and what the columns cost differs by a constant from the objective
value, which is turned so that smaller is better. -/
structure Form.Represents (f : Form Rat) (p : Problem Rat) (box : Box Rat)
    (rows : List (Row Rat)) : Prop where
  nodup : f.columns.toList.Nodup
  mem_columns : ∀ v, v ∈ f.columns ↔
    v < p.size ∧ (Extended.fin (box.lowerAt v)).lt (box.upperAt v) = true
  bijOn : Set.BijOn (f.shifted box) (region p box rows) f.points
  turned : f.IsTurned
  objective : ∃ a, ∀ x ∈ region p box rows,
    p.sense.sign * p.objectiveValue x =
      a + ∑ k, (f.phaseTwoCost p).get (f.column k) * f.shifted box x k

/-! ### Boxes without crossed bounds -/

/-- If no lower bound exceeds the upper one, the corner of the lower bounds lies in the box. -/
theorem contains_lower {n : Nat}
    (ordered : ∀ v < n, (Extended.fin (box.lowerAt v)).le (box.upperAt v) = true) :
    box.Contains n box.lower := fun v hv => ⟨le_rfl, ordered v hv⟩

/-- Within tolerance zero the free variables are those with room between their bounds. -/
theorem isFree_zero_iff {v : Var} :
    box.isFree 0 v = true ↔ (Extended.fin (box.lowerAt v)).lt (box.upperAt v) = true := by
  rw [Box.isFree_iff]
  cases upper : box.upperAt v with
  | fin u => simp [Extended.lt_fin]
  | posInf => exact ⟨fun _ => rfl, fun _ => .inl rfl⟩
  | negInf => simp [Extended.lt]
  | undefined => simp [Extended.lt]

/-! ### There and back -/

/-- The shifted point of a point in the region: the point is that of these columns. -/
theorem Builds.lifts_shifted (h : Builds p tols rowOrder rows box f) (zero : tols.feasibility = 0)
    (size : box.lower.size = p.size) {x : Array Rat} (admits : p.Admits box rows x) :
    Lifts box f.columns (f.shifted box x) x :=
  h.free.lifts_exact zero size admits

/-- A point of the region is shifted to one of the form. -/
theorem Builds.mapsTo_shifted (h : Builds p tols rowOrder rows box f) (zero : tols.feasibility = 0)
    (size : box.lower.size = p.size) :
    Set.MapsTo (f.shifted box) (region p box rows) f.points := by
  intro x admits
  obtain ⟨nonneg, holds⟩ :=
    h.free.holds_of_admits rowOrder (h.lifts_shifted zero size admits) admits
  exact ⟨nonneg, (h.holds_iff _).mpr fun r hr _ => holds r hr⟩

/-- Points of the region with the same columns are the same. -/
theorem Builds.injOn_shifted (h : Builds p tols rowOrder rows box f) (zero : tols.feasibility = 0)
    (size : box.lower.size = p.size) : Set.InjOn (f.shifted box) (region p box rows) := by
  intro x hx y hy same
  have lifts_x := h.lifts_shifted zero size hx
  have lifts_y := h.lifts_shifted zero size hy
  rw [← same] at lifts_y
  refine Array.ext (hx.size_eq.trans hy.size_eq.symm) fun v inside inside' => ?_
  have values : x.getD v 0 = y.getD v 0 := (lifts_x v).trans (lifts_y v).symm
  simpa [inside, inside'] using values

/-- The columns of the point that belongs to given ones are the given ones. -/
theorem Builds.shifted_lifted (h : Builds p tols rowOrder rows box f)
    (size : box.lower.size = p.size) (z : Fin f.columns.size → Rat) :
    f.shifted box (lifted box f.columns z) = z := by
  funext k
  rw [Form.shifted, h.lifts_lifted size z, offset_column h.free.nodup, add_sub_cancel_left]

/-- A point of the form is that of a point of the region. -/
theorem Builds.surjOn_shifted (h : Builds p tols rowOrder rows box f)
    (regular : Regular p rowOrder box) (sharp : tols.Sharp) (zero : tols.feasibility = 0)
    (uncrossed : ∀ v < p.size, box.isCrossed tols.feasibility v = false) :
    Set.SurjOn (f.shifted box) (region p box rows) f.points := by
  intro z ⟨nonneg, holds⟩
  refine ⟨lifted box f.columns z, ?_, h.shifted_lifted regular.size z⟩
  have within := h.free.admitsWithin regular.complete regular.defined uncrossed zero.ge
    (by simp [lifted, regular.size]) (h.lifts_lifted regular.size z) nonneg
    (h.relatesWithin sharp zero.ge holds)
  rw [zero, p.admitsWithin_zero_iff] at within
  exact within

/-- What the structural columns cost in the second phase. -/
theorem Form.phaseTwoCost_column (f : Form Rat) (p : Problem Rat) (k : Fin f.columns.size) :
    (f.phaseTwoCost p).get (f.column k) = f.columnCost p k := by
  have only := f.sum_phaseTwoCost p fun j => if j = f.column k then 1 else 0
  have own (j : Fin f.columns.size) : f.column j = f.column k ↔ j = k :=
    (Fin.castLE_injective f.size_le_width).eq_iff
  simpa [own] using only

/-! ### Rows that fail -/

/-- A row that no column takes part in fails if zero does not stand in its relation to the
right-hand side. -/
def FormRow.Fails {n : Nat} (r : FormRow Rat n) : Prop :=
  (∀ k, r.coefficients.get k = 0) ∧ ¬ r.sense.Relates 0 r.rhs

/-- In exact arithmetic the rows that are decided at once and do not hold are those that fail. -/
theorem FormRow.fails_iff {n : Nat} (sharp : tols.Sharp) (zero : tols.feasibility = 0)
    (r : FormRow Rat n) : r.Fails ↔ r.isEmpty tols = true ∧ r.holdsAtZero tols = false := by
  have empty : r.isEmpty tols = true ↔ ∀ k, r.coefficients.get k = 0 := by
    simp only [isEmpty, Vector.all_eq_true, sharp.pivot, Scalar.abs_eq, decide_eq_true_eq,
      abs_nonpos_iff]
    exact ⟨fun all k => all k k.2, fun all k hk => all ⟨k, hk⟩⟩
  rw [Fails, empty, Bool.eq_false_iff, ne_eq, holdsAtZero_iff, zero,
    RowSense.relatesWithin_zero_iff]

/-- There is no standard form exactly if a row fails. -/
theorem build?_eq_none_iff (sharp : tols.Sharp) (zero : tols.feasibility = 0) :
    Form.build? p tols rowOrder rows box = none ↔
      ∃ r ∈ Form.allRows p rowOrder rows box (Form.freeColumns p tols box), r.Fails := by
  simp only [FormRow.fails_iff sharp zero]
  refine ⟨fails_of_build?, fun ⟨r, hr, empty, fails⟩ => ?_⟩
  refine if_neg fun all => ?_
  have decided := List.all_eq_true.mp all r hr
  rw [empty, fails] at decided
  cases decided

/-- A region has no points if a row of its form fails. -/
theorem region_eq_empty (sharp : tols.Sharp) (zero : tols.feasibility = 0)
    (size : box.lower.size = p.size)
    (fails : ∃ r ∈ Form.allRows p rowOrder rows box (Form.freeColumns p tols box), r.Fails) :
    region p box rows = ∅ := by
  obtain ⟨r, hr, failed⟩ := fails
  obtain ⟨empty, unheld⟩ := (r.fails_iff sharp zero).mp failed
  exact Set.eq_empty_of_forall_notMem (not_admits_of_fails sharp zero size hr empty unheld)

/-! ### Equivalence -/

/-- In exact arithmetic the standard form stands for the region, whatever the order of the
constraints is and however often a local row names a variable. There is none only if a row without
coefficients fails, and then the region has no points. -/
theorem Form.build?_represents (feasibility : tols.feasibility = 0) (pivot : tols.pivot = 0)
    (order : rowOrder.toList.Perm (List.range p.constraints.size))
    (size : box.lower.size = p.size)
    (ordered : ∀ v < p.size, (Extended.fin (box.lowerAt v)).le (box.upperAt v) = true)
    (rows : List (Row Rat)) :
    (∀ f, Form.build? p tols rowOrder rows box = some f → f.Represents p box rows) ∧
    (Form.build? p tols rowOrder rows box = none ↔
      ∃ r ∈ Form.allRows p rowOrder rows box (Form.freeColumns p tols box), r.Fails) ∧
    (Form.build? p tols rowOrder rows box = none → region p box rows = ∅) := by
  have corner := contains_lower ordered
  have regular : Regular p rowOrder box :=
    ⟨fun i hi => Array.mem_toList_iff.mp (order.mem_iff.mpr (List.mem_range.mpr hi)), size,
      corner.defined⟩
  -- the third tolerance plays no role in the form
  obtain ⟨_, _, ratio⟩ := tols
  obtain rfl : _ = (0 : Rat) := feasibility
  obtain rfl : _ = (0 : Rat) := pivot
  have unread : Form.build? p ⟨0, 0, ratio⟩ rowOrder rows box =
      Form.build? p ⟨0, 0, 0⟩ rowOrder rows box := rfl
  have sharp : Tolerances.Sharp ⟨0, 0, 0⟩ := ⟨rfl, rfl⟩
  rw [unread]
  refine ⟨fun f built => ?_, ?_, fun none => ?_⟩
  · have h := builds_of_build? built
    refine ⟨h.free.nodup, fun v => ?_, ⟨?_, ?_, ?_⟩, h.isTurned, ?_⟩
    · rw [h.free.mem_iff, isFree_zero_iff]
    · exact h.mapsTo_shifted rfl size
    · exact h.injOn_shifted rfl size
    · exact h.surjOn_shifted regular sharp rfl fun v hv => Box.isCrossed_eq_false hv corner le_rfl
    · refine ⟨baseCost p box, fun x admits => ?_⟩
      rw [h.sign_mul_objectiveValue admits.size_eq (h.lifts_shifted rfl size admits)]
      simp only [Form.phaseTwoCost_column]
  · exact build?_eq_none_iff sharp rfl
  · exact region_eq_empty sharp rfl size ((build?_eq_none_iff sharp rfl).mp none)

end Milp.Relaxation

namespace Milp

open Relaxation

/-- A box in which one of the two variables is fixed and the other one has no upper bound. -/
def Box.pinned : Box Rat := ⟨#[1, 1], #[.posInf, .fin 1]⟩

/-- The form in that box, with a local row that names a variable twice: one column is left, and two
of the four rows are turned. -/
theorem Problem.mixed_represented :
    ∃ f, Form.build? .mixed ⟨0, 0, 0⟩ #[2, 0, 1] [⟨[(0, 1), (1, 1), (0, -3)], .lessEqual, -2⟩]
        Box.pinned = some f ∧ f.columns = #[0] ∧
      f.rows.toList.map (fun r => (r.sense, r.rhs)) =
        [(.equal, 4), (.equal, 2), (.lessEqual, 2), (.greaterEqual, 1)] ∧
      f.Represents .mixed Box.pinned [⟨[(0, 1), (1, 1), (0, -3)], .lessEqual, -2⟩] := by
  have shape : (Form.build? .mixed ⟨0, 0, 0⟩ #[2, 0, 1]
      [⟨[(0, 1), (1, 1), (0, -3)], .lessEqual, -2⟩] Box.pinned).map
        (fun f => (f.columns, f.rows.toList.map fun r => (r.sense, r.rhs))) =
      some (#[0], [(.equal, 4), (.equal, 2), (.lessEqual, 2), (.greaterEqual, 1)]) := by
    decide +kernel
  obtain ⟨f, built, same⟩ := Option.map_eq_some_iff.mp shape
  obtain ⟨columns, turned⟩ := Prod.mk.inj same
  have ordered : ∀ v < Problem.mixed.size,
      (Extended.fin (Box.pinned.lowerAt v)).le (Box.pinned.upperAt v) = true := by
    decide +kernel
  refine ⟨f, built, columns, turned, ?_⟩
  exact (Form.build?_represents rfl rfl (by decide) (by decide +kernel) ordered _).1 f built

end Milp
