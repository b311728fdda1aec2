import Milp.Proofs.Problem.Region
import Milp.Proofs.Relaxation.Phases

/-!
# The first tableau and the rows of a form

The first tableau of a form adds a slack column to every inequality and an artificial column to
every row that no slack can solve. Its points without artificial columns are the points of the rows:

* `Form.reaches_start` — the first tableau has a feasible basic solution, if no right-hand side is
  negative.
* `Form.sum_entry_eq` — a row of the tableau is the row of the form with its slack and its artificial
  column.
* `Form.Meets.holds`, `Form.meets_withSlacks` — from the tableau to the rows and back.
-/

namespace Milp.Relaxation

open Tableau

/-! ### Rows at a point -/

namespace FormRow

variable {n : Nat}

/-- The left-hand side of a row at a point. -/
def activity (r : FormRow Rat n) (x : Fin n → Rat) : Rat := ∑ k : Fin n, r.coefficients.get k * x k

/-- Whether a point satisfies a row. -/
def Holds (r : FormRow Rat n) (x : Fin n → Rat) : Prop := r.sense.Relates (r.activity x) r.rhs

/-- A row that is turned has the same points within every tolerance. -/
theorem relatesWithin_turned (r : FormRow Rat n) (x : Fin n → Rat) (tol : Rat) :
    r.turned.sense.RelatesWithin tol (r.turned.activity x) r.turned.rhs ↔
      r.sense.RelatesWithin tol (r.activity x) r.rhs := by
  unfold turned
  split
  next =>
    have opposite :
        (⟨r.coefficients.map (-·), r.sense.flipped, -r.rhs⟩ : FormRow Rat n).activity x =
          -r.activity x := by
      simp [activity]
    rw [opposite]
    exact r.sense.relatesWithin_flipped _ _ _
  next => rfl

/-- A row that is turned has the same points. -/
theorem holds_turned (r : FormRow Rat n) (x : Fin n → Rat) : r.turned.Holds x ↔ r.Holds x := by
  rw [Holds, ← RowSense.relatesWithin_zero_iff, relatesWithin_turned,
    RowSense.relatesWithin_zero_iff, Holds]

/-- The right-hand side of a turned row is not negative. -/
theorem rhs_turned_nonneg (r : FormRow Rat n) : 0 ≤ r.turned.rhs := by
  unfold turned
  split
  next negative => exact neg_nonneg.mpr (le_of_lt negative)
  next nonneg => exact not_lt.mp nonneg

end FormRow

/-! ### Columns of the first tableau -/

/-- Elements that are counted have different numbers of counted ones before them. -/
theorem countP_take_injective {β : Type} {p : β → Bool} {l : List β} {i k : Nat} (hi : i < l.length)
    (hk : k < l.length) (pi : p l[i] = true) (pk : p l[k] = true)
    (same : (l.take i).countP p = (l.take k).countP p) : i = k := by
  have before {i k : Nat} (hi : i < l.length) (pi : p l[i] = true) (less : i < k) :
      (l.take i).countP p < (l.take k).countP p := by
    have short : i < (l.take k).length := by
      rw [List.length_take]
      omega
    have counted := countP_take_lt (p := p) short (by rwa [List.getElem_take])
    rwa [List.take_take, Nat.min_eq_left less.le] at counted
  rcases Nat.lt_trichotomy i k with less | rfl | less
  · exact absurd same (before hi pi less).ne
  · rfl
  · exact absurd same (before hk pk less).ne'

namespace Form

variable {f : Form Rat} {i k : Fin f.rows.size}

/-- Whether a point satisfies all rows of a form. -/
def Holds (f : Form Rat) (x : Fin f.columns.size → Rat) : Prop :=
  ∀ i : Fin f.rows.size, f.rows[i].Holds x

/-- Whether a point violates no row of a form by more than a tolerance. -/
def HoldsWithin (f : Form Rat) (tol : Rat) (x : Fin f.columns.size → Rat) : Prop :=
  ∀ i : Fin f.rows.size, f.rows[i].sense.RelatesWithin tol (f.rows[i].activity x) f.rows[i].rhs

/-- Whether no right-hand side of a form is negative. -/
def IsTurned (f : Form Rat) : Prop := ∀ i : Fin f.rows.size, 0 ≤ f.rows[i].rhs

/-- The structural columns come first. -/
theorem size_le_width (f : Form Rat) : f.columns.size ≤ f.width := by
  simp only [width, artificialStart]
  omega

/-- Where a structural column stands in the tableau. -/
def column (f : Form Rat) (k : Fin f.columns.size) : Fin f.width := k.castLE f.size_le_width

/-- The slack column of an inequality lies between the structural and the artificial columns. -/
theorem slackIndex_lt (h : f.rows[i].hasSlack = true) : f.slackIndex i < f.artificialStart := by
  have := countP_take_lt (p := FormRow.hasSlack) (l := f.rows.toList) (i := i) (by simp)
    (by simpa using h)
  simp only [slackIndex, artificialStart, slackCount]
  omega

/-- The artificial column of a row is one of the columns. -/
theorem artificialIndex_lt (h : f.rows[i].hasArtificial = true) : f.artificialIndex i < f.width := by
  have := countP_take_lt (p := FormRow.hasArtificial) (l := f.rows.toList) (i := i) (by simp)
    (by simpa using h)
  simp only [artificialIndex, width, artificialCount]
  omega

/-- Two rows do not share a slack column. -/
theorem slackIndex_inj (hi : f.rows[i].hasSlack = true) (hk : f.rows[k].hasSlack = true) :
    f.slackIndex i = f.slackIndex k ↔ i = k := by
  refine ⟨fun same => Fin.ext ?_, fun same => same ▸ rfl⟩
  exact countP_take_injective (p := FormRow.hasSlack) (l := f.rows.toList) (by simp) (by simp)
    (by simpa using hi) (by simpa using hk) (Nat.add_left_cancel same)

/-- Two rows do not share an artificial column. -/
theorem artificialIndex_inj (hi : f.rows[i].hasArtificial = true)
    (hk : f.rows[k].hasArtificial = true) : f.artificialIndex i = f.artificialIndex k ↔ i = k := by
  refine ⟨fun same => Fin.ext ?_, fun same => same ▸ rfl⟩
  exact countP_take_injective (p := FormRow.hasArtificial) (l := f.rows.toList) (by simp) (by simp)
    (by simpa using hi) (by simpa using hk) (Nat.add_left_cancel same)

/-- An entry of the first tableau. -/
theorem entry_tableau (i : Fin f.rows.size) (j : Fin f.width) :
    f.tableau.entry i j =
      if h : j.val < f.columns.size then f.rows[i].coefficients[j.val]
      else if j.val < f.artificialStart then
        if f.rows[i].hasSlack ∧ j.val = f.slackIndex i then slackSign f.rows[i].sense else 0
      else if f.rows[i].hasArtificial ∧ j.val = f.artificialIndex i then 1 else 0 := by
  simp [entry, tableau, startRow]

/-- A right-hand side of the first tableau. -/
theorem rhs_tableau (i : Fin f.rows.size) : f.tableau.rhs.get i = f.rows[i].rhs := by
  simp [tableau]

/-- The first tableau is solved for its basic columns. -/
theorem canonical_tableau (f : Form Rat) : f.tableau.Canonical := by
  intro i k
  have basis : f.tableau.basis.get k = f.startColumn k := by simp [tableau]
  rw [basis, entry_tableau]
  by_cases hk : f.rows[k].hasArtificial = true
  · have index : (f.startColumn k).val = f.artificialIndex k := by rw [startColumn, dif_pos hk]
    have below : f.columns.size ≤ f.artificialIndex k ∧
        f.artificialStart ≤ f.artificialIndex k := by
      simp only [artificialIndex, artificialStart]
      omega
    rw [dif_neg (by omega), if_neg (by omega), index]
    refine if_congr ⟨fun ⟨hi, same⟩ => ?_, fun same => ?_⟩ rfl rfl
    · exact ((artificialIndex_inj hk hi).mp same).symm
    · rw [same]
      exact ⟨hk, rfl⟩
  · have index : (f.startColumn k).val = f.slackIndex k := by rw [startColumn, dif_neg hk]
    have sense : f.rows[k].sense = .lessEqual := by simpa [FormRow.hasArtificial] using hk
    have slack : f.rows[k].hasSlack = true := by rw [FormRow.hasSlack, sense]; rfl
    have above := slackIndex_lt slack
    have below : f.columns.size ≤ f.slackIndex k := Nat.le_add_right _ _
    rw [dif_neg (by omega), if_pos (by omega), index]
    by_cases hi : i = k
    · rw [if_pos hi, hi, if_pos ⟨slack, rfl⟩, sense]
      rfl
    · rw [if_neg hi, if_neg fun h => hi ((slackIndex_inj slack h.1).mp h.2).symm]

/-- The columns of a basis have marks, and no others. -/
theorem get_marksOf {m w : Nat} (basis : Vector (Fin w) m) (j : Fin w) :
    (marksOf basis).get j = true ↔ ∃ i : Fin m, basis.get i = j := by
  unfold marksOf
  apply foldl_rule (Q := fun marks : Vector Bool w =>
      marks.get j = true ↔ ∃ i : Fin m, basis.get i = j)
    fun l marks => marks.get j = true ↔ ∃ i ∈ l, basis.get i = j
  · simp [Vector.get_eq_getElem]
  · intro l i marks known
    rw [get_set]
    split
    next same => simp [same]
    next other => simp [known, Ne.symm other]
  · intro marks known
    simp [known]

/-- The marks of the first tableau are right. -/
theorem marked_tableau (f : Form Rat) : f.tableau.Marked := get_marksOf f.tableau.basis

/-- The first tableau has a feasible basic solution if no right-hand side is negative. -/
theorem reaches_start (turned : f.IsTurned) : Reaches f.width f.tableau f.tableau where
  canonical := f.canonical_tableau
  marked := f.marked_tableau
  nonneg i := rhs_tableau i ▸ turned i
  solves _ := Iff.rfl
  rhs_idle i high := absurd (f.tableau.basis.get i).2 high.not_gt
  idle i high := absurd (f.tableau.basis.get i).2 high.not_gt

/-! ### Points of the first tableau -/

/-- The slack column of an inequality. -/
def slackColumn (f : Form Rat) (i : Fin f.rows.size) (h : f.rows[i].hasSlack = true) :
    Fin f.width :=
  ⟨f.slackIndex i, (slackIndex_lt h).trans_le (Nat.le_add_right _ _)⟩

/-- The share of the slack in a row. -/
def slackShare (f : Form Rat) (y : Fin f.width → Rat) (i : Fin f.rows.size) : Rat :=
  if h : f.rows[i].hasSlack = true then slackSign f.rows[i].sense * y (f.slackColumn i h) else 0

/-- The artificial column of a row that no slack can solve. -/
def artificialColumn (f : Form Rat) (i : Fin f.rows.size) (h : f.rows[i].hasArtificial = true) :
    Fin f.width :=
  ⟨f.artificialIndex i, artificialIndex_lt h⟩

/-- The share of the artificial column in a row. -/
def artificialShare (f : Form Rat) (y : Fin f.width → Rat) (i : Fin f.rows.size) : Rat :=
  if h : f.rows[i].hasArtificial = true then y (f.artificialColumn i h) else 0

/-- A sum over the structural columns is one over all columns. -/
theorem sum_column (f : Form Rat) (g : Fin f.columns.size → Rat) (y : Fin f.width → Rat) :
    ∑ k, g k * y (f.column k) =
      ∑ j : Fin f.width, (if h : j.val < f.columns.size then g ⟨j, h⟩ else 0) * y j := by
  refine Fintype.sum_of_injective f.column (Fin.castLE_injective f.size_le_width) _ _ ?_ ?_
  · intro j outside
    have above : ¬ j.val < f.columns.size := fun h => outside ⟨⟨j, h⟩, rfl⟩
    rw [dif_neg above, zero_mul]
  · intro k
    have below : (f.column k).val < f.columns.size := k.2
    rw [dif_pos below]
    rfl

/-- The value of the one column that a row may have at a place is a sum over all columns. -/
theorem sum_place {P : Prop} [Decidable P] (index : Nat) (column : P → Fin f.width)
    (place : ∀ h, (column h).val = index) (g : Fin f.width → Rat) :
    (if h : P then g (column h) else 0) =
      ∑ j : Fin f.width, if P ∧ j.val = index then g j else 0 := by
  by_cases h : P
  · rw [dif_pos h, Finset.sum_eq_single (column h)]
    · exact (if_pos ⟨h, place h⟩).symm
    · intro j _ other
      exact if_neg fun same => other (Fin.ext (same.2.trans (place h).symm))
    · simp
  · rw [dif_neg h]
    exact (Finset.sum_eq_zero fun j _ => if_neg fun same => h same.1).symm

/-- A row of the first tableau is the row of the form with its slack and its artificial column. -/
theorem sum_entry_eq (y : Fin f.width → Rat) (i : Fin f.rows.size) :
    ∑ j, f.tableau.entry i j * y j =
      f.rows[i].activity (fun k => y (f.column k)) + f.slackShare y i + f.artificialShare y i := by
  have slack := sum_place (f.slackIndex i) (f.slackColumn i) (fun _ => rfl)
    fun j => slackSign f.rows[i].sense * y j
  have artificial := sum_place (f.artificialIndex i) (f.artificialColumn i) (fun _ => rfl) y
  rw [FormRow.activity, sum_column, slackShare, artificialShare, slack, artificial,
    ← Finset.sum_add_distrib, ← Finset.sum_add_distrib]
  refine Finset.sum_congr rfl fun j _ => ?_
  rw [entry_tableau]
  have first : f.columns.size ≤ f.slackIndex i := Nat.le_add_right _ _
  have last : f.artificialStart ≤ f.artificialIndex i := Nat.le_add_right _ _
  have order : f.columns.size ≤ f.artificialStart := Nat.le_add_right _ _
  by_cases structural : j.val < f.columns.size
  · rw [dif_pos structural, dif_pos structural, if_neg (by omega), if_neg (by omega), add_zero,
      add_zero]
    rfl
  · rw [dif_neg structural, dif_neg structural, zero_mul, zero_add]
    by_cases below : j.val < f.artificialStart
    · have apart : ¬ (f.rows[i].hasArtificial = true ∧ j.val = f.artificialIndex i) :=
        fun artificial => below.not_ge (artificial.2 ▸ last)
      rw [if_pos below, if_neg apart, add_zero, ite_mul, zero_mul]
    · have apart : ¬ (f.rows[i].hasSlack = true ∧ j.val = f.slackIndex i) := fun slack =>
        below (slack.2 ▸ slackIndex_lt slack.1)
      rw [if_neg below, if_neg apart, zero_add, ite_mul, one_mul, zero_mul]

/-- A row of the first tableau at a point without artificial columns is the row of the form with its
slack. -/
theorem sum_entry {y : Fin f.width → Rat} (unused : ∀ j, f.artificialStart ≤ j.val → y j = 0)
    (i : Fin f.rows.size) :
    ∑ j, f.tableau.entry i j * y j =
      f.rows[i].activity (fun k => y (f.column k)) + f.slackShare y i := by
  have share : f.artificialShare y i = 0 := by
    unfold artificialShare
    split
    · exact unused _ (Nat.le_add_right _ _)
    · rfl
  rw [sum_entry_eq, share, add_zero]

/-- Values that are not negative keep a row on its side of the right-hand side. -/
theorem relates_slackShare {y : Fin f.width → Rat} (nonneg : ∀ j, 0 ≤ y j) (i : Fin f.rows.size)
    (a : Rat) : f.rows[i].sense.Relates a (a + f.slackShare y i) := by
  unfold slackShare
  split
  next h =>
    have value := nonneg (f.slackColumn i h)
    rw [FormRow.hasSlack] at h
    cases sense : f.rows[i].sense with
    | lessEqual => simpa [RowSense.Relates, slackSign] using value
    | greaterEqual => simpa [RowSense.Relates, slackSign] using value
    | equal =>
      rw [sense] at h
      exact absurd h (by decide)
  next h =>
    have sense : f.rows[i].sense = .equal := by simpa [FormRow.hasSlack] using h
    rw [sense, add_zero]
    rfl

/-- A point of the first tableau satisfies the rows. -/
theorem Meets.holds {y : Fin f.width → Rat} (h : f.Meets y) :
    f.Holds fun k => y (f.column k) := by
  intro i
  have row := (sum_entry h.unused i).symm.trans (h.solves i)
  rw [rhs_tableau] at row
  rw [FormRow.Holds, ← row]
  exact relates_slackShare h.nonneg i _

/-- What a slack has to make up for in a row. -/
def lack (f : Form Rat) (x : Fin f.columns.size → Rat) (i : Fin f.rows.size) : Rat :=
  slackSign f.rows[i].sense * (f.rows[i].rhs - f.rows[i].activity x)

/-- Where a row holds, its slack is not negative. -/
theorem lack_nonneg {x : Fin f.columns.size → Rat} (h : f.rows[i].Holds x) : 0 ≤ f.lack x i := by
  unfold lack
  rw [FormRow.Holds] at h
  cases sense : f.rows[i].sense with
  | lessEqual =>
    rw [sense] at h
    exact mul_nonneg zero_le_one (sub_nonneg.mpr h)
  | greaterEqual =>
    rw [sense] at h
    exact mul_nonneg_of_nonpos_of_nonpos (neg_nonpos.mpr zero_le_one) (sub_nonpos.mpr h)
  | equal =>
    rw [sense] at h
    exact mul_nonneg zero_le_one (sub_nonneg.mpr (le_of_eq h))

/-- The point of the tableau that belongs to a point of the rows: every slack makes up for what its
row lacks. -/
def withSlacks (f : Form Rat) (x : Fin f.columns.size → Rat) (j : Fin f.width) : Rat :=
  if h : j.val < f.columns.size then x ⟨j, h⟩
  else ∑ i : Fin f.rows.size, if f.rows[i].hasSlack ∧ j.val = f.slackIndex i then f.lack x i else 0

/-- The structural columns of a point with slacks. -/
theorem withSlacks_column (x : Fin f.columns.size → Rat) (k : Fin f.columns.size) :
    f.withSlacks x (f.column k) = x k := by
  have below : (f.column k).val < f.columns.size := k.2
  rw [withSlacks, dif_pos below]
  rfl

/-- The slack column of a row in a point with slacks. -/
theorem withSlacks_slackColumn (x : Fin f.columns.size → Rat) (h : f.rows[i].hasSlack = true) :
    f.withSlacks x (f.slackColumn i h) = f.lack x i := by
  have structural : ¬ (f.slackColumn i h).val < f.columns.size :=
    not_lt.mpr (Nat.le_add_right _ _)
  rw [withSlacks, dif_neg structural, Finset.sum_eq_single i]
  · exact if_pos ⟨h, rfl⟩
  · intro k _ other
    exact if_neg fun same => other ((slackIndex_inj h same.1).mp same.2).symm
  · simp

/-- The slack of a row makes up for what the row lacks, where the row holds. -/
theorem slackShare_withSlacks {x : Fin f.columns.size → Rat} (holds : f.rows[i].Holds x) :
    f.slackShare (f.withSlacks x) i = f.rows[i].rhs - f.rows[i].activity x := by
  unfold slackShare
  split
  next h =>
    have sign : slackSign f.rows[i].sense * slackSign f.rows[i].sense = (1 : Rat) := by
      unfold slackSign
      split
      · norm_num
      · norm_num
    rw [withSlacks_slackColumn x h, lack, ← mul_assoc, sign, one_mul]
  next h =>
    have sense : f.rows[i].sense = .equal := by simpa [FormRow.hasSlack] using h
    rw [FormRow.Holds, sense] at holds
    exact (sub_eq_zero.mpr (Eq.symm holds)).symm

/-- A point of the rows gives one of the first tableau. -/
theorem meets_withSlacks {x : Fin f.columns.size → Rat} (nonneg : ∀ k, 0 ≤ x k)
    (holds : f.Holds x) : f.Meets (f.withSlacks x) := by
  have unused (j : Fin f.width) (hj : f.artificialStart ≤ j.val) : f.withSlacks x j = 0 := by
    have structural : ¬ j.val < f.columns.size := by
      simp only [artificialStart] at hj
      omega
    rw [withSlacks, dif_neg structural]
    refine Finset.sum_eq_zero fun i _ => if_neg fun h => ?_
    have := slackIndex_lt h.1
    omega
  refine ⟨fun i => ?_, fun j => ?_, unused⟩
  · rw [sum_entry unused, slackShare_withSlacks (holds i), rhs_tableau]
    simp only [withSlacks_column]
    exact add_sub_cancel _ _
  · unfold withSlacks
    split
    · exact nonneg _
    · refine Finset.sum_nonneg fun i _ => ?_
      split
      · exact lack_nonneg (holds i)
      · exact le_rfl

/-- The variable of a column. -/
def columnVar (columns : Array Var) : Fin columns.size → Var
  | ⟨k, _⟩ => columns[k]

/-- The variable of a column is one of the columns' variables. -/
theorem columnVar_mem {columns : Array Var} (k : Fin columns.size) :
    columnVar columns k ∈ columns := Array.getElem_mem k.2

/-- What a unit of a structural column costs in the second phase. -/
def columnCost (f : Form Rat) (p : Problem Rat) (k : Fin f.columns.size) : Rat :=
  p.sense.sign * p.objectiveAt (columnVar f.columns k)

/-- The cost of the second phase is that of the structural columns. -/
theorem sum_phaseTwoCost (p : Problem Rat) (y : Fin f.width → Rat) :
    ∑ j : Fin f.width, (f.phaseTwoCost p).get j * y j =
      ∑ k, f.columnCost p k * y (f.column k) := by
  rw [sum_column]
  refine Finset.sum_congr rfl fun j _ => ?_
  have cost : (f.phaseTwoCost p).get j =
      if h : j.val < f.columns.size then f.columnCost p ⟨j, h⟩ else 0 := by
    rw [phaseTwoCost, Vector.get_eq_getElem, Vector.getElem_ofFn]
    simp only [columnCost]
    cases p.sense
    · simp only [Sense.sign, one_mul]
      rfl
    · simp only [Sense.sign, neg_one_mul]
      rfl
  rw [cost]

end Form
end Milp.Relaxation
