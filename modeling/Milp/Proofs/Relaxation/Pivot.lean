import Mathlib
import Milp.Relaxation.Tableau

/-!
# What a pivot does

A pivot of a tableau over exact numbers is stored row by row, and skips what is zero. This file says
what that amounts to, entry by entry, and draws the three conclusions that the simplex method rests
on:

* `entry_pivot`, `rhs_pivot`, `basis_pivot`, `isBasic_pivot` — the tableau after a pivot.
* `solves_pivot` — a pivot keeps the solutions of the equations, if right-hand sides are not
  clipped; where they are, it moves them (`Canonical.solves_pivot_iff`).
* `Canonical.pivot` — every row stays solved for its basic column.
* `spread` — the point with given values of the basic columns; `Canonical.sum_entry_spread` reads
  these values off the rows again, so the basic solution is a solution.
-/

namespace Milp.Relaxation.Tableau

variable {m w : Nat} {tols : Tolerances Rat} {t : Tableau Rat m w} {r : Fin m} {c : Fin w}

/-! ### Entries after a pivot -/

/-- Taking listed entries off a row changes the entries that are listed. -/
theorem get_takeOff (f : Rat) (g : Fin w → Rat) {js : List (Fin w)} (nodup : js.Nodup)
    (row : Vector Rat w) (k : Fin w) :
    (takeOff f (js.map fun j => (j, g j)) row).get k =
      if k ∈ js then row.get k - f * g k else row.get k := by
  induction js generalizing row with
  | nil => rfl
  | cons j js ih =>
    obtain ⟨fresh, nodup⟩ := List.nodup_cons.mp nodup
    have step : takeOff f ((j :: js).map fun j => (j, g j)) row =
        takeOff f (js.map fun j => (j, g j)) (row.set j (row.get j - f * g j)) := rfl
    rw [step, ih nodup]
    by_cases hk : k = j
    · subst hk
      simp [fresh, Vector.get_eq_getElem]
    · have other : ¬ (j : Nat) = k := fun h => hk (Fin.ext h.symm)
      simp [hk, other, Vector.get_eq_getElem]

/-- The entries of a row that are taken off the other rows are those that are not zero. -/
theorem entriesBut_filter (c : Fin w) (row : Vector Rat w) :
    (entriesBut c row).filter (fun e => !(e.2 == 0)) =
      ((List.finRange w).filter fun j => j ≠ c ∧ row.get j ≠ 0).map fun j => (j, row.get j) := by
  unfold entriesBut
  induction List.finRange w with
  | nil => rfl
  | cons j js ih =>
    by_cases hj : j = c
    · simpa [hj] using ih
    · by_cases zero : row[j.val] = 0
      · simpa [List.filter_cons, hj, zero, Vector.get_eq_getElem] using ih
      · simpa [List.filter_cons, hj, zero, Vector.get_eq_getElem] using ih

/-- A row is cleared of column `c` by taking a multiple of a divided row off it. -/
theorem get_cleared (row : Vector Rat w) {divided : Vector Rat w} (one : divided.get c = 1)
    (j : Fin w) :
    ((takeOff (row.get c) ((entriesBut c divided).filter fun e => !(e.2 == 0)) row).set c 0
      c.isLt).get j = row.get j - row.get c * divided.get j := by
  by_cases hj : j = c
  · rw [hj, one]
    simp [Vector.get_eq_getElem]
  · have other : ¬ (c : Nat) = j := fun h => hj (Fin.ext h.symm)
    have nodup := (List.nodup_finRange w).filter fun j => j ≠ c ∧ divided.get j ≠ 0
    have taken := get_takeOff (row.get c) (fun j => divided.get j) nodup row j
    rw [entriesBut_filter, Vector.get_eq_getElem, Vector.getElem_set, if_neg other,
      ← Vector.get_eq_getElem, taken]
    by_cases zero : divided.get j = 0
    · simp only [zero, mul_zero, sub_zero, ite_self]
    · rw [if_pos (by simpa [hj] using zero)]

/-- A pivot divides the row of the pivot and takes its multiples off the others. -/
theorem entry_pivot (pivot_ne : t.entry r c ≠ 0) (i : Fin m) (j : Fin w) :
    (t.pivot tols r c).entry i j =
      if i = r then t.entry r j / t.entry r c
      else t.entry i j - t.entry i c * (t.entry r j / t.entry r c) := by
  obtain ⟨entries, rhs, basis, marks⟩ := t
  simp only [entry] at pivot_ne
  have line (k : Fin w) : (entries[r].map (· / entries[r][c])).get k =
      entries[r][k] / entries[r][c] := by simp [Vector.get_eq_getElem]
  by_cases hi : i = r
  · subst hi
    simp [pivot, entry]
  · have other : ¬ (r : Nat) = i := fun h => hi (Fin.ext h.symm)
    have cleared := get_cleared entries[i] ((line c).trans (div_self pivot_ne)) j
    rw [line] at cleared
    by_cases zero : entries[i.val][c.val] = 0
    · simp [pivot, entry, other, hi, zero]
    · simpa [pivot, entry, other, hi, zero, Vector.get_eq_getElem] using cleared

/-- A right-hand side that changes as the entries do. -/
def exchanged (t : Tableau Rat m w) (r : Fin m) (c : Fin w) (i : Fin m) : Rat :=
  if i = r then t.rhs.get r / t.entry r c
  else t.rhs.get i - t.entry i c * (t.rhs.get r / t.entry r c)

/-- The right-hand sides change as the entries do, but those that become slightly negative are
clipped. -/
theorem rhs_pivot_eq (i : Fin m) :
    (t.pivot tols r c).rhs.get i =
      if i ≠ r ∧ t.entry i c ≠ 0 ∧ t.exchanged r c i < 0 ∧ -tols.ratio < t.exchanged r c i then 0
      else t.exchanged r c i := by
  obtain ⟨entries, rhs, basis, marks⟩ := t
  by_cases hi : i = r
  · subst hi
    simp [pivot, exchanged, entry, Vector.get_eq_getElem]
  · have other : ¬ (r : Nat) = i := fun h => hi (Fin.ext h.symm)
    by_cases zero : entries[i.val][c.val] = 0
    · simp [pivot, exchanged, entry, other, hi, zero, Vector.get_eq_getElem]
    · simp [pivot, exchanged, entry, other, hi, zero, Vector.get_eq_getElem]

/-- What is clipped is never more than the ratio tolerance, and no right-hand side is lowered. -/
theorem rhs_pivot_mem (nonneg : 0 ≤ tols.ratio) (i : Fin m) :
    t.exchanged r c i ≤ (t.pivot tols r c).rhs.get i ∧
      (t.pivot tols r c).rhs.get i ≤ t.exchanged r c i + tols.ratio := by
  rw [rhs_pivot_eq]
  split
  next clipped => exact ⟨clipped.2.2.1.le, neg_le_iff_add_nonneg.mp clipped.2.2.2.le⟩
  next => exact ⟨le_rfl, le_add_of_nonneg_right nonneg⟩

/-- The right-hand sides change as the entries do, if none is clipped. -/
theorem rhs_pivot (ratio : tols.ratio = 0) (i : Fin m) :
    (t.pivot tols r c).rhs.get i =
      if i = r then t.rhs.get r / t.entry r c
      else t.rhs.get i - t.entry i c * (t.rhs.get r / t.entry r c) := by
  obtain ⟨above, below⟩ := rhs_pivot_mem (t := t) (r := r) (c := c) ratio.ge i
  rw [ratio, add_zero] at below
  exact le_antisymm below above

/-- The right-hand side of a row without an entry in the column stays. -/
theorem rhs_pivot_of_zero {i : Fin m} (other : i ≠ r) (zero : t.entry i c = 0) :
    (t.pivot tols r c).rhs.get i = t.rhs.get i := by
  rw [rhs_pivot_eq, if_neg fun h => h.2.1 zero, exchanged, if_neg other, zero, zero_mul, sub_zero]

/-- The column of the pivot becomes basic in its row. -/
theorem basis_pivot (i : Fin m) :
    (t.pivot tols r c).basis.get i = if i = r then c else t.basis.get i := by
  obtain ⟨entries, rhs, basis, marks⟩ := t
  by_cases hi : i = r
  · subst hi
    simp [pivot, Vector.get_eq_getElem]
  · have other : ¬ (r : Nat) = i := fun h => hi (Fin.ext h.symm)
    simp [pivot, other, hi, Vector.get_eq_getElem]

/-! ### Marks -/

/-- A mark after one of them is set or cleared. -/
theorem get_set (marks : Vector Bool w) (j k : Fin w) (b : Bool) :
    (marks.set j b j.isLt).get k = if k = j then b else marks.get k := by
  rw [Vector.get_eq_getElem, Vector.get_eq_getElem, Vector.getElem_set]
  exact if_congr (by rw [Fin.ext_iff, eq_comm]) rfl rfl

/-- The mark moves from the column that leaves to the one that enters. -/
theorem isBasic_pivot (j : Fin w) :
    (t.pivot tols r c).isBasic j =
      if j = c then true else if j = t.basis.get r then false else t.isBasic j := by
  obtain ⟨entries, rhs, basis, marks⟩ := t
  simp only [isBasic, pivot, get_set]

/-- Whether the marks are those of the columns that rows are solved for. -/
def Marked (t : Tableau Rat m w) : Prop := ∀ j, t.isBasic j = true ↔ ∃ i : Fin m, t.basis.get i = j

/-- A column without a mark is one that no row is solved for. -/
theorem Marked.isBasic_eq_false_iff (h : t.Marked) {j : Fin w} :
    t.isBasic j = false ↔ ∀ i : Fin m, t.basis.get i ≠ j := by
  rw [← Bool.not_eq_true, h j, not_exists]

/-- A pivot keeps the marks right, unless two rows are solved for the same column. -/
theorem Marked.pivot (h : t.Marked) (injective : Function.Injective t.basis.get) :
    (t.pivot tols r c).Marked := by
  intro j
  simp only [isBasic_pivot, basis_pivot]
  by_cases entered : j = c
  · simp only [entered, if_true, true_iff]
    exact ⟨r, if_pos rfl⟩
  · by_cases left : j = t.basis.get r
    · simp only [if_neg entered, if_pos left, Bool.false_eq_true, false_iff, not_exists]
      intro i same
      by_cases hi : i = r
      · rw [if_pos hi] at same
        exact entered same.symm
      · rw [if_neg hi, left] at same
        exact hi (injective same)
    · rw [if_neg entered, if_neg left, h j]
      refine exists_congr fun i => ?_
      by_cases hi : i = r
      · simp only [hi, if_true]
        exact ⟨fun same => absurd same.symm left, fun same => absurd same.symm entered⟩
      · rw [if_neg hi]

/-! ### Solutions -/

/-- Whether a point solves the equations of a tableau. -/
def Solves (t : Tableau Rat m w) (y : Fin w → Rat) : Prop :=
  ∀ i, ∑ j, t.entry i j * y j = t.rhs.get i

/-- Whether every row is solved for its basic column. -/
def Canonical (t : Tableau Rat m w) : Prop :=
  ∀ i k, t.entry i (t.basis.get k) = if i = k then 1 else 0

/-- A row of a pivoted tableau at a point. -/
theorem sum_entry_pivot (pivot_ne : t.entry r c ≠ 0) (y : Fin w → Rat) (i : Fin m) :
    ∑ j, (t.pivot tols r c).entry i j * y j =
      if i = r then (∑ j, t.entry r j * y j) / t.entry r c
      else (∑ j, t.entry i j * y j) - t.entry i c * ((∑ j, t.entry r j * y j) / t.entry r c) := by
  simp only [entry_pivot pivot_ne]
  by_cases hi : i = r
  · simp only [hi, if_true, Finset.sum_div]
    exact Finset.sum_congr rfl fun j _ => by ring
  · simp only [hi, if_false, Finset.sum_div, Finset.mul_sum, ← Finset.sum_sub_distrib]
    exact Finset.sum_congr rfl fun j _ => by ring

/-- A pivot keeps the solutions, as far as the right-hand sides change as the entries do. -/
theorem sum_entry_pivot_eq_iff (tols : Tolerances Rat) (pivot_ne : t.entry r c ≠ 0)
    (y : Fin w → Rat) :
    (∀ i, ∑ j, (t.pivot tols r c).entry i j * y j = t.exchanged r c i) ↔ t.Solves y := by
  unfold Solves
  simp only [sum_entry_pivot pivot_ne, exchanged]
  constructor
  · intro h
    have pivotRow : ∑ j, t.entry r j * y j = t.rhs.get r := by
      have scaled := h r
      simp only [if_true] at scaled
      exact (div_left_inj' pivot_ne).mp scaled
    intro i
    by_cases hi : i = r
    · rw [hi, pivotRow]
    · have cleared := h i
      simp only [hi, if_false, pivotRow] at cleared
      linarith
  · intro h i
    rw [h i, h r]

/-- A pivot keeps the solutions. -/
theorem solves_pivot (ratio : tols.ratio = 0) (pivot_ne : t.entry r c ≠ 0) (y : Fin w → Rat) :
    (t.pivot tols r c).Solves y ↔ t.Solves y := by
  rw [← sum_entry_pivot_eq_iff tols pivot_ne]
  exact forall_congr' fun i => by rw [rhs_pivot ratio, exchanged]

/-- A pivot solves its row for its column and leaves the others solved. -/
theorem Canonical.pivot (h : t.Canonical) (pivot_ne : t.entry r c ≠ 0) :
    (t.pivot tols r c).Canonical := by
  intro i k
  rw [basis_pivot, entry_pivot pivot_ne]
  by_cases hk : k = r
  · rw [if_pos hk, hk, div_self pivot_ne, mul_one, sub_self]
  · rw [if_neg hk, h r k, if_neg (Ne.symm hk), zero_div, mul_zero, sub_zero, h i k]
    by_cases hi : i = r
    · rw [if_pos hi, hi, if_neg (Ne.symm hk)]
    · rw [if_neg hi]

/-- No column is basic in two rows. -/
theorem Canonical.basis_injective (h : t.Canonical) {i k : Fin m}
    (same : t.basis.get i = t.basis.get k) : i = k := by
  by_contra other
  have one := h i i
  rw [same, h i k, if_neg other, if_pos rfl] at one
  exact zero_ne_one one

/-- The basis holds a column of its own for every row. -/
theorem Canonical.injective (h : t.Canonical) : Function.Injective t.basis.get :=
  fun _ _ => h.basis_injective

/-! ### Points with given basic values -/

/-- The point with given values of the basic columns; the other columns are zero. -/
def spread (t : Tableau Rat m w) (b : Fin m → Rat) (j : Fin w) : Rat :=
  ∑ i, if t.basis.get i = j then b i else 0

/-- A linear function of a point with given basic values. -/
theorem sum_mul_spread (a : Fin w → Rat) (b : Fin m → Rat) :
    ∑ j, a j * t.spread b j = ∑ i, a (t.basis.get i) * b i := by
  simp only [spread, Finset.mul_sum]
  rw [Finset.sum_comm]
  refine Finset.sum_congr rfl fun i _ => ?_
  simp

/-- A point with basic values that are not negative has no negative values. -/
theorem spread_nonneg {b : Fin m → Rat} (nonneg : ∀ i, 0 ≤ b i) (j : Fin w) :
    0 ≤ t.spread b j := by
  refine Finset.sum_nonneg fun i _ => ?_
  split
  · exact nonneg i
  · exact le_rfl

/-- A column is zero in a point if the rows where it is basic have the value zero. -/
theorem spread_eq_zero {b : Fin m → Rat} {j : Fin w} (zero : ∀ i, t.basis.get i = j → b i = 0) :
    t.spread b j = 0 := by
  refine Finset.sum_eq_zero fun i _ => ?_
  split
  · exact zero i ‹_›
  · rfl

/-- The basic value of a row is that of its basic column. -/
theorem Canonical.spread_basis (h : t.Canonical) (b : Fin m → Rat) (i : Fin m) :
    t.spread b (t.basis.get i) = b i := by
  unfold spread
  rw [Finset.sum_eq_single i]
  · rw [if_pos rfl]
  · intro k _ other
    rw [if_neg fun same => other (h.basis_injective same)]
  · simp

/-- A row of a canonical tableau at a point with given basic values. -/
theorem Canonical.sum_entry_spread (h : t.Canonical) (b : Fin m → Rat) (i : Fin m) :
    ∑ j, t.entry i j * t.spread b j = b i := by
  rw [sum_mul_spread]
  simp only [h i, ite_mul, one_mul, zero_mul, Finset.sum_ite_eq, Finset.mem_univ, if_true]

/-- The basic solution: the basic columns have the values of the right-hand sides. -/
def basic (t : Tableau Rat m w) : Fin w → Rat := t.spread fun i => t.rhs.get i

/-- The basic solution is a solution. -/
theorem Canonical.solves_basic (h : t.Canonical) : t.Solves t.basic :=
  fun i => h.sum_entry_spread _ i

/-- What a pivot clips off the right-hand sides. -/
def clipped (tols : Tolerances Rat) (t : Tableau Rat m w) (r : Fin m) (c : Fin w) (i : Fin m) : Rat :=
  (t.pivot tols r c).rhs.get i - t.exchanged r c i

/-- A pivot moves the solutions by what it clips off: the basic columns take it up. -/
theorem Canonical.solves_pivot_iff (h : t.Canonical) (pivot_ne : t.entry r c ≠ 0)
    (y : Fin w → Rat) :
    (t.pivot tols r c).Solves y ↔
      t.Solves fun j => y j - (t.pivot tols r c).spread (clipped tols t r c) j := by
  rw [← sum_entry_pivot_eq_iff tols pivot_ne]
  refine forall_congr' fun i => ?_
  simp only [mul_sub, Finset.sum_sub_distrib, (h.pivot pivot_ne).sum_entry_spread, clipped]
  exact ⟨fun same => by linarith, fun same => by linarith⟩

end Milp.Relaxation.Tableau
