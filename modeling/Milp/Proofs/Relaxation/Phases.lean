import Milp.Proofs.Relaxation.Optimality
import Milp.Relaxation.Solve

/-!
# The two phases
-/

namespace Milp.Relaxation

namespace Tableau

variable {m w : Nat} {tols : Tolerances Rat} {rank : Vector Nat w} {limit : Nat}
  {t₀ t : Tableau Rat m w}

/-- The column that replaces a basic one lies below the limit, is not basic, and has a coefficient
in the row; if there is none, all columns below the limit that are not basic are zero there. -/
theorem replacement?_spec (sharp : tols.Sharp) (marked : t.Marked) (i : Fin m) :
    (∀ c, t.replacement? tols rank limit i = some c →
      c.val < limit ∧ t.entry i c ≠ 0 ∧ ∀ k : Fin m, t.basis.get k ≠ c) ∧
    (t.replacement? tols rank limit i = none →
      ∀ j, ¬ (j.val < limit ∧ t.entry i j ≠ 0 ∧ ∀ k : Fin m, t.basis.get k ≠ j)) := by
  apply foldl_pick
  · intro best j
    simp only [sharp.pivot, Scalar.abs_eq, abs_pos, Bool.and_eq_true, decide_eq_true_eq,
      Bool.not_eq_true', marked.isBasic_eq_false_iff]
    by_cases may : j.val < limit ∧ t.entry i j ≠ 0 ∧ ∀ k : Fin m, t.basis.get k ≠ j
    · exact (ite_eq_or_eq _ _ _).symm.imp_right fun taken => ⟨may, taken⟩
    · exact .inl (if_neg fun h => may ⟨h.1.1.2, h.2, h.1.2⟩)
  · intro j may
    simp only [sharp.pivot, Scalar.abs_eq, abs_pos.mpr may.2.1, may.1,
      marked.isBasic_eq_false_iff.mpr may.2.2, decide_true, Bool.not_false, Bool.and_true, if_true]

/-- A pivot in a row with the value zero changes no value. -/
theorem Settled.pivot_zero {i : Fin m} {c : Fin w} (h : Settled limit t₀ t) (sharp : tols.Sharp)
    (zero : t.rhs.get i = 0) (below : c.val < limit) (pivot_ne : t.entry i c ≠ 0) :
    Settled limit t₀ (t.pivot tols i c) := by
  have rhs (k : Fin m) : (t.pivot tols i c).rhs.get k = t.rhs.get k := by
    rw [rhs_pivot sharp.ratio, zero, zero_div, mul_zero, sub_zero]
    split
    next same => rw [same, zero]
    next => rfl
  refine ⟨h.canonical.pivot pivot_ne, h.marked.pivot h.canonical.injective,
    fun k => rhs k ▸ h.nonneg k,
    fun y => (solves_pivot sharp.ratio pivot_ne y).trans (h.solves y), fun k high => ?_⟩
  rw [rhs]
  rw [basis_pivot] at high
  split at high
  next => exact absurd below high.not_gt
  next => exact h.rhs_idle k high

/-- A row that is solved for a column from the limit on is idle if no column can take its place. -/
theorem Canonical.idle (h : t.Canonical) {i : Fin m}
    (none : ∀ j, ¬ (j.val < limit ∧ t.entry i j ≠ 0 ∧ ∀ k : Fin m, t.basis.get k ≠ j)) :
    t.Idle limit i := by
  intro high j hj
  by_contra entry_ne
  refine none j ⟨hj, entry_ne, fun k same => ?_⟩
  -- a basic column has an entry in its own row only
  subst same
  rw [h i k, ite_eq_right_iff, not_forall] at entry_ne
  exact hj.not_ge (entry_ne.1 ▸ high)

/-- A row that is solved for a column below the limit is idle. -/
theorem Idle.of_lt {i : Fin m} (low : (t.basis.get i).val < limit) : t.Idle limit i :=
  fun high => absurd low high.not_gt

/-- What driving out keeps: of the columns from the limit on all have the value zero, and the rows
that are done are idle. -/
structure Driven (limit : Nat) (t₀ t : Tableau Rat m w) (done : List (Fin m)) : Prop
    extends Settled limit t₀ t where
  idle : ∀ i ∈ done, t.Idle limit i

namespace Driven

variable {done : List (Fin m)} {i : Fin m} {c : Fin w}

/-- A row that is idle is done without a pivot. -/
theorem keep (h : Driven limit t₀ t done) (idle : t.Idle limit i) :
    Driven limit t₀ t (done ++ [i]) :=
  ⟨h.toSettled, List.forall_mem_append.mpr ⟨h.idle, List.forall_mem_singleton.mpr idle⟩⟩

/-- A row where another column takes the place of the basic one is done with that pivot. -/
theorem replace (h : Driven limit t₀ t done) (sharp : tols.Sharp)
    (high : limit ≤ (t.basis.get i).val) (some : t.replacement? tols rank limit i = some c) :
    Driven limit t₀ (t.pivot tols i c) (done ++ [i]) := by
  obtain ⟨below, entry_ne, -⟩ := (replacement?_spec sharp h.marked i).1 c some
  refine ⟨h.toSettled.pivot_zero sharp (h.rhs_idle i high) below entry_ne,
    List.forall_mem_append.mpr ⟨fun k hk => (h.idle k hk).pivot entry_ne below, ?_⟩⟩
  refine List.forall_mem_singleton.mpr (.of_lt ?_)
  rwa [basis_pivot, if_pos rfl]

/-- Once all rows are done, all are idle. -/
theorem reaches (h : Driven limit t₀ t (List.finRange m)) : Reaches limit t₀ t :=
  ⟨h.toSettled, fun i => h.idle i (List.mem_finRange i)⟩

end Driven

/-- One step of driving out: if a row is solved for a column from the limit on, another column takes
its place where one can. -/
def driveRow (tols : Tolerances Rat) (rank : Vector Nat w) (limit : Nat) (t : Tableau Rat m w)
    (i : Fin m) : Tableau Rat m w :=
  if t.basis.get i < limit then t
  else
    match t.replacement? tols rank limit i with
    | none => t
    | some c => t.pivot tols i c

/-- Columns are driven out row by row. -/
theorem driveOut_eq (tols : Tolerances Rat) (rank : Vector Nat w) (limit : Nat)
    (t : Tableau Rat m w) :
    t.driveOut tols rank limit = (List.finRange m).foldl (driveRow tols rank limit) t :=
  Fin.foldl_eq_finRange_foldl _ _

/-- One more row is done after the step for it. -/
theorem Driven.driveRow {done : List (Fin m)} (h : Driven limit t₀ t done) (sharp : tols.Sharp)
    (i : Fin m) : Driven limit t₀ (t.driveRow tols rank limit i) (done ++ [i]) := by
  unfold Tableau.driveRow
  split
  next low => exact h.keep (.of_lt low)
  next high =>
    split
    next none => exact h.keep (h.canonical.idle ((replacement?_spec sharp h.marked i).2 none))
    next c some => exact h.replace sharp (not_lt.mp high) some

/-- The rows that columns have been driven out of are done. -/
theorem Settled.driven (h : Settled limit t₀ t) (sharp : tols.Sharp) (rows : List (Fin m)) :
    Driven limit t₀ (rows.foldl (driveRow tols rank limit) t) rows := by
  induction rows using List.reverseRecOn with
  | nil => exact ⟨h, nofun⟩
  | append_singleton rows i ih =>
    rw [List.foldl_append]
    exact ih.driveRow sharp i

/-- Once the columns from the limit on have the value zero, driving them out leaves them in idle
rows only. -/
theorem Settled.driveOut (sharp : tols.Sharp) (h : Settled limit t₀ t) :
    Reaches limit t₀ (t.driveOut tols rank limit) :=
  driveOut_eq tols rank limit t ▸ (h.driven sharp _).reaches

end Tableau

/-! ### The first phase -/

open Tableau

variable {m : Method Rat} {f : Form Rat}

/-- The cost of the first phase is the sum of the artificial columns. -/
theorem Form.sum_phaseOneCost (y : Fin f.width → Rat) :
    ∑ j : Fin f.width, f.phaseOneCost.get j * y j =
      ∑ j : Fin f.width, if j.val < f.artificialStart then 0 else y j := by
  refine Finset.sum_congr rfl fun j _ => ?_
  have cost : f.phaseOneCost.get j = if j.val < f.artificialStart then 0 else 1 := by
    simp [phaseOneCost, costFrom]
  rw [cost, ite_mul, zero_mul, one_mul]

/-- Whether a point solves the first tableau of a form without the artificial columns. -/
def Form.Meets (f : Form Rat) : (Fin f.width → Rat) → Prop := f.tableau.Meets f.artificialStart

/-- Without artificial columns the first phase costs nothing. -/
theorem Form.Meets.sum_phaseOneCost {y : Fin f.width → Rat} (h : f.Meets y) :
    ∑ j : Fin f.width, f.phaseOneCost.get j * y j = 0 := by
  rw [Form.sum_phaseOneCost]
  refine Finset.sum_eq_zero fun j _ => ?_
  split
  · rfl
  · exact h.unused j (not_lt.mp ‹_›)

/-- If the first phase ends without cost, all artificial columns have the value zero. -/
theorem settled_of_value {t : Tableau Rat f.rows.size f.width}
    (h : Reaches f.width f.tableau t) (value : t.value f.phaseOneCost ≤ 0) :
    Settled f.artificialStart f.tableau t := by
  refine ⟨h.canonical, h.marked, h.nonneg, h.solves, fun i high => ?_⟩
  rw [← sum_cost_basic, Form.sum_phaseOneCost] at value
  have shares (j : Fin f.width) : 0 ≤ if j.val < f.artificialStart then 0 else t.basic j := by
    split
    · exact le_rfl
    · exact spread_nonneg h.nonneg j
  have zero := (Finset.sum_eq_zero_iff_of_nonneg fun j _ => shares j).mp
    (le_antisymm value (Finset.sum_nonneg fun j _ => shares j)) (t.basis.get i) (Finset.mem_univ _)
  rw [if_neg high.not_gt] at zero
  rw [← h.canonical.spread_basis (fun i => t.rhs.get i) i]
  exact zero

/-- What the outcome of the first phase says of a form: it fails only when its pivots are used up;
an infeasible form has no points; and otherwise the artificial columns are gone, provided that the
form has a point where feasibility is not exact. -/
def PhaseOne.Right (m : Method Rat) (f : Form Rat) : PhaseOne Rat f.rows.size f.width → Prop
  | .failed e => e = .iterationLimit m.maxIterations
  | .infeasible _ => ∀ y, ¬ f.Meets y
  | .feasible t _ => m.tolerances.feasibility = 0 ∨ (∃ y, f.Meets y) →
      Reaches f.artificialStart f.tableau t

/-- The outcome of the first phase is right. -/
theorem Method.phaseOne_right (rank : Vector Nat f.width) (sharp : m.tolerances.Sharp)
    (nonneg : 0 ≤ m.tolerances.feasibility) (start : Reaches f.width f.tableau f.tableau) :
    (m.phaseOne f rank).Right m f := by
  unfold phaseOne
  by_cases none : f.artificialCount = 0
  · rw [if_pos none]
    have width : f.artificialStart = f.width := by rw [Form.width, none, Nat.add_zero]
    intro _
    rw [width]
    exact start
  · rw [if_neg none]
    obtain ⟨optimal, unbounded⟩ := run_spec sharp rank f.phaseOneCost m.maxIterations start
    split
    next => rfl
    next left ends =>
      -- no point costs less than nothing
      obtain ⟨y, meets, below⟩ := unbounded left ends 0
      rw [Form.sum_phaseOneCost] at below
      refine absurd below (not_lt.mpr (Finset.sum_nonneg fun j _ => ?_))
      split
      · exact le_rfl
      · exact meets.nonneg j
    next t left ends =>
      obtain ⟨reaches, priced⟩ := optimal t left ends
      have least {y : Fin f.width → Rat} (meets : f.Meets y) : t.value f.phaseOneCost ≤ 0 := by
        rw [← meets.sum_phaseOneCost]
        exact reaches.value_le priced ⟨meets.solves, meets.nonneg, fun j hj => absurd j.2 hj.not_gt⟩
      split
      next above =>
        intro y meets
        exact absurd (nonneg.trans_lt above) (least meets).not_gt
      next within =>
        intro exact_or_meets
        refine (settled_of_value reaches ?_).driveOut sharp
        rcases exact_or_meets with zero | ⟨y, meets⟩
        · exact zero ▸ not_lt.mp within
        · exact least meets

/-! ### The second phase -/

/-- What the outcome of both phases says of a form. An error says that the pivots are used up. -/
def Form.Answers (f : Form Rat) (p : Problem Rat) (box : Box Rat) :
    RelaxationResult Rat → Prop
  | .optimal objective values => ∃ t : Tableau Rat f.rows.size f.width,
      t.Canonical ∧ f.Meets t.basic ∧ values = f.values box t ∧
        objective = p.objectiveValue values ∧
        ∀ y, f.Meets y → ∑ j : Fin f.width, (f.phaseTwoCost p).get j * t.basic j ≤
          ∑ j : Fin f.width, (f.phaseTwoCost p).get j * y j
  | .infeasible => ∀ y, ¬ f.Meets y
  | .unbounded => ∀ b, ∃ y, f.Meets y ∧ ∑ j : Fin f.width, (f.phaseTwoCost p).get j * y j < b

/-- The outcome of both phases is right, provided that the form has a point where feasibility is not
exact. -/
theorem Method.solveForm_answers (sharp : m.tolerances.Sharp)
    (nonneg : 0 ≤ m.tolerances.feasibility) (start : Reaches f.width f.tableau f.tableau)
    (p : Problem Rat) (box : Box Rat) :
    (∀ e, m.solveForm p box f = .error e → e = .iterationLimit m.maxIterations) ∧
    (∀ relaxed, m.solveForm p box f = .ok relaxed →
      m.tolerances.feasibility = 0 ∨ (∃ y, f.Meets y) → f.Answers p box relaxed.result) := by
  have first := phaseOne_right (f.rank p.size m.columnRank) sharp nonneg start
  simp only [solveForm]
  generalize m.phaseOne f (f.rank p.size m.columnRank) = outcome at first
  rcases outcome with ⟨t, left⟩ | left | e
  · have second (exact_or_meets) := run_spec sharp (f.rank p.size m.columnRank) (f.phaseTwoCost p)
      left (first exact_or_meets)
    simp only
    generalize t.run _ _ _ _ left = run at second
    rcases run with ⟨t', left⟩ | left | _
    · have finite : (f.values box t').all Scalar.isFinite = true :=
        Array.all_eq_true_iff_forall_mem.mpr fun _ _ => rfl
      simp only [finite, if_true]
      refine ⟨nofun, fun relaxed same exact_or_meets => ?_⟩
      obtain rfl := Except.ok.inj same
      obtain ⟨reaches, priced⟩ := (second exact_or_meets).1 t' left rfl
      refine ⟨t', reaches.canonical, reaches.meets_basic, rfl, rfl, fun y meets => ?_⟩
      rw [sum_cost_basic]
      exact reaches.value_le priced meets
    · refine ⟨nofun, fun relaxed same exact_or_meets => ?_⟩
      obtain rfl := Except.ok.inj same
      exact (second exact_or_meets).2 left rfl
    · exact ⟨fun e same => (Except.error.inj same).symm, nofun⟩
  · refine ⟨nofun, fun relaxed same _ => ?_⟩
    obtain rfl := Except.ok.inj same
    exact first
  · exact ⟨fun e' same => Except.error.inj same ▸ first, nofun⟩

end Milp.Relaxation
