import Milp.Proofs.Relaxation.Phases

/-!
# What tolerances leave of the invariants

With tolerances of its own the simplex method errs in exact arithmetic too. A pivot clips right-hand
sides that become slightly negative, a row with a small coefficient does not stop a column that
enters, and an artificial column is driven out whatever its value is. So right-hand sides may become
negative, and points of one tableau need not be points of the next. What is left:

* `Drifts` — every row is solved for its basic column, and the solutions are those of the first
  tableau moved by what has been clipped, at most the ratio tolerance for each row and pivot.
* `residue` — how far a point is from having no negative values and no artificial columns. It grows by
  no more than the point is moved (`residue_sub_le`).
* `Rests` — rows that have nothing to give are not touched, whatever the tolerances are.
-/

namespace Milp.Relaxation

/-- Whether the tolerances of the simplex method are those of a method that works: none is negative,
and a coefficient of one may be a pivot. -/
structure Tolerances.Slight (tols : Tolerances Rat) : Prop where
  pivot_nonneg : 0 ≤ tols.pivot
  pivot_lt_one : tols.pivot < 1
  ratio_nonneg : 0 ≤ tols.ratio

namespace Tableau

variable {m w : Nat} {tols : Tolerances Rat} {rank : Vector Nat w} {cost : Vector Rat w}
  {limit : Nat} {t₀ t t' : Tableau Rat m w} {c : Fin w} {r : Fin m}

/-! ### Choices at any tolerances -/

/-- A fold that takes only what it may ends with something that it may take, if it ends with
anything. -/
theorem foldl_takes {n : Nat} {β : Type} {P : β → Prop} (f : Option β → Fin n → Option β)
    (takes : ∀ best j, f best j = best ∨ ∃ b, P b ∧ f best j = some b) :
    ∀ b, Fin.foldl n f none = some b → P b := by
  apply foldl_rule (Q := fun best => ∀ b, best = some b → P b)
    fun _ best => ∀ b, best = some b → P b
  · exact nofun
  · intro l j best known
    rcases takes best j with kept | ⟨b, may, taken⟩
    · rwa [kept]
    · rw [taken]
      exact fun b' same => Option.some.inj same ▸ may
  · exact fun best known => known

/-- The column that enters lies below the limit. -/
theorem lt_of_entering? (enters : t.entering? tols rank cost limit = some c) : c.val < limit := by
  unfold entering? at enters
  refine foldl_takes (P := fun j : Fin w => j.val < limit) _ (fun best j => ?_) c enters
  simp only [Bool.and_eq_true, decide_eq_true_eq]
  by_cases below : j.val < limit
  · exact (ite_eq_or_eq _ _ _).symm.imp_right fun taken => ⟨j, below, taken⟩
  · exact .inl (if_neg fun may => below may.1.1.2)

/-- The row that is left has a coefficient that may be a pivot. -/
theorem lt_of_leaving? (leaves : t.leaving? tols rank c = some r) : tols.pivot < t.entry r c := by
  unfold leaving? at leaves
  obtain ⟨b, found, rfl⟩ := Option.map_eq_some_iff.mp leaves
  refine foldl_takes (P := fun b : Fin m × Rat => tols.pivot < t.entry b.1 c) _
    (fun best i => ?_) b found
  dsimp only
  by_cases small : t.entry i c ≤ tols.pivot
  · rw [if_pos small]
    exact .inl rfl
  · rw [if_neg small]
    have may : tols.pivot < t.entry i c := not_le.mp small
    cases best with
    | none => exact .inr ⟨(i, t.rhs.get i / t.entry i c), may, rfl⟩
    | some best =>
      dsimp only
      split
      next => exact .inr ⟨(i, t.rhs.get i / t.entry i c), may, rfl⟩
      next => exact .inl rfl

/-- The column that replaces a basic one lies below the limit, and its coefficient may be a pivot. -/
theorem of_replacement? {i : Fin m} (replaces : t.replacement? tols rank limit i = some c) :
    c.val < limit ∧ tols.pivot < |t.entry i c| := by
  unfold replacement? at replaces
  refine foldl_takes (P := fun j : Fin w => j.val < limit ∧ tols.pivot < |t.entry i j|) _
    (fun best j => ?_) c replaces
  simp only [Bool.and_eq_true, decide_eq_true_eq, Scalar.abs_eq]
  by_cases may : j.val < limit ∧ tols.pivot < |t.entry i j|
  · exact (ite_eq_or_eq _ _ _).symm.imp_right fun taken => ⟨j, may, taken⟩
  · exact .inl (if_neg fun h => may ⟨h.1.1.2, h.2⟩)

/-! ### Drift -/

/-- What a number of pivots keeps at any tolerances: every row is solved for its basic column, and the
solutions are those of the tableau `t₀`, moved up by no more than the ratio tolerance for each row and
pivot. -/
structure Drifts (tols : Tolerances Rat) (pivots : Nat) (t₀ t : Tableau Rat m w) : Prop where
  canonical : t.Canonical
  moved : ∃ g : Fin w → Rat, (∀ j, 0 ≤ g j) ∧ ∑ j, g j ≤ pivots * (m * tols.ratio) ∧
    ∀ y, t.Solves y ↔ t₀.Solves fun j => y j - g j

/-- A tableau has not drifted from itself. -/
theorem Canonical.drifts (h : t.Canonical) (tols : Tolerances Rat) : Drifts tols 0 t t :=
  ⟨h, fun _ => 0, fun _ => le_rfl, by simp, fun y => by simp⟩

/-- What a pivot clips off is not negative, and at most the ratio tolerance for each row. -/
theorem sum_clipped (nonneg : 0 ≤ tols.ratio) (t : Tableau Rat m w) (r : Fin m) (c : Fin w) :
    (∀ i, 0 ≤ clipped tols t r c i) ∧ ∑ i, clipped tols t r c i ≤ m * tols.ratio := by
  refine ⟨fun i => sub_nonneg.mpr (rhs_pivot_mem nonneg i).1, ?_⟩
  calc ∑ i, clipped tols t r c i ≤ ∑ _ : Fin m, tols.ratio :=
        Finset.sum_le_sum fun i _ => sub_le_iff_le_add'.mpr (rhs_pivot_mem nonneg i).2
    _ = m * tols.ratio := by simp

/-- The values of a point with given basic values add up to these. -/
theorem sum_spread (t : Tableau Rat m w) (b : Fin m → Rat) : ∑ j, t.spread b j = ∑ i, b i := by
  simpa using t.sum_mul_spread (fun _ => 1) b

namespace Drifts

variable {pivots : Nat}

/-- More pivots allow for more drift. -/
theorem mono (h : Drifts tols pivots t₀ t) (nonneg : 0 ≤ tols.ratio) {more : Nat}
    (le : pivots ≤ more) : Drifts tols more t₀ t := by
  obtain ⟨g, g_nonneg, total, solves⟩ := h.moved
  refine ⟨h.canonical, g, g_nonneg, total.trans ?_, solves⟩
  gcongr

/-- A pivot clips off no more than the ratio tolerance in each row. -/
theorem pivot (h : Drifts tols pivots t₀ t) (nonneg : 0 ≤ tols.ratio)
    (pivot_ne : t.entry r c ≠ 0) : Drifts tols (pivots + 1) t₀ (t.pivot tols r c) := by
  obtain ⟨g, g_nonneg, total, solves⟩ := h.moved
  obtain ⟨clipped_nonneg, clipped_le⟩ := sum_clipped nonneg t r c
  refine ⟨h.canonical.pivot pivot_ne,
    fun j => (t.pivot tols r c).spread (clipped tols t r c) j + g j,
    fun j => add_nonneg (spread_nonneg clipped_nonneg j) (g_nonneg j), ?_, fun y => ?_⟩
  · rw [Finset.sum_add_distrib, sum_spread, Nat.cast_add, Nat.cast_one, add_mul, one_mul, add_comm]
    exact add_le_add total clipped_le
  · rw [h.canonical.solves_pivot_iff pivot_ne, solves]
    simp only [sub_sub]

/-- A run drifts by the pivots that it takes. -/
theorem run (slight : tols.Slight) {rounds left : Nat} (h : Drifts tols pivots t₀ t)
    (ends : t.run tols rank cost limit rounds = .optimal t' left) :
    left ≤ rounds ∧ Drifts tols (pivots + (rounds - left)) t₀ t' := by
  fun_induction Tableau.run tols rank cost limit rounds t generalizing pivots with
  | case1 rounds t none =>
    cases ends
    exact ⟨le_rfl, h.mono slight.ratio_nonneg (Nat.le_add_right _ _)⟩
  | case2 => cases ends
  | case3 => cases ends
  | case4 t c enters r leaves rounds ih =>
    have positive : 0 < t.entry r c := slight.pivot_nonneg.trans_lt (lt_of_leaving? leaves)
    obtain ⟨le, drifts⟩ := ih (h.pivot slight.ratio_nonneg positive.ne') ends
    exact ⟨le.trans (Nat.le_succ _), drifts.mono slight.ratio_nonneg (by omega)⟩

/-- The step for one row of driving out takes at most one pivot. -/
theorem driveRow (slight : tols.Slight) (h : Drifts tols pivots t₀ t) (i : Fin m) :
    Drifts tols (pivots + 1) t₀ (t.driveRow tols rank limit i) := by
  have still := h.mono slight.ratio_nonneg (Nat.le_succ pivots)
  unfold Tableau.driveRow
  split
  next => exact still
  next =>
    split
    next => exact still
    next c replaces =>
      have large := slight.pivot_nonneg.trans_lt (of_replacement? replaces).2
      exact h.pivot slight.ratio_nonneg (abs_pos.mp large)

/-- Driving out takes at most one pivot for each row. -/
theorem driveOut (slight : tols.Slight) (h : Drifts tols pivots t₀ t) (rank : Vector Nat w)
    (limit : Nat) : Drifts tols (pivots + m) t₀ (t.driveOut tols rank limit) := by
  have rows (l : List (Fin m)) :
      Drifts tols (pivots + l.length) t₀ (l.foldl (Tableau.driveRow tols rank limit) t) := by
    induction l using List.reverseRecOn with
    | nil => exact h
    | append_singleton l i ih =>
      rw [List.foldl_append, List.length_append, ← add_assoc]
      exact ih.driveRow slight i
  have all := rows (List.finRange m)
  rwa [List.length_finRange, ← driveOut_eq] at all

end Drifts

/-! ### Residues -/

/-- How far a point is from having no negative values below the limit and no values from there on. -/
def residue (limit : Nat) (y : Fin w → Rat) : Rat :=
  ∑ j : Fin w, if j.val < limit then max 0 (-y j) else |y j|

section Residues

variable {y g : Fin w → Rat}

/-- Each column has a share in the residue. -/
theorem residue_share_nonneg (limit : Nat) (y : Fin w → Rat) (j : Fin w) :
    0 ≤ if j.val < limit then max 0 (-y j) else |y j| := by
  split
  · exact le_max_left _ _
  · exact abs_nonneg _

/-- A residue is not negative. -/
theorem residue_nonneg (limit : Nat) (y : Fin w → Rat) : 0 ≤ residue limit y :=
  Finset.sum_nonneg fun j _ => residue_share_nonneg limit y j

/-- No column below the limit is more negative than the residue. -/
theorem neg_residue_le {j : Fin w} (below : j.val < limit) : -residue limit y ≤ y j := by
  have share := Finset.single_le_sum (fun j _ => residue_share_nonneg limit y j) (Finset.mem_univ j)
  simp only [if_pos below] at share
  exact neg_le.mp ((le_max_right _ _).trans share)

/-- No column from the limit on has a value that is larger than the residue. -/
theorem abs_le_residue {k : Fin w} (above : limit ≤ k.val) : |y k| ≤ residue limit y := by
  have share := Finset.single_le_sum (fun j _ => residue_share_nonneg limit y j) (Finset.mem_univ k)
  simp only [if_neg above.not_gt] at share
  exact share

/-- A negative value and a value from the limit on add up to no more than the residue. -/
theorem abs_sub_le_residue {j k : Fin w} (below : j.val < limit) (above : limit ≤ k.val) :
    |y k| - y j ≤ residue limit y := by
  have other : k ≠ j := fun same => absurd below (same ▸ above).not_gt
  have shares := Finset.add_le_sum (fun j _ => residue_share_nonneg limit y j)
    (Finset.mem_univ k) (Finset.mem_univ j) other
  simp only [if_pos below, if_neg above.not_gt] at shares
  have negative := le_max_right 0 (-y j)
  exact le_trans (by linarith) shares

/-- The residue grows by no more than a point is moved. -/
theorem residue_sub_le (nonneg : ∀ j, 0 ≤ g j) :
    (residue limit fun j => y j - g j) ≤ residue limit y + ∑ j, g j := by
  rw [residue, residue, ← Finset.sum_add_distrib]
  refine Finset.sum_le_sum fun j _ => ?_
  have moved := nonneg j
  split
  · refine max_le (add_nonneg (le_max_left _ _) moved) ?_
    linarith [le_max_right 0 (-y j)]
  · calc |y j - g j| ≤ |y j| + |g j| := abs_sub _ _
      _ = |y j| + g j := by rw [abs_of_nonneg moved]

/-- Where a tableau has drifted, a point of the first tableau is near the basic solution. -/
theorem Drifts.exists_near {pivots : Nat} (h : Drifts tols pivots t₀ t) :
    ∃ y, t₀.Solves y ∧ (∀ j, |t.basic j - y j| ≤ pivots * (m * tols.ratio)) ∧
      ∀ limit, residue limit y ≤ residue limit t.basic + pivots * (m * tols.ratio) := by
  obtain ⟨g, nonneg, total, solves⟩ := h.moved
  refine ⟨fun j => t.basic j - g j, (solves t.basic).mp h.canonical.solves_basic, fun j => ?_,
    fun limit => (residue_sub_le nonneg).trans (add_le_add_right total _)⟩
  rw [sub_sub_cancel, abs_of_nonneg (nonneg j)]
  exact (Finset.single_le_sum (fun j _ => nonneg j) (Finset.mem_univ j)).trans total

end Residues

/-! ### Rows out of play -/

/-- Whether the rows that are solved for columns from the limit on have the value zero and nothing to
give to the columns below. -/
structure Rests (limit : Nat) (t : Tableau Rat m w) : Prop where
  rhs_eq_zero : ∀ i : Fin m, limit ≤ (t.basis.get i).val → t.rhs.get i = 0
  idle : ∀ i, t.Idle limit i

/-- Whether rows are out of play can be decided. -/
instance (limit : Nat) (t : Tableau Rat m w) : Decidable (Rests limit t) :=
  decidable_of_iff ((∀ i : Fin m, limit ≤ (t.basis.get i).val → t.rhs.get i = 0) ∧
      ∀ i : Fin m, limit ≤ (t.basis.get i).val → ∀ j : Fin w, j.val < limit → t.entry i j = 0)
    ⟨fun h => ⟨h.1, h.2⟩, fun h => ⟨h.rhs_eq_zero, h.idle⟩⟩

/-- A pivot on a column below the limit does not touch such rows, whatever the tolerances are. -/
theorem Rests.pivot (h : Rests limit t) (below : c.val < limit) (pivot_ne : t.entry r c ≠ 0) :
    Rests limit (t.pivot tols r c) := by
  refine ⟨fun i high => ?_, fun i => (h.idle i).pivot pivot_ne below⟩
  rw [basis_pivot] at high
  split at high
  next => exact absurd below high.not_gt
  next other =>
    rw [rhs_pivot_of_zero other (h.idle i high c below)]
    exact h.rhs_eq_zero i high

/-- A run of columns below the limit does not touch such rows. -/
theorem Rests.run (slight : tols.Slight) {rounds left : Nat} (h : Rests limit t)
    (ends : t.run tols rank cost limit rounds = .optimal t' left) : Rests limit t' := by
  fun_induction Tableau.run tols rank cost limit rounds t with
  | case1 =>
    cases ends
    exact h
  | case2 => cases ends
  | case3 => cases ends
  | case4 t c enters r leaves rounds ih =>
    have positive : 0 < t.entry r c := slight.pivot_nonneg.trans_lt (lt_of_leaving? leaves)
    exact ih (h.pivot (lt_of_entering? enters) positive.ne') ends

/-- Nothing is left where such rows are at rest and no right-hand side is negative. -/
theorem Rests.residue_eq_zero (h : Rests limit t) (nonneg : ∀ i : Fin m, 0 ≤ t.rhs.get i) :
    residue limit t.basic = 0 := by
  refine Finset.sum_eq_zero fun j _ => ?_
  split
  next => exact max_eq_left (neg_nonpos.mpr (spread_nonneg nonneg j))
  next high =>
    refine abs_eq_zero.mpr (spread_eq_zero fun i same => h.rhs_eq_zero i ?_)
    rw [same]
    exact not_lt.mp high

end Tableau

open Tableau

variable {m : Method Rat} {f : Form Rat} {rank : Vector Nat f.width}

/-! ### The first phase -/

/-- The first phase drifts by the pivots that it takes, and by one for each row where artificial
columns are driven out. -/
theorem Method.phaseOne_drifts (slight : m.tolerances.Slight)
    {s : Tableau Rat f.rows.size f.width} {left : Nat}
    (start : f.tableau.Canonical) (feasible : m.phaseOne f rank = .feasible s left) :
    left ≤ m.maxIterations ∧
      Drifts m.tolerances (m.maxIterations - left + f.rows.size) f.tableau s := by
  have begins := start.drifts m.tolerances
  unfold phaseOne at feasible
  split at feasible
  next =>
    cases feasible
    exact ⟨le_rfl, begins.mono slight.ratio_nonneg (Nat.zero_le _)⟩
  next =>
    split at feasible
    next => cases feasible
    next => cases feasible
    next t left' ends =>
      obtain ⟨le, drifts⟩ := begins.run slight ends
      split at feasible
      next => cases feasible
      next =>
        cases feasible
        rw [Nat.zero_add] at drifts
        exact ⟨le, drifts.driveOut slight rank f.artificialStart⟩

end Milp.Relaxation
