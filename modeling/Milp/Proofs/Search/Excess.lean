import Mathlib
import Milp.Proofs.Problem.Proper
import Milp.Search.Decision

/-!
# How far trials lead out of bounds

The box of a node lies within the bounds of the problem, and so does what an assignment fixes of the
integral variables, since their bounds are whole. A continuous variable may be fixed outside of its
bounds by the tolerance, and then the bounds are moved: each time that an assignment names the variable
it may go on from there. `Decision.fixAll_reaches` counts these steps.

Values are compared with bounds by `Box.Near`. `Box.Reaches` says how far the bounds of a box exceed
those of the problem, where nothing is left to integral variables (`Problem.leeway`).
-/

namespace Milp

/-! ### Values near bounds -/

/-- Whether a value is outside of the bounds that a box gives a variable by no more than an excess. -/
structure Box.Near (b : Box Rat) (v : Var) (excess x : Rat) : Prop where
  lower : b.lowerAt v - excess ≤ x
  upper : (Extended.fin x).le ((b.upperAt v).add (.fin excess)) = true

/-- A number that is moved up by an amount is still below a bound that is raised by as much. -/
theorem Extended.fin_le_add_of_le {u : Extended Rat} {e d x y : Rat}
    (h : (Extended.fin x).le (u.add (.fin e)) = true) (le : y ≤ x + d) :
    (Extended.fin y).le (u.add (.fin (e + d))) = true := by
  cases u with
  | fin u =>
    have bound : x ≤ u + e := (Extended.le_fin _ _).mp h
    exact (Extended.le_fin _ _).mpr (by linarith)
  | posInf => rfl
  | negInf => cases h
  | undefined => cases h

/-- What is below a raised smaller bound is below the raised bound itself. -/
theorem Extended.fin_le_add_of_min {u : Extended Rat} {a e x : Rat} (defined : u ≠ .undefined)
    (h : (Extended.fin x).le ((u.min (.fin a)).add (.fin e)) = true) :
    (Extended.fin x).le (u.add (.fin e)) = true := by
  cases u with
  | fin u =>
    rw [Extended.min_fin] at h
    have bound : x ≤ Min.min u a + e := (Extended.le_fin _ _).mp h
    exact (Extended.le_fin _ _).mpr (by linarith [min_le_left u a])
  | posInf => rfl
  | negInf => cases h
  | undefined => exact absurd rfl defined

namespace Box.Near

variable {b : Box Rat} {v : Var} {e d x y : Rat}

/-- A value that is moved exceeds the bounds by as much more. -/
theorem moved (h : b.Near v e x) (near : |y - x| ≤ d) : b.Near v (e + d) y := by
  obtain ⟨below, above⟩ := abs_le.mp near
  refine ⟨?_, Extended.fin_le_add_of_le h.upper (by linarith)⟩
  linarith [h.lower]

/-- Rounding brings a value back into whole bounds that it does not exceed by one. -/
theorem rounded (h : b.Near v e x) (lower_whole : Scalar.IsInteger (b.lowerAt v))
    (upper_whole : (b.upperAt v).IsIntegralUpper) (near : |Scalar.round x - x| ≤ d)
    (small : e + d < 1) : b.Near v 0 (Scalar.round x) := by
  obtain ⟨lower, upper⟩ := h.moved near
  obtain ⟨m, round_eq⟩ := Scalar.whole_round x
  obtain ⟨l, lower_eq⟩ := lower_whole.2
  rw [round_eq] at lower upper ⊢
  refine ⟨?_, ?_⟩
  · have lower_eq : b.lowerAt v = l := lower_eq
    rw [lower_eq] at lower ⊢
    have less : ((l : ℤ) : Rat) < ((m + 1 : ℤ) : Rat) := by
      push_cast
      linarith
    have le : l ≤ m := Int.lt_add_one_iff.mp (by exact_mod_cast less)
    rw [sub_zero]
    exact_mod_cast le
  · cases upper_eq : b.upperAt v with
    | fin u =>
      rw [upper_eq] at upper upper_whole
      obtain ⟨k, rfl⟩ : ∃ k : ℤ, u = k := upper_whole.2
      have bound : (m : Rat) ≤ k + (e + d) := (Extended.le_fin _ _).mp upper
      have less : ((m : ℤ) : Rat) < ((k + 1 : ℤ) : Rat) := by
        push_cast
        linarith
      have le : m ≤ k := Int.lt_add_one_iff.mp (by exact_mod_cast less)
      rw [Extended.add_zero]
      exact (Extended.le_fin _ _).mpr (by exact_mod_cast le)
    | posInf => rfl
    | negInf =>
      rw [upper_eq] at upper_whole
      cases upper_whole
    | undefined =>
      rw [upper_eq] at upper_whole
      cases upper_whole

end Box.Near

/-! ### Boxes within the bounds of a problem -/

/-- What of an excess is left to a variable: nothing if it is integral. -/
def Problem.leeway (p : Problem Rat) (excess : Var → Rat) (v : Var) : Rat :=
  if p.isIntegral v then 0 else excess v

/-- Whether the bounds of a box exceed those of a problem by no more than the leeway of an excess. -/
structure Box.Reaches (b : Box Rat) (p : Problem Rat) (excess : Var → Rat) : Prop where
  defined : b.Defined p.size
  lower : ∀ v < p.size, (Box.ofProblem p).lowerAt v - p.leeway excess v ≤ b.lowerAt v
  upper : ∀ v < p.size, ∀ e x, (Extended.fin x).le ((b.upperAt v).add (.fin e)) = true →
    (Extended.fin x).le (((Box.ofProblem p).upperAt v).add (.fin (p.leeway excess v + e))) = true

namespace Box.Reaches

variable {p : Problem Rat} {b : Box Rat} {excess : Var → Rat} {v : Var} {e x tol : Rat}

/-- What is near a box is near the bounds of the problem. -/
theorem near (h : b.Reaches p excess) (hv : v < p.size) (near : b.Near v e x) :
    (Box.ofProblem p).Near v (p.leeway excess v + e) x := by
  refine ⟨?_, h.upper v hv e x near.upper⟩
  linarith [h.lower v hv, near.lower]

/-- The box of a proper problem has its bounds. -/
theorem ofProblem (proper : p.Proper) : (Box.ofProblem p).Reaches p fun _ => 0 := by
  have zero (v : Var) : p.leeway (fun _ => 0) v = 0 := ite_self 0
  refine ⟨proper.box.defined, fun v _ => ?_, fun v _ e x le => ?_⟩
  · rw [zero, sub_zero]
  · rw [zero, zero_add]
    exact le

/-- Tightening a bound does not lead out of bounds. -/
theorem tighten (h : b.Reaches p excess) (c : BoundChange Rat) : (b.tighten c).Reaches p excess := by
  refine ⟨h.defined.tighten c, fun v hv => (h.lower v hv).trans ?_, fun v hv e x le => ?_⟩
  · cases c with
    | raiseLower w bound =>
      rw [Box.tighten, lowerAt, lowerAt, getD_modify]
      split
      · rw [Scalar.max_eq]
        exact le_max_left _ _
      · exact le_rfl
    | cutUpper w bound => exact le_rfl
  · refine h.upper v hv e x ?_
    cases c with
    | raiseLower w bound => exact le
    | cutUpper w bound =>
      rw [Box.tighten, upperAt, getD_modify] at le
      split at le
      · exact Extended.fin_le_add_of_min (h.defined v hv) le
      · exact le

/-- The box of a node lies within the bounds of a proper problem. -/
theorem ofNode (proper : p.Proper) (n : Node Rat) : (n.box p).Reaches p fun _ => 0 := by
  have tightened (changes : List (BoundChange Rat)) {b : Box Rat} (h : b.Reaches p fun _ => 0) :
      (changes.foldl Box.tighten b).Reaches p fun _ => 0 := by
    induction changes generalizing b with
    | nil => exact h
    | cons c changes ih => exact ih (h.tighten c)
  exact tightened n.changes (ofProblem proper)

/-- Fixing a variable at a value that is near enough to the bounds of the problem. -/
theorem fix {excess' : Var → Rat} (h : b.Reaches p excess)
    (more : ∀ w, p.leeway excess w ≤ p.leeway excess' w)
    (near : v < p.size → (Box.ofProblem p).Near v (p.leeway excess' v) x) :
    (b.fix v x).Reaches p excess' := by
  refine ⟨h.defined.fix v x, fun w hw => ?_, fun w hw e y le => ?_⟩
  · rw [Box.fix, lowerAt, lowerAt, getD_setIfInBounds]
    split
    next hit =>
      obtain ⟨rfl, -⟩ := hit
      exact (near hw).lower
    next => exact (sub_le_sub_left (more w) _).trans (h.lower w hw)
  · rw [Box.fix, upperAt, getD_setIfInBounds] at le
    split at le
    next hit =>
      obtain ⟨rfl, -⟩ := hit
      exact Extended.fin_le_add_of_le (near hw).upper ((Extended.le_fin _ _).mp le)
    next =>
      have kept := Extended.fin_le_add_of_le (y := y) (h.upper w hw e y le)
        (le_add_of_nonneg_right (sub_nonneg.mpr (more w)))
      rwa [add_right_comm, add_sub_cancel] at kept

end Box.Reaches

/-! ### Assignments -/

section Assignments

variable {plan : Plan Rat}

/-- A value that is not outside of the bounds of a box, as trials test it, is near them. -/
theorem Box.near_of_not_outside {b : Box Rat} {n : Nat} (defined : b.Defined n) {v : Var} (hv : v < n)
    {x tol : Rat} (inside : (x < b.lowerAt v - tol || ((b.upperAt v).add (Scalar.extend tol)).lt
      (Scalar.extend x)) = false) : b.Near v tol x := by
  obtain ⟨above, below⟩ := Bool.or_eq_false_iff.mp inside
  refine ⟨not_lt.mp (of_decide_eq_false above), ?_⟩
  have defined := defined v hv
  cases upper : b.upperAt v with
  | fin u =>
    rw [upper] at below
    have not_less : ¬ u + tol < x := fun less =>
      Bool.eq_false_iff.mp below ((Extended.lt_fin _ _).mpr less)
    exact (Extended.le_fin _ _).mpr (not_lt.mp not_less)
  | posInf => rfl
  | negInf =>
    rw [upper] at below
    cases below
  | undefined => exact absurd upper defined

/-- The tolerance once for each time that an assignment names a variable. -/
def Decision.excess (tol : Rat) (assignment : List (Var × Rat)) (v : Var) : Rat :=
  tol * (assignment.map (·.1)).count v

/-- One more value adds the tolerance for its variable. -/
theorem Decision.excess_append (tol : Rat) (assignment : List (Var × Rat)) (v : Var) (x : Rat) :
    excess tol (assignment ++ [(v, x)]) v = excess tol assignment v + tol := by
  rw [excess, excess, List.map_append, List.count_append, List.map_singleton,
    List.count_singleton_self, Nat.cast_add, Nat.cast_one, mul_add, mul_one]

/-- More values do not add less. -/
theorem Decision.excess_le_append {tol : Rat} (nonneg : 0 ≤ tol) (first rest : List (Var × Rat))
    (v : Var) : excess tol first v ≤ excess tol (first ++ rest) v := by
  rw [excess, excess, List.map_append, List.count_append]
  exact mul_le_mul_of_nonneg_left (by exact_mod_cast Nat.le_add_right _ _) nonneg

/-- What an assignment fixes exceeds the bounds of a proper problem by the tolerance for each time that
a variable was named, and not at all if the variable is integral. -/
theorem Decision.fixAll_reaches (proper : plan.problem.Proper)
    (moderate : Scalar.Moderate plan.tolerance) {assignment : List (Var × Rat)} {b fixed : Box Rat}
    {before : List (Var × Rat)} (h : b.Reaches plan.problem (excess plan.tolerance before))
    (fixes : fixAll plan assignment b = some fixed) :
    fixed.Reaches plan.problem (excess plan.tolerance (before ++ assignment)) := by
  induction assignment generalizing b before with
  | nil =>
    cases fixes
    rwa [List.append_nil]
  | cons entry rest ih =>
    obtain ⟨v, x⟩ := entry
    simp only [fixAll] at fixes
    split at fixes
    next => cases fixes
    next accepted =>
      obtain ⟨inside, whole⟩ := Bool.or_eq_false_iff.mp (Bool.eq_false_iff.mpr accepted)
      have nonneg : 0 ≤ plan.tolerance := moderate.nonneg
      have small : plan.tolerance < 1 / 2 := moderate.lt_half
      rw [List.append_cons]
      refine ih (h.fix (fun w => ?_) fun hv => ?_) fixes
      · unfold Problem.leeway
        split
        · exact le_rfl
        · exact excess_le_append nonneg before [(v, x)] w
      · have near := h.near hv (Box.near_of_not_outside h.defined hv inside)
        unfold Problem.leeway at near ⊢
        split at near
        next integral =>
          rw [if_pos integral, if_pos integral]
          rw [integral, Bool.true_and, Bool.not_eq_false'] at whole
          have close : |Scalar.round x - x| ≤ plan.tolerance := by
            rw [Scalar.abs_round_sub]
            exact of_decide_eq_true whole
          exact near.rounded (proper.box.integral.lower v integral)
            (proper.box.integral.upper v integral) close (by linarith)
        next continuous =>
          rw [if_neg continuous, if_neg continuous, excess_append]
          exact near

end Assignments
end Milp
