import Milp.Proofs.Problem.IntegralBounds

/-!
# Proper problems

What the builder sees to in exact arithmetic: no variable has a lower bound above its upper one, and
the bounds of integral variables are whole. Upper bounds may be infinite.

* `Problem.Proper.addVariable`, `Problem.Proper.addConstraint` — the builder keeps a problem proper.
* `Box.Proper` — the same of a box that branching comes to: where whole bounds are tightened they may
  cross, but no others do.
* `Box.Proper.contains_clamped` — values that were moved into such a box lie in it.
-/

namespace Milp

open Scalar

/-- Whether the bounds of a variable are in order, and whole if it takes whole values only. -/
structure Variable.Proper (x : Variable Rat) : Prop where
  ordered : (Extended.fin x.lower).le x.upper = true
  integral : x.kind.isIntegral = true → IsInteger x.lower ∧ x.upper.IsIntegralUpper

/-- Whether all variables of a problem are proper. -/
def Problem.Proper (p : Problem Rat) : Prop := ∀ x ∈ p.vars, x.Proper

/-! ### The builder -/

/-- The bounds of an integral variable are made whole, unless they leave it no value. -/
theorem VariableKind.domain_isInteger {kind : VariableKind} {lower : Rat} {upper : Extended Rat}
    (integral : kind.isIntegral = true)
    (nonempty : (Extended.fin (kind.domain lower upper).1).le (kind.domain lower upper).2 = true) :
    IsInteger (kind.domain lower upper).1 ∧ (kind.domain lower upper).2.IsIntegralUpper := by
  obtain ⟨l, u, domain_eq⟩ : ∃ (l : Rat) (u : Extended Rat),
      kind.domain lower upper = (Scalar.ceil l, u.roundedDown) := by
    unfold domain
    split
    exact ⟨_, _, if_pos integral⟩
  rw [domain_eq] at nonempty ⊢
  refine ⟨.ceil rfl, ?_⟩
  cases u with
  | fin x => exact .floor rfl
  | posInf => trivial
  | negInf => cases nonempty
  | undefined => cases nonempty

namespace Problem.Proper

variable {p q : Problem Rat} {name : String}

/-- A problem without variables is proper. -/
theorem empty (name : String) (sense : Sense) : Problem.Proper { name, sense } :=
  fun x hx => absurd hx (by simp)

/-- A variable that is added is proper. -/
theorem addVariable (h : p.Proper) {kind : VariableKind} {objective lower : Rat}
    {upper : Extended Rat} {v : Var}
    (added : p.addVariable name kind objective lower upper = .ok (v, q)) : q.Proper := by
  simp only [Problem.addVariable] at added
  split_ifs at added with used objective lower nonempty
  cases added
  intro x hx
  rcases Array.mem_push.mp hx with old | rfl
  · exact h x old
  · exact ⟨nonempty, fun integral => VariableKind.domain_isInteger integral nonempty⟩

/-- A constraint leaves the variables alone. -/
theorem addConstraint (h : p.Proper) {terms : List (Var × Rat)} {sense : RowSense} {rhs : Rat}
    {i : Nat} (added : p.addConstraint name terms sense rhs = .ok (i, q)) : q.Proper := by
  simp only [Problem.addConstraint] at added
  split_ifs at added
  split at added
  · cases added
  · cases added
    exact h

end Problem.Proper

/-! ### Boxes -/

/-- Whether the integral variables have whole bounds, and the others bounds in order. -/
structure Box.Proper (p : Problem Rat) (b : Box Rat) : Prop where
  integral : b.Integral p
  ordered : ∀ v < p.size, p.isIntegral v = false →
    (Extended.fin (b.lowerAt v)).le (b.upperAt v) = true

/-- The box of a proper problem is proper. -/
theorem Problem.Proper.box {p : Problem Rat} (h : p.Proper) : (Box.ofProblem p).Proper p := by
  have found (v : Var) (hv : v < p.size) : ∃ x : Variable Rat, x.Proper ∧
      p.isIntegral v = x.kind.isIntegral ∧
      (Box.ofProblem p).lowerAt v = x.lower ∧ (Box.ofProblem p).upperAt v = x.upper := by
    have listed : v < p.vars.size := hv
    refine ⟨p.vars[v], h _ (Array.getElem_mem listed), ?_, ?_, ?_⟩
    · simp [isIntegral, listed]
    · simp [Box.ofProblem, Box.lowerAt, Problem.lower, listed]
    · simp [Box.ofProblem, Box.upperAt, Problem.upper, listed]
  refine ⟨⟨fun v hv => ?_, fun v hv => ?_⟩, fun v hv _ => ?_⟩
  · obtain ⟨x, proper, kind, lower, -⟩ := found v (lt_size_of_isIntegral hv)
    exact lower ▸ (proper.integral (kind ▸ hv)).1
  · obtain ⟨x, proper, kind, -, upper⟩ := found v (lt_size_of_isIntegral hv)
    exact upper ▸ (proper.integral (kind ▸ hv)).2
  · obtain ⟨x, proper, -, lower, upper⟩ := found v hv
    rw [lower, upper]
    exact proper.ordered

/-- A value that is moved into bounds in order lies within them. -/
theorem Relaxation.clampInto_within {b : Box Rat} {v : Var}
    (ordered : (Extended.fin (b.lowerAt v)).le (b.upperAt v) = true) (x : Rat) :
    b.lowerAt v ≤ clampInto b v x ∧ (Extended.fin (clampInto b v x)).le (b.upperAt v) = true := by
  have raised : b.lowerAt v ≤ if x < b.lowerAt v then b.lowerAt v else x := by
    split
    next => exact le_rfl
    next above => exact not_lt.mp above
  have inside : (Scalar.extend (b.lowerAt v)).le (b.upperAt v) = true := ordered
  simp only [clampInto, if_pos inside]
  generalize (if x < b.lowerAt v then b.lowerAt v else x) = y at raised
  cases upper : b.upperAt v with
  | fin u =>
    rw [upper] at ordered
    simp only [Extended.le_fin] at ordered ⊢
    split
    next => exact ⟨ordered, le_rfl⟩
    next below => exact ⟨raised, not_lt.mp below⟩
  | posInf => exact ⟨raised, rfl⟩
  | negInf =>
    rw [upper] at ordered
    cases ordered
  | undefined =>
    rw [upper] at ordered
    cases ordered

namespace Box.Proper

variable {p : Problem Rat} {b : Box Rat}

/-- No upper bound of a proper box is undefined. -/
theorem defined (h : b.Proper p) : b.Defined p.size := by
  intro v hv undefined
  cases kind : p.isIntegral v with
  | true =>
    have upper := h.integral.upper v kind
    rw [undefined] at upper
    cases upper
  | false => exact Extended.ne_undefined_of_le (h.ordered v hv kind) undefined

/-- The lower bound of an integral variable is an integer. -/
theorem exists_lower (h : b.Proper p) {v : Var} (hv : p.isIntegral v = true) :
    ∃ l : ℤ, b.lowerAt v = l := (h.integral.lower v hv).2

/-- What lies below the upper bound of an integral variable is at least one below it if it is an
integer. -/
theorem succ_le_upper (h : b.Proper p) {v : Var} (hv : p.isIntegral v = true) {m : ℤ}
    (below : (Extended.fin (m : Rat)).lt (b.upperAt v) = true) :
    (Extended.fin ((m : Rat) + 1)).le (b.upperAt v) = true := by
  have upper := h.integral.upper v hv
  cases eq : b.upperAt v with
  | fin u =>
    rw [eq] at upper below
    obtain ⟨k, rfl⟩ : ∃ k : ℤ, u = k := upper.2
    have next : m < k := by exact_mod_cast (Extended.lt_fin _ _).mp below
    exact (Extended.le_fin _ _).mpr (by exact_mod_cast next)
  | posInf => rfl
  | negInf =>
    rw [eq] at upper
    cases upper
  | undefined =>
    rw [eq] at upper
    cases upper

/-- A whole bound of an integral variable in place of another one leaves a box proper. -/
theorem tighten (h : b.Proper p) {c : BoundChange Rat} (whole : IsInteger c.bound)
    (integral : p.isIntegral (match c with | .raiseLower v _ => v | .cutUpper v _ => v) = true) :
    (b.tighten c).Proper p := by
  refine ⟨h.integral.tighten whole, fun v hv continuous => ?_⟩
  have kept := h.ordered v hv continuous
  cases c with
  | raiseLower w x =>
    have other : w ≠ v := fun same => by simp_all
    rw [Box.tighten, lowerAt, getD_modify, if_neg fun same => other same.1]
    exact kept
  | cutUpper w x =>
    have other : w ≠ v := fun same => by simp_all
    rw [Box.tighten, upperAt, getD_modify, if_neg fun same => other same.1]
    exact kept

/-- Bounds of a proper box that do not cross by more than a tolerance do not cross. -/
theorem ordered_of_uncrossed (h : b.Proper p) {tol : Rat} (moderate : Moderate tol) {v : Var}
    (hv : v < p.size) (uncrossed : b.isCrossed tol v = false) :
    (Extended.fin (b.lowerAt v)).le (b.upperAt v) = true := by
  cases kind : p.isIntegral v with
  | false => exact h.ordered v hv kind
  | true =>
    have lower := h.integral.lower v kind
    have upper := h.integral.upper v kind
    cases eq : b.upperAt v with
    | fin u =>
      rw [eq] at upper
      refine (Extended.le_fin _ _).mpr (not_lt.mp fun crossed => ?_)
      rw [isCrossed, eq, lower.crossed upper crossed moderate] at uncrossed
      cases uncrossed
    | posInf => rfl
    | negInf =>
      rw [eq] at upper
      cases upper
    | undefined =>
      rw [eq] at upper
      cases upper

/-- Values that were moved into a proper box whose bounds do not cross by more than a tolerance lie in
it. -/
theorem contains_clamped (h : b.Proper p) {tol : Rat} (moderate : Moderate tol)
    (uncrossed : ∀ v < p.size, b.isCrossed tol v = false) {values : Array Rat}
    (moved : ∀ v < p.size, ∃ x, values.getD v 0 = Relaxation.clampInto b v x) :
    b.Contains p.size values := by
  intro v hv
  obtain ⟨x, eq⟩ := moved v hv
  rw [eq]
  exact Relaxation.clampInto_within (h.ordered_of_uncrossed moderate hv (uncrossed v hv)) x

end Box.Proper
end Milp
