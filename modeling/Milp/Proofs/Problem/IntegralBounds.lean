import Milp.Problem.Build
import Milp.Proofs.Number.Faithful
import Milp.Proofs.Problem.Region
import Milp.Relaxation.Solve

/-!
# Integral bounds

The bounds of a variable that takes whole values only are whole themselves. Adding a variable to a
problem sees to it (`Problem.Built.integral`), and tightening a bound to a whole number keeps it
(`Box.Integral.tighten`), so it holds in every box that a search comes to.

It is the reason why a variable with a fractional value is never fixed, in whatever arithmetic that
rounds to the nearest (`Box.Integral.isFixed_eq_false`): bounds that coincide would have made the
value whole, different ones are one apart and more, and crossed ones have no optimal answer.
-/

namespace Milp

open Scalar

variable {α : Type} [Scalar α]

/-- The smaller of two values is one of them. -/
theorem Extended.min_eq_or (a b : Extended α) : a.min b = a ∨ a.min b = b := by
  unfold Extended.min
  split
  · exact .inr rfl
  · split
    · exact .inr rfl
    · exact .inl rfl

variable [Faithful α]

/-! ### Boxes with integral bounds -/

/-- Whether an upper bound is whole or no bound at all. -/
def Extended.IsIntegralUpper : Extended α → Prop
  | .fin u => IsInteger u
  | .posInf => True
  | _ => False

/-- Whether all bounds of the integral variables of a problem are whole. -/
structure Box.Integral (p : Problem α) (b : Box α) : Prop where
  lower : ∀ v, p.isIntegral v = true → IsInteger (b.lowerAt v)
  upper : ∀ v, p.isIntegral v = true → (b.upperAt v).IsIntegralUpper

/-- The number that a bound is tightened to. -/
def BoundChange.bound : BoundChange α → α
  | .raiseLower _ x => x
  | .cutUpper _ x => x

namespace Box

variable {p : Problem α} {b : Box α}

/-- A whole bound in place of another one leaves all bounds integral. -/
theorem Integral.tighten (h : b.Integral p) {c : BoundChange α} (whole : IsInteger c.bound) :
    (b.tighten c).Integral p := by
  cases c with
  | raiseLower w x =>
    refine ⟨fun v hv => ?_, h.upper⟩
    have kept : IsInteger (b.lower.getD v 0) := h.lower v hv
    rw [Box.tighten, lowerAt, getD_modify]
    split
    · rw [Scalar.max, Faithful.defined kept.1]
      split
      · exact whole
      · exact kept
    · exact kept
  | cutUpper w x =>
    refine ⟨h.lower, fun v hv => ?_⟩
    have kept : (b.upper.getD v .posInf).IsIntegralUpper := h.upper v hv
    have integer : IsInteger x := whole
    rw [Box.tighten, upperAt, getD_modify]
    split
    · rcases Extended.min_eq_or (b.upper.getD v .posInf) (Scalar.extend x) with old | new
      · rw [old]
        exact kept
      · rw [new, extend_of_isFinite integer.1]
        exact integer
    · exact kept

/-- How far whole bounds are apart is a number or unlimited. -/
theorem Integral.width_eq (h : b.Integral p) {v : Var} (hv : p.isIntegral v = true) :
    b.width v = .posInf ∨ ∃ u, b.upperAt v = .fin u ∧ IsInteger u ∧
      b.width v = Scalar.extend (u - b.lowerAt v) := by
  have upper := h.upper v hv
  rw [width, extend_of_isFinite (h.lower v hv).1]
  cases eq : b.upperAt v with
  | fin u =>
    rw [eq] at upper
    exact .inr ⟨u, rfl, upper, rfl⟩
  | posInf => exact .inl rfl
  | negInf =>
    rw [eq] at upper
    cases upper
  | undefined =>
    rw [eq] at upper
    cases upper

variable {tol : α}

/-- A variable whose bounds are further apart than the tolerance is not fixed within it. -/
theorem Integral.isFixed_of_isFree (h : b.Integral p) (ht : Moderate tol) {v : Var}
    (hv : p.isIntegral v = true) (free : b.isFree tol v = true) : b.isFixed tol v = false := by
  rw [isFree] at free
  rw [isFixed]
  rcases h.width_eq hv with wide | ⟨u, -, whole, apart⟩
  · rw [wide, extend_of_isFinite ht.finite]
    rfl
  · rw [apart, extend_of_isFinite ht.finite] at free ⊢
    cases eq : Scalar.extend (u - b.lowerAt v) with
    | fin z =>
      obtain ⟨finite, -⟩ := isFinite_of_extend eq
      obtain rfl := Faithful.extend_of_fin eq
      rw [eq, Extended.lt, decide_eq_true_iff, Faithful.lt_iff ht.finite finite] at free
      rw [Extended.le, decide_eq_false_iff_not, Faithful.le_iff finite ht.finite]
      exact not_le.mpr free
    | posInf => rfl
    | negInf =>
      rw [eq] at free
      cases free
    | undefined => rfl

/-- A variable is free if its bounds are not within the tolerance of each other. -/
theorem Integral.isFree_of_not_isFixed (h : b.Integral p) (ht : Moderate tol) {v : Var}
    (hv : p.isIntegral v = true) (unfixed : b.isFixed tol v = false) : b.isFree tol v = true := by
  rw [isFixed, extend_of_isFinite ht.finite] at unfixed
  rw [isFree, extend_of_isFinite ht.finite]
  rcases h.width_eq hv with wide | ⟨u, -, whole, apart⟩
  · rw [wide]
    rfl
  · have rounded := Faithful.sub_spec whole.1 (h.lower v hv).1
    rw [apart] at unfixed ⊢
    generalize Scalar.extend (u - b.lowerAt v) = width at rounded unfixed
    cases rounded with
    | near z finite =>
      rw [Extended.le, decide_eq_false_iff_not, Faithful.le_iff finite ht.finite] at unfixed
      rw [Extended.lt, decide_eq_true_iff, Faithful.lt_iff ht.finite finite]
      exact not_le.mp unfixed
    | above => rfl
    | below => cases unfixed

end Box

/-! ### Values in a box -/

/-- A value that was moved into whole bounds, which are in order, lies between them. -/
theorem Relaxation.clampInto_between {b : Box α} {v : Var} {x : α}
    (finite : isFinite (clampInto b v x) = true) (hl : isFinite (b.lowerAt v) = true) {u : α}
    (upper : b.upperAt v = .fin u) (hu : isFinite u = true)
    (ordered : value (b.lowerAt v) ≤ value u) :
    value (b.lowerAt v) ≤ value (clampInto b v x) ∧ value (clampInto b v x) ≤ value u := by
  have order : (Scalar.extend (b.lowerAt v)).le (b.upperAt v) = true := by
    rw [upper, extend_of_isFinite hl, Extended.le, decide_eq_true_iff, Faithful.le_iff hl hu]
    exact ordered
  have clamped : clampInto b v x = if u < (if x < b.lowerAt v then b.lowerAt v else x) then u
      else if x < b.lowerAt v then b.lowerAt v else x := by
    rw [upper] at order
    simp only [clampInto, upper]
    exact if_pos order
  rw [clamped] at finite ⊢
  by_cases low : x < b.lowerAt v
  · rw [if_pos low, if_neg (by rw [Faithful.lt_iff hu hl]; exact not_lt.mpr ordered)]
    exact ⟨le_rfl, ordered⟩
  · rw [if_neg low] at finite ⊢
    by_cases high : u < x
    · rw [if_pos high]
      exact ⟨ordered, le_rfl⟩
    · rw [if_neg high] at finite ⊢
      rw [Faithful.lt_iff finite hl] at low
      rw [Faithful.lt_iff hu finite] at high
      exact ⟨not_lt.mp low, not_lt.mp high⟩

/-- A variable with a fractional value in whole bounds that are not crossed is not fixed. -/
theorem Box.Integral.isFixed_eq_false {p : Problem α} {b : Box α} {tol : α} (h : b.Integral p)
    (ht : Moderate tol) {v : Var} (hv : p.isIntegral v = true)
    (uncrossed : b.isCrossed tol v = false) {x : α}
    (finite : isFinite (Relaxation.clampInto b v x) = true)
    (fractional : isWhole (Relaxation.clampInto b v x) tol = false) :
    b.isFixed tol v = false := by
  have lower := h.lower v hv
  rw [isFixed]
  rcases h.width_eq hv with wide | ⟨u, upper, whole, apart⟩
  · rw [wide, extend_of_isFinite ht.finite]
    rfl
  · rw [apart]
    rcases lt_trichotomy (value (b.lowerAt v)) (value u) with less | same | more
    · exact lower.apart whole less ht
    · obtain ⟨low, high⟩ :=
        Relaxation.clampInto_between finite lower.1 upper whole.1 same.le
      have equal : value (Relaxation.clampInto b v x) = value u :=
        le_antisymm high (same.symm.le.trans low)
      rw [isWhole_of_whole finite (equal ▸ whole.2) ht] at fractional
      cases fractional
    · rw [isCrossed, upper, lower.crossed whole more ht] at uncrossed
      cases uncrossed

/-! ### Problems that are built -/

/-- An upper bound, rounded down to a whole number. -/
def Extended.roundedDown : Extended α → Extended α
  | .fin u => .fin (Scalar.floor u)
  | u => u

/-- Problems that are built from nothing by adding variables, whose upper bounds are given as
numbers, and constraints. -/
inductive Problem.Built : Problem α → Prop
  | empty (name : String) (sense : Sense) : Built { name, sense }
  | addVariable {p q : Problem α} {name : String} {kind : VariableKind}
      {objective lower upper : α} {v : Var} (built : Built p)
      (added : p.addVariable name kind objective lower (Scalar.extend upper) = .ok (v, q)) : Built q
  | addConstraint {p q : Problem α} {name : String} {terms : List (Var × α)} {sense : RowSense}
      {rhs : α} {i : Nat} (built : Built p)
      (added : p.addConstraint name terms sense rhs = .ok (i, q)) : Built q

/-- The bounds of an integral variable are made whole, if they leave it any value. -/
theorem VariableKind.domain_integral {kind : VariableKind} {lower upper : α}
    (integral : kind.isIntegral = true) (finite : isFinite lower = true)
    (nonempty : (Scalar.extend (kind.domain lower (Scalar.extend upper)).1).le
      (kind.domain lower (Scalar.extend upper)).2 = true) :
    IsInteger (kind.domain lower (Scalar.extend upper)).1 ∧
      (kind.domain lower (Scalar.extend upper)).2.IsIntegralUpper := by
  -- Cutting a binary variable to zero and one leaves finite numbers finite.
  obtain ⟨l, u, domain_eq, l_finite, u_finite⟩ : ∃ (l : α) (u : Extended α),
      kind.domain lower (Scalar.extend upper) = (Scalar.ceil l, u.roundedDown) ∧
        isFinite l = true ∧ ∀ x, u = .fin x → isFinite x = true := by
    have given : ∀ x, Scalar.extend upper = .fin x → isFinite x = true := by
      intro x eq
      obtain ⟨whole, rfl⟩ := isFinite_of_extend eq
      exact whole
    by_cases binary : kind = .binary
    · refine ⟨Scalar.max 0 lower, (Scalar.extend upper).min (.fin 1), ?_, ?_, ?_⟩
      · rw [domain, if_pos binary]
        exact if_pos integral
      · rw [Scalar.max, Faithful.defined Faithful.finite_zero]
        split
        · exact finite
        · exact Faithful.finite_zero
      · intro x eq
        rcases Extended.min_eq_or (Scalar.extend upper) (.fin 1) with old | one
        · exact given x (old.symm.trans eq)
        · cases one.symm.trans eq
          exact Faithful.finite_one
    · refine ⟨lower, Scalar.extend upper, ?_, finite, given⟩
      rw [domain, if_neg binary]
      exact if_pos integral
  rw [domain_eq] at nonempty ⊢
  refine ⟨.ceil l_finite, ?_⟩
  cases u with
  | fin x => exact .floor (u_finite x rfl)
  | posInf => trivial
  | negInf =>
    rw [extend_of_isFinite (IsInteger.ceil l_finite).1] at nonempty
    cases nonempty
  | undefined =>
    rw [extend_of_isFinite (IsInteger.ceil l_finite).1] at nonempty
    cases nonempty

/-- All integral variables of a problem that is built have whole bounds. -/
theorem Problem.Built.variables {p : Problem α} (h : p.Built) :
    ∀ x ∈ p.vars, x.kind.isIntegral = true → IsInteger x.lower ∧ x.upper.IsIntegralUpper := by
  induction h with
  | empty => exact fun x hx => absurd hx (by simp)
  | addVariable built added ih =>
    simp only [Problem.addVariable] at added
    split_ifs at added with used objective lower nonempty
    cases added
    intro x hx integral
    rcases Array.mem_push.mp hx with old | rfl
    · exact ih x old integral
    · exact VariableKind.domain_integral integral (by simpa using lower) nonempty
  | addConstraint built added ih =>
    simp only [Problem.addConstraint] at added
    split_ifs at added
    split at added
    · cases added
    · cases added
      exact ih

/-- The box of a problem that is built has integral bounds. -/
theorem Problem.Built.integral {p : Problem α} (h : p.Built) : (Box.ofProblem p).Integral p := by
  have found : ∀ v, p.isIntegral v = true → ∃ x, p.vars[v]? = some x ∧
      IsInteger x.lower ∧ x.upper.IsIntegralUpper := by
    intro v hv
    rw [isIntegral] at hv
    cases eq : p.vars[v]? with
    | none =>
      rw [eq] at hv
      cases hv
    | some x =>
      rw [eq] at hv
      exact ⟨x, rfl, h.variables x (Array.mem_of_getElem? eq) hv⟩
  constructor
  · intro v hv
    obtain ⟨x, eq, lower, -⟩ := found v hv
    rw [Box.lowerAt, Box.ofProblem, Problem.lower]
    simpa [eq] using lower
  · intro v hv
    obtain ⟨x, eq, -, upper⟩ := found v hv
    rw [Box.upperAt, Box.ofProblem, Problem.upper]
    simpa [eq] using upper

/-- Maximise a whole variable of at most ten, of which twice the value is at most seven. -/
def Problem.single : Problem Float where
  name := "single"
  sense := .maximize
  vars := #[⟨"x", .integer, 1, 0, .fin 10⟩]
  constraints := #[⟨⟨[(0, 2)], .lessEqual, 7⟩, "c"⟩]

/-- The problem is built by adding its variable and its constraint. -/
theorem Problem.single_built : Problem.single.Built := by
  have added : Problem.addVariable { name := "single", sense := .maximize } "x" .integer 1 0
      (Scalar.extend 10) = .ok (0, { Problem.single with constraints := #[] }) := by
    unfold addVariable
    rw [if_neg (by simp [Problem.find?])]
    rfl
  have merged : mergeTerms [((0 : Var), (2 : Float))] = [(0, 2)] := by
    rw [mergeTerms, List.mergeSort_singleton]
    rfl
  refine .addConstraint (.addVariable (.empty "single" .maximize) added)
    (show Problem.addConstraint _ "c" [(0, 2)] .lessEqual 7 = .ok (0, _) from ?_)
  unfold addConstraint
  rw [if_neg (by simp), merged]
  rfl

end Milp
