import Milp.Proofs.Number.Exact
import Milp.Problem.Box

/-!
# Regions of a problem

A box and a list of local rows cut a region out of a problem. This file gives regions their
meaning over exact numbers and says how the operations on boxes and rows change them:

* `Problem.Admits p box rows x` — `x` lies in the box and satisfies every constraint of the problem
  and every local row. Nothing is said about whole values: these are the points of a relaxation.
* `Problem.Feasible p x` — `x` is a point of the whole problem and whole where it has to be;
  `isFeasible_zero_iff`: that is what `Problem.isFeasible` finds within tolerance zero.
* `Box.contains_of_tighten`, `Box.contains_of_fix` — a smaller box has no new points, provided that
  no upper bound is undefined; `Box.contains_tighten` — which points stay.
* `Problem.Subproblem p box rows` — the regions that a search can come to.
-/

namespace Milp

/-! ### Boxes -/

namespace Box

/-- Whether a point lies between the bounds of the first `n` variables. -/
def Contains (b : Box Rat) (n : Nat) (x : Array Rat) : Prop :=
  ∀ v < n, b.lowerAt v ≤ x.getD v 0 ∧ (Extended.fin (x.getD v 0)).le (b.upperAt v) = true

/-- Whether no upper bound of the first `n` variables is undefined. -/
def Defined (b : Box Rat) (n : Nat) : Prop := ∀ v < n, b.upperAt v ≠ .undefined

/-- A box with a point in it has no undefined upper bounds. -/
theorem Contains.defined {b : Box Rat} {n : Nat} {x : Array Rat} (h : b.Contains n x) :
    b.Defined n := fun v hv => Extended.ne_undefined_of_le (h v hv).2

/-- An entry of an array with one entry modified. -/
theorem getD_modify {β : Type} (xs : Array β) (v w : Nat) (f : β → β) (d : β) :
    (xs.modify v f).getD w d = if v = w ∧ w < xs.size then f (xs.getD w d) else xs.getD w d := by
  by_cases hw : w < xs.size
  · by_cases hv : v = w
    · simp [Array.getElem_modify, hw, hv]
    · simp [Array.getElem_modify, hw, hv]
  · simp [hw]

/-- An entry of an array with one entry replaced. -/
theorem getD_setIfInBounds {β : Type} (xs : Array β) (v w : Nat) (a d : β) :
    (xs.setIfInBounds v a).getD w d = if v = w ∧ w < xs.size then a else xs.getD w d := by
  by_cases hw : w < xs.size
  · by_cases hv : v = w
    · simp [hw, hv]
    · simp [hw, hv]
  · simp [hw]

/-- Tightening a bound keeps the number of variables. -/
theorem size_tighten {α : Type} [Scalar α] (b : Box α) (c : BoundChange α) :
    (b.tighten c).lower.size = b.lower.size := by
  cases c with
  | raiseLower w bound => exact Array.size_modify
  | cutUpper w bound => rfl

/-- The variables that are free lie below an upper bound that is further away than the tolerance, or
have none. -/
theorem isFree_iff {b : Box Rat} {tol : Rat} {v : Var} :
    b.isFree tol v = true ↔
      b.upperAt v = .posInf ∨ ∃ u, b.upperAt v = .fin u ∧ tol < u - b.lowerAt v := by
  unfold isFree width
  cases upper : b.upperAt v with
  | fin u =>
    show (Extended.fin tol).lt (.fin (u - b.lowerAt v)) = true ↔ _
    simp
  | posInf => exact ⟨fun _ => .inl rfl, fun _ => rfl⟩
  | negInf => exact ⟨nofun, by rintro (h | ⟨u, h, -⟩) <;> cases h⟩
  | undefined => exact ⟨nofun, by rintro (h | ⟨u, h, -⟩) <;> cases h⟩

/-- Unless the bounds of a variable are crossed, the lower one is at most the upper one within the
tolerance. -/
theorem lower_le_of_not_isCrossed {b : Box Rat} {tol : Rat} {v : Var}
    (defined : b.upperAt v ≠ .undefined) (h : b.isCrossed tol v = false) :
    (Extended.fin (b.lowerAt v)).le ((b.upperAt v).add (.fin tol)) = true := by
  unfold isCrossed at h
  cases upper : b.upperAt v with
  | fin u =>
    rw [upper] at h
    show (Extended.fin (b.lowerAt v)).le (.fin (u + tol)) = true
    have not_below : ¬ u + tol < b.lowerAt v := fun below =>
      absurd (((Extended.lt_fin _ _).mpr below).symm.trans h) (by decide)
    exact (Extended.le_fin _ _).mpr (not_lt.mp not_below)
  | posInf => rfl
  | negInf =>
    rw [upper] at h
    cases h
  | undefined => exact absurd upper defined

/-- The bounds of a box with a point in it are not crossed. -/
theorem isCrossed_eq_false {b : Box Rat} {n : Nat} {x : Array Rat} {tol : Rat} {v : Var} (hv : v < n)
    (h : b.Contains n x) (nonneg : 0 ≤ tol) : b.isCrossed tol v = false := by
  obtain ⟨lower, upper⟩ := h v hv
  unfold isCrossed
  cases high : b.upperAt v with
  | fin u =>
    rw [high, Extended.le_fin] at upper
    show (Extended.fin (u + tol)).lt (.fin (b.lowerAt v)) = false
    refine Bool.eq_false_iff.mpr fun below => ?_
    have := (Extended.lt_fin _ _).mp below
    linarith
  | posInf => rfl
  | negInf =>
    rw [high] at upper
    cases upper
  | undefined => rfl

/-- Whether a point keeps to a bound. -/
def Keeps (x : Array Rat) : BoundChange Rat → Prop
  | .raiseLower v bound => bound ≤ x.getD v 0
  | .cutUpper v bound => x.getD v 0 ≤ bound

/-- A point that keeps to the new bound stays in a tightened box. -/
theorem contains_tighten {b : Box Rat} {n : Nat} {x : Array Rat} {c : BoundChange Rat}
    (h : b.Contains n x) (hc : Keeps x c) : (b.tighten c).Contains n x := by
  intro v hv
  cases c with
  | raiseLower w bound =>
    refine ⟨?_, (h v hv).2⟩
    rw [tighten, lowerAt, getD_modify]
    split
    next hw =>
      rw [Scalar.max_eq, max_le_iff]
      exact ⟨(h v hv).1, hw.1 ▸ hc⟩
    next => exact (h v hv).1
  | cutUpper w bound =>
    refine ⟨(h v hv).1, ?_⟩
    rw [tighten, upperAt, getD_modify]
    split
    next hw =>
      exact (Extended.fin_le_min_iff (h.defined v hv)).mpr ⟨(h v hv).2, hw.1 ▸ hc⟩
    next => exact (h v hv).2

/-- A tightened box has no new points. -/
theorem contains_of_tighten {b : Box Rat} {n : Nat} {x : Array Rat} {c : BoundChange Rat}
    (defined : b.Defined n) (h : (b.tighten c).Contains n x) : b.Contains n x := by
  intro v hv
  obtain ⟨lower, upper⟩ := h v hv
  cases c with
  | raiseLower w bound =>
    refine ⟨?_, upper⟩
    rw [tighten, lowerAt, getD_modify] at lower
    split at lower
    next => exact (max_le_iff.mp (Scalar.max_eq _ _ ▸ lower)).1
    next => exact lower
  | cutUpper w bound =>
    refine ⟨lower, ?_⟩
    rw [tighten, upperAt, getD_modify] at upper
    split at upper
    next => exact ((Extended.fin_le_min_iff (defined v hv)).mp upper).1
    next => exact upper

/-- A box with a variable fixed at a value within its bounds has no new points. -/
theorem contains_of_fix {b : Box Rat} {n : Nat} {x : Array Rat} {v : Var} {a : Rat}
    (lower : b.lowerAt v ≤ a) (upper : v < n → (Extended.fin a).le (b.upperAt v) = true)
    (h : (b.fix v a).Contains n x) : b.Contains n x := by
  intro w hw
  obtain ⟨fixedLower, fixedUpper⟩ := h w hw
  rw [fix, lowerAt, getD_setIfInBounds] at fixedLower
  rw [fix, upperAt, getD_setIfInBounds] at fixedUpper
  constructor
  · split at fixedLower
    next hv => exact (hv.1 ▸ lower).trans fixedLower
    next => exact fixedLower
  · split at fixedUpper
    next hv =>
      obtain ⟨rfl, -⟩ := hv
      exact Extended.fin_le_trans ((Extended.le_fin _ _).mp fixedUpper) (upper hw)
    next => exact fixedUpper

/-- Fixing a variable leaves upper bounds defined. -/
theorem Defined.fix {b : Box Rat} {n : Nat} (h : b.Defined n) (v : Var) (a : Rat) :
    (b.fix v a).Defined n := by
  intro w hw
  rw [Box.fix, upperAt, getD_setIfInBounds]
  split
  next => exact nofun
  next => exact h w hw

/-- Tightening a bound keeps upper bounds defined. -/
theorem Defined.tighten {b : Box Rat} {n : Nat} (h : b.Defined n) (c : BoundChange Rat) :
    (b.tighten c).Defined n := by
  intro v hv
  cases c with
  | raiseLower w bound => exact h v hv
  | cutUpper w bound =>
    have defined : b.upper.getD v .posInf ≠ .undefined := h v hv
    rw [Box.tighten, upperAt, getD_modify]
    split
    · unfold Extended.min
      split
      · exact nofun
      · split
        next undefined => exact absurd undefined defined
        next => exact defined
    · exact defined

end Box

/-! ### Rows -/

/-- Whether two numbers stand in the relation of a row. -/
def RowSense.Relates : RowSense → Rat → Rat → Prop
  | .lessEqual, a, b => a ≤ b
  | .greaterEqual, a, b => b ≤ a
  | .equal, a, b => a = b

/-- Whether two numbers stand in the relation of a row within a tolerance. -/
def RowSense.RelatesWithin (tol : Rat) : RowSense → Rat → Rat → Prop
  | .lessEqual, a, b => a ≤ b + tol
  | .greaterEqual, a, b => b - tol ≤ a
  | .equal, a, b => |a - b| ≤ tol

namespace RowSense

/-- Seen from the other side, the opposite numbers are related within the same tolerance. -/
theorem relatesWithin_flipped (s : RowSense) (a b tol : Rat) :
    s.flipped.RelatesWithin tol (-a) (-b) ↔ s.RelatesWithin tol a b := by
  cases s
  · show -b - tol ≤ -a ↔ a ≤ b + tol
    constructor <;> intro h <;> linarith
  · show -a ≤ -b + tol ↔ b - tol ≤ a
    constructor <;> intro h <;> linarith
  · show |-a - -b| ≤ tol ↔ |a - b| ≤ tol
    rw [neg_sub_neg, abs_sub_comm]

/-- Within tolerance zero the numbers are related. -/
theorem relatesWithin_zero_iff (s : RowSense) (a b : Rat) :
    s.RelatesWithin 0 a b ↔ s.Relates a b := by
  cases s
  · simp only [RelatesWithin, Relates, add_zero]
  · simp only [RelatesWithin, Relates, sub_zero]
  · simp only [RelatesWithin, Relates, abs_nonpos_iff, sub_eq_zero]

/-- Numbers that are related are so within every tolerance. -/
theorem Relates.within {s : RowSense} {a b tol : Rat} (h : s.Relates a b) (nonneg : 0 ≤ tol) :
    s.RelatesWithin tol a b := by
  cases s <;> simp only [Relates, RelatesWithin] at h ⊢
  · linarith
  · linarith
  · rwa [h, sub_self, abs_zero]

/-- Only the difference of the numbers matters. -/
theorem relatesWithin_congr {s : RowSense} {a b a' b' tol : Rat} (same : a - b = a' - b') :
    s.RelatesWithin tol a b ↔ s.RelatesWithin tol a' b' := by
  cases s <;> simp only [RelatesWithin]
  · constructor <;> intro h <;> linarith
  · constructor <;> intro h <;> linarith
  · rw [same]

/-- A number that is moved stays in relation within a larger tolerance. -/
theorem RelatesWithin.moved {s : RowSense} {a a' b tol e : Rat} (h : s.RelatesWithin tol a b)
    (near : |a' - a| ≤ e) : s.RelatesWithin (tol + e) a' b := by
  obtain ⟨below, above⟩ := abs_le.mp near
  cases s <;> simp only [RelatesWithin] at h ⊢
  · linarith
  · linarith
  · rw [abs_le] at h ⊢
    constructor <;> linarith

end RowSense

namespace Row

/-- A point satisfies a row if its activity stands in relation to the right-hand side. -/
theorem holds_iff (r : Row Rat) (x : Array Rat) (tol : Rat) :
    r.holds x tol = true ↔ r.sense.RelatesWithin tol (r.activity x) r.rhs := by
  obtain ⟨terms, sense, rhs⟩ := r
  cases sense
  · simp only [holds, RowSense.RelatesWithin, decide_eq_true_iff]
  · simp only [holds, RowSense.RelatesWithin, decide_eq_true_iff]
  · simp only [holds, RowSense.RelatesWithin, decide_eq_true_iff, Scalar.abs_eq]

/-- The left-hand side of a row that adds up variables is the sum of their values. -/
theorem activity_ofSum (vs : List Var) (sense : RowSense) (rhs : Rat) (x : Array Rat) :
    (Row.ofSum vs sense rhs).activity x = (vs.map fun v => x.getD v 0).sum := by
  rw [Row.activity, Row.ofSum, Scalar.sum_eq, List.map_map]
  congr 1
  exact List.map_congr_left fun v _ => one_mul _

/-- A row is violated by no more than a tolerance if it holds within it. -/
theorem violation_le_iff (r : Row Rat) (x : Array Rat) {tol : Rat} (nonneg : 0 ≤ tol) :
    r.violation x ≤ tol ↔ r.sense.RelatesWithin tol (r.activity x) r.rhs := by
  obtain ⟨terms, sense, rhs⟩ := r
  cases sense <;> simp only [violation, RowSense.RelatesWithin]
  · rw [Scalar.max_eq, max_le_iff, sub_le_iff_le_add']
    exact and_iff_right nonneg
  · rw [Scalar.max_eq, max_le_iff, sub_le_comm]
    exact and_iff_right nonneg
  · rw [Scalar.abs_eq]

end Row

/-! ### Points of a problem -/

namespace Problem

variable (p : Problem Rat)

/-- Whether a point lies in a box and satisfies every constraint and every one of the rows. -/
structure Admits (box : Box Rat) (rows : List (Row Rat)) (x : Array Rat) : Prop where
  size_eq : x.size = p.size
  inBox : box.Contains p.size x
  constraints : ∀ c ∈ p.constraints, c.holds x 0 = true
  rows : ∀ r ∈ rows, r.holds x 0 = true

/-- Whether a point violates no bound, constraint or row by more than a tolerance. -/
structure AdmitsWithin (tol : Rat) (box : Box Rat) (rows : List (Row Rat)) (x : Array Rat) :
    Prop where
  size_eq : x.size = p.size
  lower : ∀ v < p.size, box.lowerAt v - tol ≤ x.getD v 0
  upper : ∀ v < p.size, (Extended.fin (x.getD v 0)).le ((box.upperAt v).add (.fin tol)) = true
  constraints : ∀ c ∈ p.constraints, c.holds x tol = true
  rows : ∀ r ∈ rows, r.holds x tol = true

/-- Within tolerance zero nothing is violated. -/
theorem admitsWithin_zero_iff (box : Box Rat) (rows : List (Row Rat)) (x : Array Rat) :
    p.AdmitsWithin 0 box rows x ↔ p.Admits box rows x := by
  constructor
  · intro h
    refine ⟨h.size_eq, fun v hv => ⟨?_, ?_⟩, h.constraints, h.rows⟩
    · exact sub_zero (box.lowerAt v) ▸ h.lower v hv
    · exact Extended.add_zero (box.upperAt v) ▸ h.upper v hv
  · intro h
    refine ⟨h.size_eq, fun v hv => ?_, fun v hv => ?_, h.constraints, h.rows⟩
    · rw [sub_zero]
      exact (h.inBox v hv).1
    · rw [Extended.add_zero]
      exact (h.inBox v hv).2

/-- A point of a region violates nothing within any tolerance. -/
theorem Admits.within {p : Problem Rat} {box : Box Rat} {rows : List (Row Rat)} {x : Array Rat}
    {tol : Rat} (h : p.Admits box rows x) (nonneg : 0 ≤ tol) : p.AdmitsWithin tol box rows x := by
  have relaxed (r : Row Rat) (hr : r.holds x 0 = true) : r.holds x tol = true := by
    rw [Row.holds_iff, RowSense.relatesWithin_zero_iff] at hr
    exact (Row.holds_iff r x tol).mpr (hr.within nonneg)
  refine ⟨h.size_eq, fun v hv => ?_, fun v hv => ?_, fun c hc => ?_, fun r hr => ?_⟩
  · linarith [(h.inBox v hv).1]
  · exact Extended.le_add_fin (h.inBox v hv).2 nonneg
  · exact relaxed c.toRow (h.constraints c hc)
  · exact relaxed r (h.rows r hr)

/-- Whether a point satisfies bounds and constraints and is whole in the integral variables. -/
structure Feasible (x : Array Rat) : Prop where
  admits : p.Admits (Box.ofProblem p) [] x
  whole : ∀ v, p.isIntegral v = true → Whole (x.getD v 0)

/-- An integral variable is one of the problem's. -/
theorem lt_size_of_isIntegral {α : Type} {p : Problem α} {v : Var} (h : p.isIntegral v = true) :
    v < p.size := by
  by_contra hv
  rw [isIntegral, Array.getElem?_eq_none (not_lt.mp hv)] at h
  cases h

/-- The coefficient of a variable in the objective. -/
def objectiveAt (v : Var) : Rat := (p.vars[v]?.map (·.objective)).getD 0

/-- The objective value of a point, variable by variable. -/
theorem objectiveValue_eq {x : Array Rat} (size_eq : x.size = p.size) :
    p.objectiveValue x = (p.positions.map fun v => p.objectiveAt v * x.getD v 0).sum := by
  rw [objectiveValue, Scalar.sum_eq]
  congr 1
  refine List.ext_getElem (by simp [positions, size, size_eq]) fun v hv _ => ?_
  obtain ⟨hp, hx⟩ : v < p.vars.size ∧ v < x.size := by simpa using hv
  simp [positions, objectiveAt, hp, hx]

/-- The integral variables are those that are integral. -/
theorem mem_integralVars {α : Type} {p : Problem α} {v : Var} :
    v ∈ p.integralVars ↔ p.isIntegral v = true := by
  rw [integralVars, positions, List.mem_filter, List.mem_range]
  exact ⟨And.right, fun h => ⟨lt_size_of_isIntegral h, h⟩⟩

/-- The box of the problem contains the points that lie between the bounds of each variable. -/
theorem contains_ofProblem_iff {x : Array Rat} (size_eq : x.size = p.size) :
    (Box.ofProblem p).Contains p.size x ↔
      (List.zipWith (fun v y => Scalar.atMost v.lower y 0 &&
        (Scalar.extend y).le (v.upper.add (Scalar.extend 0))) p.vars.toList x.toList).all id
        = true := by
  have bounds : ∀ v (hv : v < p.vars.size) (hx : v < x.size),
      ((Box.ofProblem p).lowerAt v ≤ x.getD v 0 ∧
        (Extended.fin (x.getD v 0)).le ((Box.ofProblem p).upperAt v) = true) ↔
      (Scalar.atMost p.vars[v].lower x[v] 0 &&
        (Scalar.extend x[v]).le (p.vars[v].upper.add (Scalar.extend 0))) = true := by
    intro v hv hx
    rw [Bool.and_eq_true, Scalar.atMost, decide_eq_true_iff, add_zero,
      show Scalar.extend (0 : Rat) = .fin 0 from rfl, Extended.add_zero]
    simp [Box.ofProblem, Box.lowerAt, Box.upperAt, Problem.lower, Problem.upper, hv, hx,
      Scalar.extend]
  rw [List.all_eq_true]
  constructor
  · intro h b hb
    obtain ⟨v, hv, rfl⟩ := List.mem_iff_getElem.mp hb
    simp only [List.length_zipWith, Array.length_toList, lt_min_iff] at hv
    rw [List.getElem_zipWith]
    exact (bounds v hv.1 hv.2).mp (h v hv.1)
  · intro h v hv
    have hx : v < x.size := size_eq ▸ hv
    refine (bounds v hv hx).mpr (h _ (List.mem_iff_getElem.mpr ⟨v, ?_, ?_⟩))
    · simpa using ⟨hv, hx⟩
    · rw [List.getElem_zipWith]
      rfl

/-- Within tolerance zero the feasible points are found. -/
theorem isFeasible_zero_iff (x : Array Rat) : p.isFeasible x 0 = true ↔ p.Feasible x := by
  have whole : (p.integralVars.all fun v => Scalar.isWhole (x.getD v 0) 0) = true ↔
      ∀ v, p.isIntegral v = true → Whole (x.getD v 0) := by
    simp only [List.all_eq_true, mem_integralVars, Scalar.isWhole_zero_iff]
  have rows : (p.constraints.all fun c => c.violation x ≤ 0) = true ↔
      ∀ c ∈ p.constraints, c.holds x 0 = true := by
    simp only [Array.all_eq_true_iff_forall_mem, decide_eq_true_iff,
      Row.violation_le_iff _ _ le_rfl, Row.holds_iff]
  simp only [isFeasible, Bool.and_eq_true, beq_iff_eq, whole, rows]
  constructor
  · rintro ⟨⟨⟨size_eq, inBox⟩, whole⟩, rows⟩
    exact ⟨⟨size_eq, (p.contains_ofProblem_iff size_eq).mpr inBox, rows, nofun⟩, whole⟩
  · rintro ⟨⟨size_eq, inBox, rows, -⟩, whole⟩
    exact ⟨⟨⟨size_eq, (p.contains_ofProblem_iff size_eq).mp inBox⟩, whole⟩, rows⟩

/-- A feasible point admitted by a region satisfies the rows that are added if they hold. -/
theorem Admits.addRow {p : Problem Rat} {box : Box Rat} {rows : List (Row Rat)} {r : Row Rat}
    {x : Array Rat} (h : p.Admits box rows x) (hr : r.holds x 0 = true) :
    p.Admits box (rows ++ [r]) x := by
  refine ⟨h.size_eq, h.inBox, h.constraints, fun r' hr' => ?_⟩
  rcases List.mem_append.mp hr' with hr' | hr'
  · exact h.rows r' hr'
  · rw [List.mem_singleton.mp hr']
    exact hr

/-- A further row adds no points. -/
theorem Admits.of_addRow {p : Problem Rat} {box : Box Rat} {rows : List (Row Rat)} {r : Row Rat}
    {x : Array Rat} (h : p.Admits box (rows ++ [r]) x) : p.Admits box rows x :=
  ⟨h.size_eq, h.inBox, h.constraints, fun r' hr' => h.rows r' (List.mem_append_left [r] hr')⟩

/-- Whether a search can come to a region: it starts from the whole problem, tightens and fixes
bounds, and adds rows over sums of its variables. -/
inductive Subproblem : Box Rat → List (Row Rat) → Prop
  | whole : Subproblem (Box.ofProblem p) []
  | tighten {box : Box Rat} {rows : List (Row Rat)} (c : BoundChange Rat) :
      Subproblem box rows → Subproblem (box.tighten c) rows
  | fix {box : Box Rat} {rows : List (Row Rat)} (v : Var) (a : Rat) :
      Subproblem box rows → Subproblem (box.fix v a) rows
  | addSum {box : Box Rat} {rows : List (Row Rat)} (vs : List Var) (sense : RowSense) (rhs : Rat) :
      (∀ v ∈ vs, v < p.size) → Subproblem box rows →
        Subproblem box (rows ++ [Row.ofSum vs sense rhs])

end Problem
end Milp
