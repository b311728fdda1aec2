import Mathlib
import Milp.Proofs.Problem.Proper
import Milp.Proofs.Search.Finite

/-!
# Branching partitions a node

In exact arithmetic a split hands every point of a node's region that is whole where it has to be to
exactly one of the two children. The reason is the same for variables and for sums: the children bound
what is split at by an integer and the next one (`Split.Allowed.bounds_eq`), and a child's region is
that of the node under one more cut (`Plan.region_children`). At a variable both integers lie within
its bounds (`Split.Allowed.bounds_within`), so that each child leaves a value to the other one.

* `Split.Chosen` — the splits that a search may make at a solved node: what a callback names and is not
  refused, and what the branching rule picks.
* `Focus.Partitioned` — what a split is to do; `Plan.children_partition` — every allowed split does it.
-/

namespace Milp

/-- The floor of a number that is not whole and its ceiling are one apart. -/
theorem Scalar.floor_ceil_eq {x tol : Rat} (nonneg : 0 ≤ tol) (h : Scalar.isWhole x tol = false) :
    (Scalar.floor x, Scalar.ceil x) = (((⌊x⌋ : ℤ) : Rat), ((⌊x⌋ : ℤ) : Rat) + 1) := by
  obtain ⟨above, below⟩ := floor_lt_and_lt_ceil nonneg h
  have apart : ⌊x⌋ < ⌈x⌉ := by exact_mod_cast above.trans below
  have near : ⌈x⌉ ≤ ⌊x⌋ + 1 := Int.ceil_le_floor_add_one x
  have next : ⌈x⌉ = ⌊x⌋ + 1 := by omega
  rw [floor_eq, ceil_eq, next]
  push_cast
  rfl

/-- The lower bound of a variable that is not fixed lies below the upper one. -/
theorem Box.lower_lt_of_unfixed {b : Box Rat} {v : Var} {tol : Rat} (nonneg : 0 ≤ tol)
    (defined : b.upperAt v ≠ .undefined) (unfixed : b.isFixed tol v = false) :
    (Extended.fin (b.lowerAt v)).lt (b.upperAt v) = true := by
  cases upper : b.upperAt v with
  | fin u =>
    have apart := apart_of_unfixed upper unfixed
    exact (Extended.lt_fin _ _).mpr (sub_pos.mp (nonneg.trans_lt apart))
  | posInf => rfl
  | negInf =>
    rw [isFixed, width, upper] at unfixed
    cases unfixed
  | undefined => exact absurd upper defined

/-! ### Regions and cuts -/

/-- What is decided on the way to a node: the sum of some variables is at most a number, or at least
one. -/
inductive Cut where
  | atMost (vs : List Var) (bound : Rat)
  | atLeast (vs : List Var) (bound : Rat)

/-- Whether a point keeps to a cut. -/
def Cut.Holds (x : Array Rat) : Cut → Prop
  | .atMost vs bound => (vs.map fun v => x.getD v 0).sum ≤ bound
  | .atLeast vs bound => bound ≤ (vs.map fun v => x.getD v 0).sum

/-- The region of a node: the points in its box that satisfy its rows. -/
structure Node.Region (p : Problem Rat) (n : Node Rat) (x : Array Rat) : Prop where
  size_eq : x.size = p.size
  inBox : (n.box p).Contains p.size x
  rows : ∀ r ∈ n.rows, r.holds x 0 = true

namespace Box

variable {b : Box Rat} {n : Nat} {x : Array Rat} {v : Var}

/-- A raised lower bound takes away the points below it. -/
theorem contains_raiseLower_iff (hv : v < n) (size : n ≤ b.lower.size) {bound : Rat} :
    (b.tighten (.raiseLower v bound)).Contains n x ↔ b.Contains n x ∧ bound ≤ x.getD v 0 := by
  refine ⟨fun h => ⟨fun w hw => ⟨?_, (h w hw).2⟩, ?_⟩, fun h => contains_tighten h.1 h.2⟩
  · have lower := (h w hw).1
    rw [tighten, lowerAt, getD_modify] at lower
    split at lower
    next => exact (max_le_iff.mp (Scalar.max_eq _ _ ▸ lower)).1
    next => exact lower
  · have lower := (h v hv).1
    rw [tighten, lowerAt, getD_modify, if_pos ⟨rfl, hv.trans_le size⟩] at lower
    exact (max_le_iff.mp (Scalar.max_eq _ _ ▸ lower)).2

/-- An upper bound that is cut takes away the points above it. -/
theorem contains_cutUpper_iff (hv : v < n) (size : n ≤ b.upper.size) (defined : b.Defined n)
    {bound : Rat} :
    (b.tighten (.cutUpper v bound)).Contains n x ↔ b.Contains n x ∧ x.getD v 0 ≤ bound := by
  refine ⟨fun h => ⟨contains_of_tighten defined h, ?_⟩, fun h => contains_tighten h.1 h.2⟩
  have upper := (h v hv).2
  rw [tighten, upperAt, getD_modify, if_pos ⟨rfl, hv.trans_le size⟩] at upper
  exact ((Extended.fin_le_min_iff (defined v hv)).mp upper).2

/-- Whether a box has fewer points than another one. -/
def Smaller (n : Nat) (b b' : Box Rat) : Prop :=
  (∀ x, b.Contains n x → b'.Contains n x) ∧ ∃ x, b'.Contains n x ∧ ¬ b.Contains n x

/-- A point with another value between the bounds of a variable stays in a box. -/
theorem Contains.set (h : b.Contains n x) (v : Var) {y : Rat} (lower : b.lowerAt v ≤ y)
    (upper : (Extended.fin y).le (b.upperAt v) = true) :
    b.Contains n (x.setIfInBounds v y) := by
  intro w hw
  rw [getD_setIfInBounds]
  split
  next same => exact ⟨same.1 ▸ lower, same.1 ▸ upper⟩
  next => exact h w hw

end Box

/-! ### Splits and children -/

/-- Whether a focus is a node whose relaxation has an optimum that is fractional somewhere. -/
structure Focus.Solved (plan : Plan Rat) (f : Focus Rat) : Prop where
  box_eq : f.box = f.node.box plan.problem
  answered : ∃ iterations,
    plan.relax f.box f.node.rows = .ok ⟨.optimal f.bound f.values, iterations⟩
  candidates_eq : f.candidates = plan.problem.fractionalVars plan.tolerance f.values
  fractional : f.candidates ≠ []

/-- Whether the node in hand has a proper box, with its values inside. -/
structure Focus.Proper (plan : Plan Rat) (f : Focus Rat) : Prop where
  box_eq : f.box = f.node.box plan.problem
  box : f.box.Proper plan.problem
  size_eq : f.values.size = plan.problem.size
  inBox : f.box.Contains plan.problem.size f.values

/-- Whether a search may split a node so: a choice that is not refused names the split, or the branching
rule picks its variable. -/
inductive Split.Chosen (plan : Plan Rat) (f : Focus Rat) : Split Rat → Prop
  | named {split : Split Rat} (choice : Choice) (h : plan.splitOf f choice = .ok (some split)) :
      Chosen plan f split
  | picked {v : Var} (engine : Random.Engine)
      (h : (plan.settings.rule.select f.candidates f.values plan.rank engine).1 = some v) :
      Chosen plan f (.onVariable v)

/-- The variables that are split at. -/
def Split.vars : Split Rat → List Var
  | .onVariable v => [v]
  | .onSum vs _ => vs

namespace Plan

variable (plan : Plan Rat) (f : Focus Rat)

/-- The numbers that the children are bounded by. -/
def bounds : Split Rat → Rat × Rat
  | .onVariable v => plan.splitValues f v
  | .onSum _ sum => (Scalar.floor sum, Scalar.ceil sum)

/-- The cuts of the two children. -/
def cuts (split : Split Rat) : Cut × Cut :=
  (.atMost split.vars (plan.bounds f split).1, .atLeast split.vars (plan.bounds f split).2)

/-- The two children, numbered after all nodes of a search. -/
def children (s : Search Rat) (split : Split Rat) : Node Rat × Node Rat :=
  let (down, up) := plan.bounds f split
  match split with
  | .onVariable v =>
    (f.node.child (s.lastNumber + 1) (.fin f.bound) (.cutUpper v down),
      f.node.child (s.lastNumber + 2) (.fin f.bound) (.raiseLower v up))
  | .onSum vs _ =>
    (f.node.childWithRow (s.lastNumber + 1) (.fin f.bound) (Row.ofSum vs .lessEqual down),
      f.node.childWithRow (s.lastNumber + 2) (.fin f.bound) (Row.ofSum vs .greaterEqual up))

variable {plan f} {s : Search Rat} {split : Split Rat}

/-- A split puts the two children on top of the other nodes. -/
theorem split_stack (plan : Plan Rat) (s : Search Rat) (f : Focus Rat) (split : Split Rat) :
    (plan.split s f split).stack =
        (plan.children f s split).1 :: (plan.children f s split).2 :: s.stack ∨
      (plan.split s f split).stack =
        (plan.children f s split).2 :: (plan.children f s split).1 :: s.stack := by
  cases split <;> simp only [Plan.split, pushChildren, Search.note_stack] <;>
    cases plan.settings.childSelection
  · exact .inl rfl
  · exact .inr rfl
  · exact .inl rfl
  · exact .inr rfl

end Plan

namespace Split

variable {plan : Plan Rat} {f : Focus Rat} {split : Split Rat}

/-- What is chosen at a solved node is allowed there. -/
theorem Chosen.allowed (solved : f.Solved plan) (chosen : split.Chosen plan f) :
    split.Allowed plan f := by
  cases chosen with
  | named choice accepted => exact Plan.splitOf_allowed accepted
  | @picked v engine selected =>
    obtain ⟨w, listed, found⟩ :=
      BranchingRule.select_mem plan.settings.rule solved.fractional f.values plan.rank engine
    obtain rfl : w = v := Option.some.inj (found.symm.trans selected)
    rw [solved.candidates_eq] at listed
    exact ⟨Problem.isIntegral_of_mem_fractionalVars listed,
      .inl (by simpa using List.of_mem_filter listed)⟩

namespace Allowed

/-- All variables that are split at are integral. -/
theorem integral (allowed : split.Allowed plan f) {v : Var} (hv : v ∈ split.vars) :
    plan.problem.isIntegral v = true := by
  cases split with
  | onVariable w => exact List.mem_singleton.mp hv ▸ allowed.1
  | onSum vs sum => exact allowed.2.1 v hv

/-- The children are bounded by an integer and the next one. -/
theorem bounds_eq (nonneg : 0 ≤ plan.tolerance) (allowed : split.Allowed plan f) :
    ∃ m : ℤ, plan.bounds f split = ((m : Rat), (m : Rat) + 1) := by
  cases split with
  | onVariable v =>
    show ∃ m : ℤ, plan.splitValues f v = _
    unfold Plan.splitValues
    simp only
    split
    next fractional =>
      exact ⟨_, Scalar.floor_ceil_eq nonneg (by simpa using fractional)⟩
    next =>
      obtain ⟨m, rounded, -⟩ := Scalar.exists_round (f.values.getD v 0)
      rw [rounded]
      split
      next => exact ⟨m, rfl⟩
      next => exact ⟨m - 1, by push_cast; rw [sub_add_cancel]⟩
  | onSum vs sum => exact ⟨_, Scalar.floor_ceil_eq nonneg allowed.2.2.2⟩

/-- Where a variable is split at, both the integer and the next one lie within its bounds. -/
theorem bounds_within {v : Var} (nonneg : 0 ≤ plan.tolerance) (proper : f.Proper plan)
    (allowed : (Split.onVariable v : Split Rat).Allowed plan f) {m : ℤ}
    (bounds_eq : plan.splitValues f v = ((m : Rat), (m : Rat) + 1)) :
    f.box.lowerAt v ≤ m ∧ (Extended.fin ((m : Rat) + 1)).le (f.box.upperAt v) = true := by
  obtain ⟨integral, movable⟩ := allowed
  obtain ⟨lower_le, le_upper⟩ := proper.inBox v (Problem.lt_size_of_isIntegral integral)
  obtain ⟨l, lower⟩ := proper.box.exists_lower integral
  -- the integers up to one above the value are at most the upper bound
  have succ_le {n : ℤ} (below : (n : Rat) < f.values.getD v 0) :=
    proper.box.succ_le_upper integral (Extended.fin_lt_of_lt below le_upper)
  unfold Plan.splitValues at bounds_eq
  simp only at bounds_eq
  cases fractional : Scalar.isWhole (f.values.getD v 0) plan.tolerance with
  | false =>
    obtain ⟨above, -⟩ := Scalar.floor_lt_and_lt_ceil nonneg fractional
    rw [fractional, Scalar.floor_ceil_eq nonneg fractional] at bounds_eq
    obtain rfl : ⌊f.values.getD v 0⌋ = m := by exact_mod_cast (Prod.mk.inj bounds_eq).1
    rw [lower] at lower_le ⊢
    exact ⟨by exact_mod_cast Int.le_floor.mpr lower_le, succ_le above⟩
  | true =>
    obtain ⟨r, rounded, near, near'⟩ := Scalar.exists_round (f.values.getD v 0)
    rw [fractional, rounded] at bounds_eq
    simp only [Bool.not_true, Bool.false_eq_true, ↓reduceIte] at bounds_eq
    split at bounds_eq
    next room =>
      obtain rfl : r = m := by exact_mod_cast (Prod.mk.inj bounds_eq).1
      refine ⟨?_, proper.box.succ_le_upper integral room⟩
      rw [lower] at lower_le ⊢
      have close : (l : Rat) < r + 1 := by linarith
      exact_mod_cast Int.lt_add_one_iff.mp (by exact_mod_cast close)
    next full =>
      obtain rfl : r - 1 = m := by exact_mod_cast (Prod.mk.inj bounds_eq).1
      -- a variable that is not fractional may only be split at if its bounds are apart
      have apart := Box.lower_lt_of_unfixed nonneg (Extended.ne_undefined_of_le le_upper)
        (movable.resolve_left fun fractional' => Bool.false_ne_true (fractional'.symm.trans fractional))
      refine ⟨?_, succ_le (by push_cast; linarith)⟩
      rw [lower] at apart ⊢
      have below : l < r := by
        by_contra above
        have crossed : (r : Rat) ≤ l := by exact_mod_cast not_lt.mp above
        exact full (Extended.fin_lt_trans crossed apart)
      exact_mod_cast Int.le_sub_one_of_lt below

end Allowed
end Split

/-! ### The regions of children -/

/-- A point satisfies a row over a sum where the sum stands in relation to its bound. -/
theorem Row.holds_ofSum_iff (vs : List Var) (sense : RowSense) (bound : Rat) (x : Array Rat) :
    (Row.ofSum vs sense bound).holds x 0 = true ↔
      sense.Relates (vs.map fun v => x.getD v 0).sum bound := by
  rw [Row.holds_iff, RowSense.relatesWithin_zero_iff, Row.activity_ofSum]
  rfl

namespace Node

variable {p : Problem Rat} {n : Node Rat} {x : Array Rat}

/-- A tightened bound makes the region of a child the points of the tightened box. -/
theorem region_child_iff (number : Nat) (bound : Extended Rat) {c : BoundChange Rat} {holds : Prop}
    (tightened : ((n.box p).tighten c).Contains p.size x ↔ (n.box p).Contains p.size x ∧ holds) :
    (n.child number bound c).Region p x ↔ n.Region p x ∧ holds := by
  constructor
  · intro h
    obtain ⟨inBox, kept⟩ := tightened.mp (box_child n number bound c p ▸ h.inBox)
    exact ⟨⟨h.size_eq, inBox, h.rows⟩, kept⟩
  · rintro ⟨h, kept⟩
    refine ⟨h.size_eq, ?_, h.rows⟩
    rw [box_child]
    exact tightened.mpr ⟨h.inBox, kept⟩

/-- A row over a sum takes away the points where it does not hold. -/
theorem region_childWithRow_iff (number : Nat) (bound : Extended Rat) (vs : List Var)
    (sense : RowSense) (rhs : Rat) :
    (n.childWithRow number bound (Row.ofSum vs sense rhs)).Region p x ↔
      n.Region p x ∧ sense.Relates (vs.map fun v => x.getD v 0).sum rhs := by
  rw [← Row.holds_ofSum_iff]
  constructor
  · intro h
    exact ⟨⟨h.size_eq, h.inBox, fun r hr => h.rows r (List.mem_append_left _ hr)⟩,
      h.rows _ (List.mem_append_right _ List.mem_cons_self)⟩
  · rintro ⟨h, holds⟩
    refine ⟨h.size_eq, h.inBox, fun r hr => ?_⟩
    rcases List.mem_append.mp hr with old | new
    · exact h.rows r old
    · exact List.mem_singleton.mp new ▸ holds

end Node

namespace Plan

variable {plan : Plan Rat} {f : Focus Rat} {split : Split Rat}

/-- The region of a child is that of the node under one more cut. -/
theorem region_children (s : Search Rat)
    (defined : (f.node.box plan.problem).Defined plan.problem.size)
    (inside : ∀ v ∈ split.vars, v < plan.problem.size) (x : Array Rat) :
    ((plan.children f s split).1.Region plan.problem x ↔
        f.node.Region plan.problem x ∧ (plan.cuts f split).1.Holds x) ∧
      ((plan.children f s split).2.Region plan.problem x ↔
        f.node.Region plan.problem x ∧ (plan.cuts f split).2.Holds x) := by
  cases split with
  | onVariable v =>
    have hv : v < plan.problem.size := inside v List.mem_cons_self
    have single : ([v].map fun w => x.getD w 0).sum = x.getD v 0 := List.sum_singleton
    simp only [cuts, Cut.Holds, Split.vars, single]
    exact ⟨Node.region_child_iff _ _
        (Box.contains_cutUpper_iff hv (Node.size_upper_box _ _).ge defined),
      Node.region_child_iff _ _ (Box.contains_raiseLower_iff hv (Node.size_box _ _).ge)⟩
  | onSum vs sum =>
    exact ⟨Node.region_childWithRow_iff _ _ vs .lessEqual _,
      Node.region_childWithRow_iff _ _ vs .greaterEqual _⟩

end Plan

/-! ### What a split does -/

/-- Whether two children partition a node at a split: they take no points from elsewhere, each point
that is whole where it has to be goes to exactly one of them, neither takes the optimum of the
relaxation unless the split is at one variable and whole there, and at one variable both have smaller
boxes. -/
structure Focus.Partitioned (plan : Plan Rat) (f : Focus Rat) (split : Split Rat)
    (children : Node Rat × Node Rat) : Prop where
  inside : ∀ x, children.1.Region plan.problem x ∨ children.2.Region plan.problem x →
    f.node.Region plan.problem x
  exactly_one : ∀ x, f.node.Region plan.problem x →
    (∀ v, plan.problem.isIntegral v = true → Whole (x.getD v 0)) →
      Xor (children.1.Region plan.problem x) (children.2.Region plan.problem x)
  apart : (∀ v, split = .onVariable v →
      Scalar.isWhole (f.values.getD v 0) plan.tolerance = false) →
    ¬ children.1.Region plan.problem f.values ∧ ¬ children.2.Region plan.problem f.values
  smaller : ∀ v, split = .onVariable v →
    (children.1.box plan.problem).Smaller plan.problem.size (f.node.box plan.problem) ∧
      (children.2.box plan.problem).Smaller plan.problem.size (f.node.box plan.problem)

namespace Split

variable {plan : Plan Rat} {f : Focus Rat} {split : Split Rat}

/-- The sum of the variables at a point. -/
def sumAt (split : Split Rat) (x : Array Rat) : Rat := (split.vars.map fun v => x.getD v 0).sum

namespace Allowed

/-- At points that are whole where they have to be, what is split at is whole. -/
theorem whole_sumAt (allowed : split.Allowed plan f) {x : Array Rat}
    (whole : ∀ v, plan.problem.isIntegral v = true → Whole (x.getD v 0)) :
    Whole (split.sumAt x) := by
  refine Whole.sum fun y hy => ?_
  obtain ⟨v, hv, rfl⟩ := List.mem_map.mp hy
  exact whole v (allowed.integral hv)

/-- The optimum of the relaxation lies strictly between the numbers that the children are bounded by,
unless the split is at one variable and whole there. -/
theorem bounds_apart (nonneg : 0 ≤ plan.tolerance) (allowed : split.Allowed plan f)
    (fractional : ∀ v, split = .onVariable v →
      Scalar.isWhole (f.values.getD v 0) plan.tolerance = false) :
    (plan.bounds f split).1 < split.sumAt f.values ∧
      split.sumAt f.values < (plan.bounds f split).2 := by
  have between {x : Rat} (h : Scalar.isWhole x plan.tolerance = false) :
      Scalar.floor x < x ∧ x < Scalar.ceil x := by
    rw [Scalar.floor_eq, Scalar.ceil_eq]
    exact Scalar.floor_lt_and_lt_ceil nonneg h
  cases split with
  | onVariable v =>
    have single : (Split.onVariable v : Split Rat).sumAt f.values = f.values.getD v 0 :=
      List.sum_singleton
    have apart := fractional v rfl
    rw [single]
    unfold Plan.bounds Plan.splitValues
    simp only
    rw [apart]
    exact between apart
  | onSum vs sum =>
    obtain ⟨-, -, rfl, apart⟩ := allowed
    exact between apart

end Allowed
end Split

namespace Plan

variable {plan : Plan Rat} {f : Focus Rat} {split : Split Rat}

/-- Both children of a split at one variable have smaller boxes: each of them leaves a value to the other
one. -/
theorem children_smaller (s : Search Rat) (nonneg : 0 ≤ plan.tolerance) (proper : f.Proper plan)
    {v : Var} (allowed : (Split.onVariable v : Split Rat).Allowed plan f) :
    ((plan.children f s (.onVariable v)).1.box plan.problem).Smaller plan.problem.size f.box ∧
      ((plan.children f s (.onVariable v)).2.box plan.problem).Smaller plan.problem.size f.box := by
  obtain ⟨m, bounds_eq⟩ := allowed.bounds_eq nonneg
  obtain ⟨lower_le, le_upper⟩ := allowed.bounds_within nonneg proper bounds_eq
  have hv : v < plan.problem.size := Problem.lt_size_of_isIntegral allowed.1
  have defined := proper.inBox.defined
  have lower_size : plan.problem.size ≤ f.box.lower.size := by
    rw [proper.box_eq, Node.size_box]
  have upper_size : plan.problem.size ≤ f.box.upper.size := by
    rw [proper.box_eq, Node.size_upper_box]
  have value_set (y : Rat) : (f.values.setIfInBounds v y).getD v 0 = y := by
    rw [Box.getD_setIfInBounds, if_pos ⟨rfl, proper.size_eq ▸ hv⟩]
  simp only [children, bounds_eq, Node.box_child, ← proper.box_eq]
  refine ⟨⟨fun x hx => ((Box.contains_cutUpper_iff hv upper_size defined).mp hx).1,
      f.values.setIfInBounds v (m + 1), ?_, fun kept => ?_⟩,
    ⟨fun x hx => ((Box.contains_raiseLower_iff hv lower_size).mp hx).1,
      f.values.setIfInBounds v m, ?_, fun kept => ?_⟩⟩
  · exact proper.inBox.set v (by linarith) le_upper
  · have le := ((Box.contains_cutUpper_iff hv upper_size defined).mp kept).2
    rw [value_set] at le
    linarith
  · exact proper.inBox.set v lower_le (Extended.fin_le_trans (by linarith) le_upper)
  · have le := ((Box.contains_raiseLower_iff hv lower_size).mp kept).2
    rw [value_set] at le
    linarith

/-- An allowed split partitions the node in hand. -/
theorem children_partition (s : Search Rat) (nonneg : 0 ≤ plan.tolerance) (proper : f.Proper plan)
    (allowed : split.Allowed plan f) :
    f.Partitioned plan split (plan.children f s split) := by
  have regions := @region_children plan f split s (proper.box_eq ▸ proper.inBox.defined)
    fun v hv => Problem.lt_size_of_isIntegral (allowed.integral hv)
  obtain ⟨m, bounds_eq⟩ := allowed.bounds_eq nonneg
  have down (x : Array Rat) : (plan.cuts f split).1.Holds x ↔ split.sumAt x ≤ m := by
    rw [cuts, bounds_eq]
    exact Iff.rfl
  have up (x : Array Rat) : (plan.cuts f split).2.Holds x ↔ (m : Rat) + 1 ≤ split.sumAt x := by
    rw [cuts, bounds_eq]
    exact Iff.rfl
  refine ⟨fun x hx => ?_, fun x hx whole => ?_, fun fractional => ?_, ?_⟩
  · rcases hx with hx | hx
    · exact ((regions x).1.mp hx).1
    · exact ((regions x).2.mp hx).1
  · rw [(regions x).1, (regions x).2, down, up]
    have whole := allowed.whole_sumAt whole
    rcases whole.le_or_succ_le ⟨m, rfl⟩ with side | side
    · exact .inl ⟨⟨hx, side⟩, fun other => by linarith [other.2]⟩
    · exact .inr ⟨⟨hx, side⟩, fun other => by linarith [other.2]⟩
  · obtain ⟨above, below⟩ := allowed.bounds_apart nonneg fractional
    rw [bounds_eq] at above below
    rw [(regions _).1, (regions _).2, down, up]
    exact ⟨fun h => not_le.mpr above h.2, fun h => not_le.mpr below h.2⟩
  · rintro v rfl
    exact proper.box_eq ▸ children_smaller s nonneg proper allowed

end Plan

end Milp
