import Milp.Proofs.Search.Coverage
import Milp.Search.Step

/-!
# Splitting a node

Branching exchanges the node in hand for two children that have all of its feasible points, whether
it splits at a value of one variable or of a sum, and in whatever order the children are put on
the stack (`Plan.split_covers`). The reason is the same both times: what is split at is an integer
at feasible points, and no integer lies strictly between the two sides.

`Focus.Sound` is what the search knows of the node in hand: its relaxation has an optimum, and that
is fractional somewhere.
-/

namespace Milp

/-! ### Regions of children -/

namespace Node

variable {α : Type} [Scalar α] (n : Node α) (number : Nat) (bound : Extended α)

/-- A child with a tightened bound has the tightened box. -/
theorem box_child (change : BoundChange α) (p : Problem α) :
    (n.child number bound change).box p = (n.box p).tighten change := by
  rw [box, child, List.foldl_append]
  rfl

/-- The box of a node has a lower bound for each variable. -/
theorem size_box (p : Problem α) : (n.box p).lower.size = p.size := by
  have kept : ∀ (changes : List (BoundChange α)) (b : Box α),
      (changes.foldl Box.tighten b).lower.size = b.lower.size := by
    intro changes
    induction changes with
    | nil => exact fun b => rfl
    | cons c changes ih => exact fun b => (ih (b.tighten c)).trans (b.size_tighten c)
  exact (kept n.changes _).trans Array.size_map

/-- It has an upper bound for each variable, too. -/
theorem size_upper_box (p : Problem α) : (n.box p).upper.size = p.size := by
  have kept : ∀ (changes : List (BoundChange α)) (b : Box α),
      (changes.foldl Box.tighten b).upper.size = b.upper.size := by
    intro changes
    induction changes with
    | nil => exact fun b => rfl
    | cons c changes ih =>
      intro b
      refine (ih (b.tighten c)).trans ?_
      cases c with
      | raiseLower => rfl
      | cutUpper => exact Array.size_modify
  exact (kept n.changes _).trans Array.size_map

end Node

/-- Whether the node in hand is described by its region and the fractional optimum in it. -/
structure Focus.Sound (p : Problem Rat) (f : Focus Rat) : Prop where
  box_eq : f.box = f.node.box p
  admits : p.Admits f.box f.node.rows f.values
  unbeaten : ∀ x, p.Admits f.box f.node.rows x → ¬ p.sense.Better (p.objectiveValue x) f.bound
  candidates_eq : f.candidates = p.fractionalVars 0 f.values
  fractional : f.candidates ≠ []

namespace Focus.Sound

variable {p : Problem Rat} {f : Focus Rat} {x : Array Rat} (h : f.Sound p) (number : Nat)

include h

/-- Tightening a bound gives a child no new points. -/
theorem admits_of_child {change : BoundChange Rat}
    (hx : p.Admits ((f.node.child number (Scalar.extend f.bound) change).box p) f.node.rows x) :
    p.Admits f.box f.node.rows x := by
  rw [Node.box_child, ← h.box_eq] at hx
  exact ⟨hx.size_eq, Box.contains_of_tighten h.admits.inBox.defined hx.inBox, hx.constraints,
    hx.rows⟩

/-- A child keeps the points that keep to its bound. -/
theorem admits_child {change : BoundChange Rat} (hx : p.Admits f.box f.node.rows x)
    (keeps : Box.Keeps x change) :
    p.Admits ((f.node.child number (Scalar.extend f.bound) change).box p) f.node.rows x := by
  rw [Node.box_child, ← h.box_eq]
  exact ⟨hx.size_eq, Box.contains_tighten hx.inBox keeps, hx.constraints, hx.rows⟩

/-- A child with a tightened bound is sound. -/
theorem sound_child (hn : f.node.Sound p) (change : BoundChange Rat) :
    (f.node.child number (Scalar.extend f.bound) change).Sound p where
  subproblem := by
    rw [Node.box_child]
    exact hn.subproblem.tighten change
  within x hx := hn.within x (h.box_eq ▸ h.admits_of_child number hx)
  bounds x hx := h.unbeaten x (h.admits_of_child number hx)

/-- A child with a row over variables of the problem is sound. -/
theorem sound_childWithRow (hn : f.node.Sound p) {vs : List Var} (hvs : ∀ v ∈ vs, v < p.size)
    (sense : RowSense) (rhs : Rat) :
    (f.node.childWithRow number (Scalar.extend f.bound) (Row.ofSum vs sense rhs)).Sound p where
  subproblem := hn.subproblem.addSum vs sense rhs hvs
  within x hx := hn.within x hx.of_addRow
  bounds x hx := h.unbeaten x (h.box_eq ▸ hx.of_addRow)

end Focus.Sound

/-! ### The two sides of a split -/

/-- A split may be made if what it splits at is an integer at feasible points. -/
def Split.Sound (p : Problem Rat) : Split Rat → Prop
  | .onVariable v => p.isIntegral v = true
  | .onSum vs _ => ∀ v ∈ vs, p.isIntegral v = true

namespace Plan

variable {plan : Plan Rat} {s : Search Rat} {f : Focus Rat}

/-- No integer lies between the values that the children of a variable are bounded by. -/
theorem splitValues_cover (zero : plan.tolerance = 0) (f : Focus Rat) (v : Var) {y : Rat}
    (hy : Whole y) : y ≤ (plan.splitValues f v).1 ∨ (plan.splitValues f v).2 ≤ y := by
  simp only [splitValues, zero]
  split_ifs with fractional room
  · exact hy.floor_or_ceil _
  · have whole : Whole (f.values.getD v 0) := by
      simpa [Scalar.isWhole_zero_iff] using fractional
    rw [Scalar.round_of_whole whole]
    exact hy.le_or_succ_le whole
  · have whole : Whole (f.values.getD v 0) := by
      simpa [Scalar.isWhole_zero_iff] using fractional
    rw [Scalar.round_of_whole whole]
    simpa using hy.le_or_succ_le whole.pred

/-- Two children go on top of the stack, in the order of the settings. -/
theorem pushChildren_stack {α : Type} (plan : Plan α) (s : Search α) (down up : Node α) :
    ∃ children, (plan.pushChildren s down up).stack = children ++ s.stack ∧
      ∀ c, c ∈ children ↔ c = down ∨ c = up := by
  unfold pushChildren
  cases plan.settings.childSelection with
  | down => exact ⟨[down, up], rfl, fun c => by simp⟩
  | up => exact ⟨[up, down], rfl, fun c => by simp [or_comm]⟩

/-- The children cover what the node covered if they are sound and every feasible point of the node
lies in one of them. -/
theorem pushChildren_covers (covers : plan.problem.Covers s.incumbent (f.node :: s.stack))
    {down up : Node Rat} (hdown : down.Sound plan.problem) (hup : up.Sound plan.problem)
    (sides : ∀ x, plan.problem.Feasible x →
      plan.problem.Admits (f.node.box plan.problem) f.node.rows x →
        plan.problem.Admits (down.box plan.problem) down.rows x ∨
          plan.problem.Admits (up.box plan.problem) up.rows x) :
    plan.problem.Covers s.incumbent (plan.pushChildren s down up).stack := by
  obtain ⟨children, stack_eq, mem⟩ := pushChildren_stack plan s down up
  rw [stack_eq]
  refine covers.replace (fun c hc => ?_) (fun x hx admits => ?_)
  · rcases (mem c).mp hc with rfl | rfl
    · exact hdown
    · exact hup
  · rcases sides x hx admits with side | side
    · exact ⟨down, (mem down).mpr (.inl rfl), side⟩
    · exact ⟨up, (mem up).mpr (.inr rfl), side⟩

/-- Splitting the node in hand keeps everything covered. -/
theorem split_covers (zero : plan.tolerance = 0)
    (covers : plan.problem.Covers s.incumbent (f.node :: s.stack)) (hf : f.Sound plan.problem)
    {split : Split Rat} (hs : split.Sound plan.problem) :
    plan.problem.Covers (plan.split s f split).incumbent (plan.split s f split).stack := by
  have hn : f.node.Sound plan.problem := covers.sound f.node List.mem_cons_self
  cases split with
  | onVariable v =>
    refine pushChildren_covers covers (hf.sound_child _ hn _) (hf.sound_child _ hn _) ?_
    intro x hx admits
    rw [← hf.box_eq] at admits
    rcases splitValues_cover zero f v (hx.whole v hs) with side | side
    · exact .inl (hf.admits_child _ admits side)
    · exact .inr (hf.admits_child _ admits side)
  | onSum vs sum =>
    have inside : ∀ v ∈ vs, v < plan.problem.size :=
      fun v hv => Problem.lt_size_of_isIntegral (hs v hv)
    refine pushChildren_covers covers (hf.sound_childWithRow _ hn inside _ _)
      (hf.sound_childWithRow _ hn inside _ _) ?_
    intro x hx admits
    have whole : Whole (vs.map fun v => x.getD v 0).sum := by
      refine Whole.sum fun y hy => ?_
      obtain ⟨v, hv, rfl⟩ := List.mem_map.mp hy
      exact hx.whole v (hs v hv)
    rcases whole.floor_or_ceil sum with side | side
    · refine .inl (admits.addRow ?_)
      rw [Row.holds, Row.activity_ofSum]
      simpa [Row.ofSum] using side
    · refine .inr (admits.addRow ?_)
      rw [Row.holds, Row.activity_ofSum]
      simpa [Row.ofSum] using side

end Plan
end Milp
