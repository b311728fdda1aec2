import Mathlib
import Milp.Proofs.Search.DualBound
import Milp.Proofs.Search.Room
import Milp.Proofs.Search.Runs

/-!
# Every search ends

If the integral variables of a problem have upper bounds and the optima of relaxations lie within the
bounds and rows of their nodes, every search of the problem is over after a number of turns that
depends on the problem alone (`Plan.search_ends`), whatever the settings are and whatever a callback
branches on.

The reason is that both children of a node have less room than the node (`Problem.room`). Splitting at
a variable moves its bounds past an integer, also where its value is whole: then the bounds are apart,
because it would be refused otherwise (`splitValues_pass`). Splitting at a sum takes an integer away
on each side (`Plan.split_smaller`). A node weighs more than two children and the turns that are spent
on it (`weight`), so what a search has before it gets lighter with every turn (`Turn.load`).
-/

namespace Milp

/-! ### The two sides of a split -/

namespace Scalar

/-- A number that is not whole lies between two integers. -/
theorem floor_lt_and_lt_ceil {x tol : Rat} (nonneg : 0 ≤ tol) (h : Scalar.isWhole x tol = false) :
    (⌊x⌋ : Rat) < x ∧ x < (⌈x⌉ : ℤ) := by
  have not_whole : ∀ n : ℤ, x ≠ n := by
    rintro n rfl
    have whole : Scalar.isWhole (n : Rat) tol = true := by
      rw [isWhole, decide_eq_true_iff, fractionality_eq, Int.fract_intCast]
      exact (min_le_left _ _).trans nonneg
    rw [whole] at h
    cases h
  exact ⟨lt_of_le_of_ne (Int.floor_le x) (not_whole _).symm,
    lt_of_le_of_ne (Int.le_ceil x) (not_whole _)⟩

/-- Rounding gives an integer that is no more than a half away. -/
theorem exists_round (x : Rat) : ∃ n : ℤ, Scalar.round x = n ∧ x - 1 / 2 ≤ n ∧ n ≤ x + 1 / 2 := by
  obtain ⟨n, rounded⟩ := whole_round x
  have near : |Scalar.round x - x| ≤ 1 / 2 := by
    rw [abs_round_sub, fractionality_eq, min_le_iff]
    by_contra far
    rw [not_or] at far
    linarith [far.1, far.2]
  rw [rounded, abs_le] at near
  exact ⟨n, rounded, by linarith, by linarith⟩

end Scalar

/-- Whether a split is one that the solver makes or accepts at a node: at an integral variable that is
fractional or not fixed, or at a sum of different integral variables that is not whole. -/
def Split.Allowed (plan : Plan Rat) (f : Focus Rat) : Split Rat → Prop
  | .onVariable v => plan.problem.isIntegral v = true ∧
    (Scalar.isWhole (f.values.getD v 0) plan.tolerance = false ∨
      f.box.isFixed plan.tolerance v = false)
  | .onSum vs sum => vs.Nodup ∧ (∀ v ∈ vs, plan.problem.isIntegral v = true) ∧
    sum = (vs.map fun v => f.values.getD v 0).sum ∧ Scalar.isWhole sum plan.tolerance = false

/-- The bounds of a variable that is not fixed are apart. -/
theorem apart_of_unfixed {b : Box Rat} {v : Var} {u tol : Rat} (upper : b.upperAt v = .fin u)
    (unfixed : b.isFixed tol v = false) : tol < u - b.lowerAt v := by
  unfold Box.isFixed Box.width at unfixed
  rw [upper, show (Extended.fin u).sub (Scalar.extend (b.lowerAt v)) =
    .fin (u - b.lowerAt v) from rfl] at unfixed
  refine not_le.mp fun fixed => ?_
  have := (Extended.le_fin _ _).mpr fixed
  exact absurd (this.symm.trans unfixed) (by decide)

/-- The children of a variable are bounded by integers, of which the one lies below the upper bound and
the other one above the lower bound. -/
theorem splitValues_pass {plan : Plan Rat} (nonneg : 0 ≤ plan.tolerance) {f : Focus Rat} {v : Var}
    {u : Rat} (upper : f.box.upperAt v = .fin u) (lower_le : f.box.lowerAt v ≤ f.values.getD v 0)
    (le_upper : f.values.getD v 0 ≤ u)
    (allowed : Scalar.isWhole (f.values.getD v 0) plan.tolerance = false ∨
      f.box.isFixed plan.tolerance v = false) :
    ∃ down up : ℤ, plan.splitValues f v = ((down : Rat), (up : Rat)) ∧
      down < ⌈u⌉ ∧ ⌊f.box.lowerAt v⌋ < up := by
  unfold Plan.splitValues
  simp only
  generalize f.values.getD v 0 = x at *
  cases fractional : Scalar.isWhole x plan.tolerance with
  | false =>
    obtain ⟨above, below⟩ := Scalar.floor_lt_and_lt_ceil nonneg fractional
    refine ⟨⌊x⌋, ⌈x⌉, ?_, ?_, ?_⟩
    · rw [Scalar.floor_eq, Scalar.ceil_eq]
      rfl
    · exact Int.lt_ceil.mpr (above.trans_le le_upper)
    · exact Int.floor_lt.mpr (lower_le.trans_lt below)
  | true =>
    obtain ⟨n, rounded, near, near'⟩ := Scalar.exists_round x
    rw [rounded]
    simp only [Bool.not_true, Bool.false_eq_true, ↓reduceIte]
    split
    next room =>
      rw [upper] at room
      have below : (n : Rat) < u := (Extended.lt_fin _ _).mp room
      refine ⟨n, n + 1, by push_cast; rfl, Int.lt_ceil.mpr below, Int.floor_lt.mpr ?_⟩
      push_cast
      linarith
    next full =>
      rw [upper] at full
      have above : u ≤ n := not_lt.mp fun below => full ((Extended.lt_fin _ _).mpr below)
      -- a variable that is not fractional may only be split at if its bounds are apart
      have apart : plan.tolerance < u - f.box.lowerAt v := by
        rcases allowed with fractional' | unfixed
        · rw [fractional] at fractional'
          cases fractional'
        · exact apart_of_unfixed upper unfixed
      refine ⟨n - 1, n, by push_cast; rfl, Int.lt_ceil.mpr ?_, Int.floor_lt.mpr ?_⟩
      · push_cast
        linarith
      · linarith

/-! ### Children have less room -/

/-- The room of a node's region. -/
noncomputable def Node.room (p : Problem Rat) (n : Node Rat) : Nat := p.room (n.box p) n.rows

/-- Whether a node stands for a region that a search can come to, where integral variables have upper
bounds and rows bound sums. -/
structure Node.Tame (p : Problem Rat) (n : Node Rat) : Prop where
  subproblem : p.Subproblem (n.box p) n.rows
  capped : ∀ v, p.isIntegral v = true → (n.box p).Capped v
  sums : ∀ r ∈ n.rows, r.BoundsSum

/-- Whether the values at the node in hand lie in its region and are fractional somewhere. -/
structure Focus.Inside (plan : Plan Rat) (f : Focus Rat) : Prop where
  tame : f.node.Tame plan.problem
  box_eq : f.box = f.node.box plan.problem
  inBox : f.box.Contains plan.problem.size f.values
  holds : ∀ r ∈ f.node.rows, r.holds f.values 0 = true
  candidates_eq : f.candidates = plan.problem.fractionalVars plan.tolerance f.values
  fractional : f.candidates ≠ []

namespace Node.Tame

variable {p : Problem Rat} {n : Node Rat} (h : n.Tame p) (number : Nat) (bound : Extended Rat)

include h

/-- A child with a tightened bound. -/
theorem child (c : BoundChange Rat) : (n.child number bound c).Tame p where
  subproblem := by
    rw [Node.box_child]
    exact h.subproblem.tighten c
  capped v hv := by
    rw [Node.box_child]
    exact (h.capped v hv).tighten c
  sums := h.sums

/-- A child with a row that bounds a sum. -/
theorem childWithRow {vs : List Var} (nodup : vs.Nodup) (inside : ∀ v ∈ vs, v < p.size)
    (sense : RowSense) (m : ℤ) : (n.childWithRow number bound (Row.ofSum vs sense m)).Tame p where
  subproblem := h.subproblem.addSum vs sense m inside
  capped := h.capped
  sums r hr := by
    rcases List.mem_append.mp hr with old | new
    · exact h.sums r old
    · exact ⟨vs, sense, m, nodup, List.mem_singleton.mp new⟩

/-- A tightened bound that passes an integer leaves less room. -/
theorem room_child {c : BoundChange Rat} {v : Var} (hv : p.isIntegral v = true)
    (ordered : (n.box p).low v ≤ (n.box p).high v)
    (passed : ((n.box p).tighten c).high v < (n.box p).high v ∨
      (n.box p).low v < ((n.box p).tighten c).low v) :
    (n.child number bound c).room p < n.room p := by
  rw [Node.room, Node.box_child]
  refine Problem.room_lt_of_narrows (Box.narrows_tighten (fun w hw => ?_) c) hv ordered passed
  exact h.capped w (p.mem_integralSet.mp hw)

end Node.Tame

namespace Plan

variable {plan : Plan Rat} {s : Search Rat} {f : Focus Rat}

/-- Splitting at a variable makes children with less room. -/
theorem splitOnVariable_smaller (nonneg : 0 ≤ plan.tolerance) (hf : f.Inside plan) {v : Var}
    (allowed : (Split.onVariable v : Split Rat).Allowed plan f) (number number' : Nat)
    (bound : Extended Rat) :
    (f.node.child number bound (.cutUpper v (plan.splitValues f v).1)).room plan.problem <
        f.node.room plan.problem ∧
      (f.node.child number' bound (.raiseLower v (plan.splitValues f v).2)).room plan.problem <
        f.node.room plan.problem := by
  obtain ⟨integral, allowed⟩ := allowed
  have inside := Problem.lt_size_of_isIntegral integral
  obtain ⟨u, upper⟩ := hf.tame.capped v integral
  obtain ⟨lower_le, le_upper⟩ := hf.inBox v inside
  have ordered : (f.node.box plan.problem).low v ≤ (f.node.box plan.problem).high v := by
    have between := (hf.box_eq ▸ hf.inBox).between inside ⟨u, upper⟩
    exact_mod_cast between.1.trans between.2
  rw [← hf.box_eq] at upper
  rw [upper, Extended.le_fin] at le_upper
  obtain ⟨down, up, split_eq, below, above⟩ := splitValues_pass nonneg upper lower_le le_upper allowed
  rw [split_eq]
  rw [hf.box_eq] at upper above
  constructor
  · refine hf.tame.room_child number bound integral ordered (.inl ?_)
    rw [Box.high_eq (Box.upperAt_cutUpper upper), Box.high_eq upper]
    exact lt_of_le_of_lt (Int.ceil_le.mpr (min_le_right u _)) below
  · refine hf.tame.room_child number' bound integral ordered (.inr ?_)
    rw [Box.low, Box.low, Box.lowerAt_raiseLower (by rwa [Node.size_box])]
    exact above.trans_le (Int.le_floor.mpr (le_max_right _ _))

/-- Splitting at a sum makes children with less room. -/
theorem splitOnSum_smaller (nonneg : 0 ≤ plan.tolerance) (hf : f.Inside plan) {vs : List Var}
    {sum : Rat} (allowed : (Split.onSum vs sum).Allowed plan f) (number number' : Nat)
    (bound : Extended Rat) :
    (f.node.childWithRow number bound (Row.ofSum vs .lessEqual (⌊sum⌋ : ℤ))).room plan.problem <
        f.node.room plan.problem ∧
      (f.node.childWithRow number' bound (Row.ofSum vs .greaterEqual (⌈sum⌉ : ℤ))).room plan.problem <
        f.node.room plan.problem := by
  obtain ⟨nodup, integral, rfl, fractional⟩ := allowed
  obtain ⟨above, below⟩ := Scalar.floor_lt_and_lt_ceil nonneg fractional
  obtain ⟨floor_mem, ceil_mem⟩ := sides_mem_sumRange (hf.box_eq ▸ hf.inBox) hf.holds hf.tame.sums nodup
    (fun v hv => Problem.lt_size_of_isIntegral (integral v hv))
    (fun v hv => hf.tame.capped v (integral v hv))
  have subset : vs.toFinset ⊆ plan.problem.integralSet := fun v hv =>
    plan.problem.mem_integralSet.mpr (integral v (List.mem_toFinset.mp hv))
  rw [← Row.support_ofSum vs .lessEqual _] at ceil_mem
  rw [← Row.support_ofSum vs .greaterEqual _] at floor_mem
  constructor
  · refine Problem.room_lt_of_addRow (by rwa [Row.support_ofSum]) ceil_mem ?_
    exact not_le.mpr (above.trans below)
  · refine Problem.room_lt_of_addRow (by rwa [Row.support_ofSum]) floor_mem ?_
    exact not_le.mpr (above.trans below)

end Plan

/-! ### What a search has before it -/

/-- The weight of some room: that of two nodes with less room and three turns. -/
def weight : Nat → Nat
  | 0 => 3
  | m + 1 => 2 * weight m + 3

/-- More room weighs more. -/
theorem weight_mono : Monotone weight :=
  monotone_nat_of_le_succ fun m => by
    rw [weight]
    omega

/-- Any room weighs at least three turns. -/
theorem three_le_weight (m : Nat) : 3 ≤ weight m := weight_mono (Nat.zero_le m)

/-- Two nodes with less room weigh less by three turns. -/
theorem weight_add_weight_le {a b m : Nat} (ha : a < m) (hb : b < m) :
    weight a + weight b + 3 ≤ weight m := by
  obtain ⟨m, rfl⟩ := Nat.exists_eq_add_one_of_ne_zero (Nat.ne_zero_of_lt ha)
  have left := weight_mono (Nat.le_of_lt_succ ha)
  have right := weight_mono (Nat.le_of_lt_succ hb)
  rw [weight]
  omega

/-- The number of turns that a search of a problem takes at most. -/
noncomputable def Problem.turns (p : Problem Rat) : Nat := weight (p.room (Box.ofProblem p) []) + 2

/-- The weight of a node. -/
noncomputable def Node.load (p : Problem Rat) (n : Node Rat) : Nat := weight (n.room p)

/-- The weight of open nodes. -/
noncomputable def Problem.load (p : Problem Rat) (nodes : List (Node Rat)) : Nat :=
  (nodes.map (Node.load p)).sum

/-- The number of decisions at a node that may come after one. -/
def DecisionPoint.further : DecisionPoint → Nat
  | .heuristic => 1
  | .branching => 0

/-- What a search has before it: the open nodes, and the node in hand with the decisions there. -/
noncomputable def Turn.load (p : Problem Rat) : Turn Rat → Nat
  | .proceed s => p.load s.stack + 2
  | .ask d => p.load d.search.stack + d.focus.node.load p + d.point.further
  | _ => 0

/-- Where a decision is asked for, the open nodes and the node in hand are before a search. -/
theorem Turn.le_load_ask (p : Problem Rat) (d : Decision Rat) :
    p.load d.search.stack + d.focus.node.load p ≤ (Turn.ask d).load p := Nat.le_add_right _ _

/-- Where a decision is asked for, something is before a search. -/
theorem Turn.load_ask_pos (p : Problem Rat) (d : Decision Rat) : 0 < (Turn.ask d).load p := by
  have heavy : 3 ≤ d.focus.node.load p := three_le_weight _
  have enough := Turn.le_load_ask p d
  omega

/-- Whether all nodes of a search are tame, and the values at the node in hand are inside. -/
def Turn.Tame (plan : Plan Rat) : Turn Rat → Prop
  | .proceed s => ∀ n ∈ s.stack, n.Tame plan.problem
  | .ask d => (∀ n ∈ d.search.stack, n.Tame plan.problem) ∧ d.focus.Inside plan
  | _ => True

/-- Whether a search is tame and has less before it than a limit. -/
structure Turn.Below (plan : Plan Rat) (limit : Nat) (turn : Turn Rat) : Prop where
  tame : turn.Tame plan
  light : turn.load plan.problem < limit

/-- Whether optima of relaxations lie within the bounds and rows of their regions. -/
def Plan.AnswersInside (plan : Plan Rat) : Prop :=
  ∀ box rows objective values iterations, plan.problem.Subproblem box rows →
    plan.relax box rows = .ok ⟨.optimal objective values, iterations⟩ →
      box.Contains plan.problem.size values ∧ ∀ r ∈ rows, r.holds values 0 = true

/-- The optima of an exact search lie within their regions. -/
theorem Plan.Exact.answersInside {plan : Plan Rat} (exact : plan.Exact) : plan.AnswersInside := by
  intro box rows objective values iterations sub answered
  obtain ⟨admits, -⟩ := exact.answers _ _ _ sub answered
  exact ⟨admits.inBox, admits.rows⟩

namespace Plan

variable {plan : Plan Rat} {s : Search Rat} {f : Focus Rat} {limit : Nat}

/-- A search that has ended has nothing before it. -/
theorem finish_below (positive : 0 < limit) (s : Search Rat) (ending : Ending) :
    (plan.finish s ending).Below plan limit := ⟨trivial, positive⟩

/-- The weight of two children on top of the other nodes. -/
theorem load_pushChildren (plan : Plan Rat) (p : Problem Rat) (s : Search Rat) (down up : Node Rat) :
    p.load (plan.pushChildren s down up).stack = down.load p + up.load p + p.load s.stack := by
  unfold pushChildren Problem.load
  cases plan.settings.childSelection with
  | down => simp only [List.map_cons, List.sum_cons, Nat.add_assoc]
  | up =>
    simp only [List.map_cons, List.sum_cons]
    omega

/-- Two tame children with less room make a search lighter. -/
theorem pushChildren_below {down up node : Node Rat} (tame : ∀ n ∈ s.stack, n.Tame plan.problem)
    (hdown : down.Tame plan.problem) (hup : up.Tame plan.problem)
    (smaller : down.room plan.problem < node.room plan.problem ∧
      up.room plan.problem < node.room plan.problem)
    (enough : plan.problem.load s.stack + node.load plan.problem ≤ limit) (e : JournalEvent Rat) :
    (Turn.proceed ((plan.pushChildren s down up).note e)).Below plan limit := by
  constructor
  · obtain ⟨children, stack_eq, mem⟩ := pushChildren_stack plan s down up
    show ∀ n ∈ (plan.pushChildren s down up).stack, n.Tame plan.problem
    rw [stack_eq]
    intro n hn
    rcases List.mem_append.mp hn with child | old
    · rcases (mem n).mp child with rfl | rfl
      · exact hdown
      · exact hup
    · exact tame n old
  · show plan.problem.load (plan.pushChildren s down up).stack + 2 < limit
    have lighter : down.load plan.problem + up.load plan.problem + 3 ≤ node.load plan.problem :=
      weight_add_weight_le smaller.1 smaller.2
    rw [load_pushChildren]
    omega

/-- A split of the node in hand makes a search lighter. -/
theorem split_below (nonneg : 0 ≤ plan.tolerance) (tame : ∀ n ∈ s.stack, n.Tame plan.problem)
    (hf : f.Inside plan) {split : Split Rat} (allowed : split.Allowed plan f)
    (enough : plan.problem.load s.stack + f.node.load plan.problem ≤ limit) :
    (Turn.proceed (plan.split s f split)).Below plan limit := by
  cases split with
  | onVariable v =>
    exact pushChildren_below tame (hf.tame.child _ _ _) (hf.tame.child _ _ _)
      (splitOnVariable_smaller nonneg hf allowed _ _ _) enough _
  | onSum vs sum =>
    have inside : ∀ v ∈ vs, v < plan.problem.size := fun v hv =>
      Problem.lt_size_of_isIntegral (allowed.2.1 v hv)
    unfold split
    simp only [Scalar.floor_eq, Scalar.ceil_eq]
    exact pushChildren_below tame (hf.tame.childWithRow _ _ allowed.1 inside _ _)
      (hf.tame.childWithRow _ _ allowed.1 inside _ _)
      (splitOnSum_smaller nonneg hf allowed _ _ _) enough _

/-- So does a split by the rule of the settings, which finds a fractional variable. -/
theorem splitByRule_below (nonneg : 0 ≤ plan.tolerance) (tame : ∀ n ∈ s.stack, n.Tame plan.problem)
    (hf : f.Inside plan) (enough : plan.problem.load s.stack + f.node.load plan.problem ≤ limit) :
    (Turn.proceed (plan.splitByRule s f)).Below plan limit := by
  obtain ⟨v, hv, selected⟩ := BranchingRule.select_mem plan.settings.rule hf.fractional f.values
    plan.rank s.engine
  rw [hf.candidates_eq] at hv
  have allowed : (Split.onVariable v : Split Rat).Allowed plan f := by
    refine ⟨Problem.isIntegral_of_mem_fractionalVars hv, .inl ?_⟩
    simpa using List.of_mem_filter hv
  unfold splitByRule
  simp only [selected]
  refine split_below nonneg ?_ hf allowed ?_
  · exact tame
  · exact enough

/-! ### Steps -/

/-- Behind the heuristic point of a node a search is lighter than before it. -/
theorem offerBranching_below (nonneg : 0 ≤ plan.tolerance)
    (tame : ∀ n ∈ s.stack, n.Tame plan.problem) (hf : f.Inside plan)
    (enough : plan.problem.load s.stack + f.node.load plan.problem < limit) :
    (plan.offerBranching s f).Below plan limit := by
  unfold offerBranching
  split
  · exact ⟨⟨tame, hf⟩, enough⟩
  · exact splitByRule_below nonneg tame hf enough.le

/-- With a solved node in hand a search is lighter than before it. -/
theorem offer_below (nonneg : 0 ≤ plan.tolerance) (tame : ∀ n ∈ s.stack, n.Tame plan.problem)
    (hf : f.Inside plan)
    (enough : plan.problem.load s.stack + f.node.load plan.problem + 1 < limit) :
    (plan.offer s f).Below plan limit := by
  unfold offer
  split
  · exact ⟨⟨tame, hf⟩, enough⟩
  · exact offerBranching_below nonneg tame hf (Nat.lt_of_succ_lt enough)

/-- Without the node in hand a search is lighter. -/
theorem dropped_below {node : Node Rat} (tame : ∀ n ∈ s.stack, n.Tame plan.problem)
    (enough : plan.problem.load s.stack + node.load plan.problem ≤ limit) :
    (Turn.proceed s).Below plan limit := by
  refine ⟨tame, ?_⟩
  have heavy : 3 ≤ node.load plan.problem := three_le_weight _
  show plan.problem.load s.stack + 2 < limit
  omega

/-- Behind the relaxation of a node a search is lighter. -/
theorem explore_below (nonneg : 0 ≤ plan.tolerance) (tame : ∀ n ∈ s.stack, n.Tame plan.problem)
    {node : Node Rat} (hn : node.Tame plan.problem) {bound : Rat} {values : Array Rat}
    (inBox : (node.box plan.problem).Contains plan.problem.size values)
    (holds : ∀ r ∈ node.rows, r.holds values 0 = true)
    (enough : plan.problem.load s.stack + node.load plan.problem + 1 < limit) :
    (plan.explore s node (node.box plan.problem) bound values).Below plan limit := by
  unfold explore
  simp only
  -- what is written into the journal does not matter
  generalize shown : (s.note (.nodeSolved node.number node.depth bound)).display plan
    (.node node.number node.depth bound s.stack.length) = s'
  have stack_eq : s'.stack = s.stack := by rw [← shown]; simp
  rw [← stack_eq] at tame enough
  have less : plan.problem.load s'.stack + node.load plan.problem ≤ limit := by omega
  split_ifs with useless whole
  · exact dropped_below (s := { s' with stats := _ }) tame less
  · exact dropped_below (s := s'.install plan values) tame less
  · exact offer_below nonneg tame ⟨hn, rfl, inBox, holds, rfl, by simpa using whole⟩ enough

/-- A search is lighter when it has solved the relaxation of a node. -/
theorem visit_below (nonneg : 0 ≤ plan.tolerance) (inside : plan.AnswersInside)
    (tame : ∀ n ∈ s.stack, n.Tame plan.problem) {node : Node Rat} (hn : node.Tame plan.problem)
    (enough : plan.problem.load s.stack + node.load plan.problem + 1 < limit) :
    (plan.visit s node).Below plan limit := by
  have positive : 0 < limit := Nat.zero_lt_of_lt enough
  unfold visit
  simp only
  split
  · exact ⟨trivial, positive⟩
  next relaxed answered =>
    obtain ⟨result, iterations⟩ := relaxed
    cases result with
    | infeasible =>
      have less : plan.problem.load s.stack + node.load plan.problem ≤ limit := by omega
      exact dropped_below (s := Search.note { s with stats := _ } _) tame less
    | unbounded => exact finish_below positive _ _
    | optimal bound values =>
      obtain ⟨inBox, holds⟩ := inside _ _ _ _ _ hn.subproblem answered
      refine explore_below nonneg ?_ hn inBox holds ?_
      · exact tame
      · exact enough

/-- A search is lighter when it has taken a node. -/
theorem advance_below (nonneg : 0 ≤ plan.tolerance) (inside : plan.AnswersInside)
    (tame : (Turn.proceed s).Tame plan) :
    (plan.advance s).Below plan ((Turn.proceed s).load plan.problem) := by
  have positive : 0 < (Turn.proceed s).load plan.problem := Nat.succ_pos _
  have tame : ∀ n ∈ s.stack, n.Tame plan.problem := tame
  unfold advance
  split
  · exact finish_below positive _ _
  next node rest stack_eq =>
    rw [stack_eq] at tame
    have below : ∀ n ∈ rest, n.Tame plan.problem := fun n hn => tame n (List.mem_cons_of_mem _ hn)
    have enough : plan.problem.load rest + node.load plan.problem + 1 <
        (Turn.proceed s).load plan.problem := by
      show _ < plan.problem.load s.stack + 2
      rw [stack_eq, Problem.load, Problem.load, List.map_cons, List.sum_cons]
      omega
    have less : plan.problem.load rest + node.load plan.problem ≤
        (Turn.proceed s).load plan.problem := by omega
    split
    · exact dropped_below (s := { s with stack := rest, stats := _ }) below less
    · simp only
      split
      · exact finish_below positive _ _
      · exact visit_below (s := { s with stack := rest, monitor := _ }) nonneg inside below
          (tame node List.mem_cons_self) enough

/-- A sum that is not refused is one over different integral variables. -/
theorem branchingSum_eq {seen vs : List Var} {start sum : Rat}
    (h : plan.branchingSum f seen vs start = .ok sum) :
    vs.Nodup ∧ (∀ v ∈ vs, v ∉ seen) ∧ sum = start + (vs.map fun v => f.values.getD v 0).sum := by
  induction vs generalizing seen start with
  | nil =>
    cases h
    exact ⟨List.nodup_nil, nofun, (add_zero _).symm⟩
  | cons w vs ih =>
    rw [branchingSum] at h
    split at h
    · cases h
    · split_ifs at h with repeated
      obtain ⟨nodup, new, sum_eq⟩ := ih h
      refine ⟨List.nodup_cons.mpr ⟨fun again => new w again List.mem_cons_self, nodup⟩, ?_, ?_⟩
      · intro v hv
        rcases List.mem_cons.mp hv with rfl | hv
        · exact repeated
        · exact fun old => new v hv (List.mem_cons_of_mem w old)
      · rw [sum_eq, List.map_cons, List.sum_cons, add_assoc]

/-- A choice that is not refused names a split that is allowed. -/
theorem splitOf_allowed {choice : Choice} {split : Split Rat}
    (h : plan.splitOf f choice = .ok (some split)) : split.Allowed plan f := by
  unfold splitOf at h
  split at h
  next v =>
    split at h
    · cases h
    next accepted =>
      cases h
      refine ⟨isIntegral_of_branchingRefusal?_eq_none accepted, .inr ?_⟩
      unfold branchingRefusal? at accepted
      split_ifs at accepted with _ _ fixed
      exact Bool.eq_false_iff.mpr fixed
  · cases h
  next vs _ =>
    cases summed : plan.branchingSum f [] vs 0 with
    | error e =>
      rw [summed] at h
      cases h
    | ok sum =>
      rw [summed] at h
      simp only [bind, Except.bind] at h
      split_ifs at h with whole
      cases h
      obtain ⟨nodup, -, sum_eq⟩ := branchingSum_eq summed
      rw [zero_add] at sum_eq
      exact ⟨nodup, isIntegral_of_branchingSum summed, sum_eq, Bool.eq_false_iff.mpr whole⟩
  · cases h

/-- A search has less before it when nothing speaks against what was decided. -/
theorem settle_below (nonneg : 0 ≤ plan.tolerance) {d : Decision Rat} (tame : (Turn.ask d).Tame plan)
    {split? : Option (Split Rat)} (allowed : ∀ split ∈ split?, split.Allowed plan d.focus) :
    (plan.settle d split?).Below plan ((Turn.ask d).load plan.problem) := by
  obtain ⟨tame, hf⟩ := tame
  have enough := Turn.le_load_ask plan.problem d
  unfold settle
  simp only
  split
  · exact finish_below (Turn.load_ask_pos _ d) _ _
  · split
    · exact dropped_below (s := { d.search with stats := _ }) tame enough
    · split
      next heuristic =>
        refine offerBranching_below nonneg tame hf ?_
        rw [Turn.load, heuristic]
        exact Nat.lt_succ_self _
      next branching =>
        split
        next split => exact split_below nonneg tame hf (allowed split rfl) enough
        next => exact splitByRule_below nonneg tame hf enough

/-- A search has less before it with any answer. -/
theorem resolve_below (nonneg : 0 ≤ plan.tolerance) {d : Decision Rat} (tame : (Turn.ask d).Tame plan)
    (reply : Attempt (SolverError Rat) Choice) :
    (plan.resolve d reply).Below plan ((Turn.ask d).load plan.problem) := by
  have positive := Turn.load_ask_pos plan.problem d
  cases reply with
  | error cause => exact ⟨trivial, positive⟩
  | ok choice =>
    show (plan.answer d choice).Below plan _
    unfold answer
    split_ifs
    · exact ⟨trivial, positive⟩
    · exact finish_below positive _ _
    · split
      · exact ⟨trivial, positive⟩
      next split? named =>
        refine settle_below nonneg tame fun split hs => ?_
        have named' : plan.splitOf d.focus choice = .ok (some split) := by rw [named, hs]
        exact splitOf_allowed named'

/-! ### Whole runs -/

/-- A search is over after as many turns as it has load before it. -/
theorem drive_isOver (nonneg : 0 ≤ plan.tolerance) (inside : plan.AnswersInside) {κ : Type}
    {handler : Handler Rat κ} (confined : handler.Confined) (turns : Nat) {turn : Turn Rat} (k : κ)
    (tame : turn.Tame plan) (enough : turn.load plan.problem ≤ turns) :
    (plan.drive handler turns turn k).1.IsOver := by
  induction turns generalizing turn k with
  | zero =>
    cases turn with
    | proceed s => cases enough
    | ask d => exact absurd enough (Nat.not_le.mpr (Turn.load_ask_pos _ d))
    | ended status dual s => trivial
    | failed cause s => trivial
  | succ turns ih =>
    cases turn with
    | proceed s =>
      obtain ⟨tame', light⟩ := advance_below nonneg inside tame
      exact ih k tame' (Nat.le_of_lt_succ (light.trans_le enough))
    | ask d =>
      -- what the handler does leaves the nodes alone
      have same := (confined plan d k).samePoint
      have load_eq : (Turn.ask (handler plan d k).2.1).load plan.problem =
          (Turn.ask d).load plan.problem := by
        simp only [Turn.load, same.stack, same.focus, same.point]
      have tame' : (Turn.ask (handler plan d k).2.1).Tame plan := by
        rw [Turn.Tame, same.stack, same.focus]
        exact tame
      obtain ⟨tame'', light⟩ := resolve_below nonneg tame' (handler plan d k).1
      rw [load_eq] at light
      exact ih _ tame'' (Nat.le_of_lt_succ (light.trans_le enough))
    | ended status dual s => trivial
    | failed cause s => trivial

/-- The start of a search has the root before it. -/
theorem start_tame (capped : ∀ x ∈ plan.problem.vars, x.kind.isIntegral = true →
    ∃ u, x.upper = .fin u) (stats : Statistics Rat) (incumbent : Option (Solution Rat))
    (interrupted : Bool) :
    (Turn.proceed (Search.start plan stats incumbent interrupted)).Tame plan ∧
      (Turn.proceed (Search.start plan stats incumbent interrupted)).load plan.problem =
        plan.problem.turns := by
  have stack_eq : (Search.start plan stats incumbent interrupted).stack =
      [Node.root plan.problem.sense.best] := by
    unfold Search.start
    simp
  constructor
  · show ∀ n ∈ (Search.start plan stats incumbent interrupted).stack, n.Tame plan.problem
    rw [stack_eq]
    intro n hn
    rw [List.mem_singleton.mp hn]
    refine ⟨.whole, fun v hv => ?_, nofun⟩
    have listed : v < plan.problem.vars.size := Problem.lt_size_of_isIntegral hv
    have kind : plan.problem.vars[v].kind.isIntegral = true := by
      simpa [Problem.isIntegral, listed] using hv
    obtain ⟨u, upper⟩ := capped _ (Array.getElem_mem listed) kind
    refine ⟨u, ?_⟩
    rw [← upper]
    simp [Node.box, Node.root, Box.ofProblem, Box.upperAt, Problem.upper, listed]
  · rw [Turn.load, stack_eq]
    rfl

/-- Every search ends. If the integral variables of a problem have upper bounds, comparisons have a
tolerance that is not negative, and the optima of relaxations lie within the bounds and rows of their
regions, then every search of the problem is over after a number of turns that depends on the problem
alone: whatever the settings, whatever the callback tries and branches on, and without any limit. -/
theorem search_ends (capped : ∀ x ∈ plan.problem.vars, x.kind.isIntegral = true →
      ∃ u, x.upper = .fin u) (nonneg : 0 ≤ plan.tolerance) (inside : plan.AnswersInside) {κ : Type}
    {handler : Handler Rat κ} (confined : handler.Confined) (stats : Statistics Rat)
    (incumbent : Option (Solution Rat)) (interrupted : Bool) (k : κ) :
    (plan.drive handler plan.problem.turns
      (.proceed (Search.start plan stats incumbent interrupted)) k).1.IsOver := by
  obtain ⟨tame, load_eq⟩ := start_tame capped stats incumbent interrupted
  exact drive_isOver nonneg inside confined _ k tame load_eq.le

end Plan

/-! ### A search that splits at sums -/

/-- The callback that splits at a sum of variables where the solver accepts it. -/
def Handler.summing (vs : List Var) : Handler Rat Unit := fun plan d k =>
  match plan.splitOf d.focus (.branchedSum vs) with
  | .ok _ => (.ok (.branchedSum vs), d, k)
  | .error _ => (.ok .didNotRun, d, k)

/-- It does nothing but choose. -/
theorem Handler.summing_confined (vs : List Var) : (Handler.summing vs).Confined := by
  intro plan d k
  unfold summing
  split <;> exact .refl

/-- The search of the crate ends if it splits at the sum of both loads. -/
theorem Plan.crate_ends : (Plan.crate.drive (Handler.summing [0, 1]) Problem.crate.turns
    (.proceed (Search.start Plan.crate {} none false)) ()).1.IsOver := by
  have capped : ∀ x ∈ Plan.crate.problem.vars, x.kind.isIntegral = true → ∃ u, x.upper = .fin u := by
    intro x listed _
    simp only [Plan.crate, Plan.unrounded, Problem.crate, List.mem_toArray, List.mem_cons,
      List.not_mem_nil, or_false] at listed
    rcases listed with rfl | rfl <;> exact ⟨5, rfl⟩
  exact Plan.search_ends capped le_rfl Plan.crate_exact.answersInside
    (Handler.summing_confined [0, 1]) {} none false ()

end Milp
