import Milp.Proofs.Search.Callback
import Milp.Proofs.Search.Selection
import Milp.Proofs.Search.Splitting
import Milp.Search.Run

/-!
# Branch and bound is sound

Over exact numbers, with tolerance zero and with relaxations that are answered right
(`Plan.Exact`), a search that ends with a proof has one: an incumbent that is optimal, or the
certainty that no point is feasible. Callbacks may choose and try what they like as long as they
keep to what a decision point offers (`Handler.Confined`).

The route: `Turn.Sound` restates coverage at every place where a search can be after a step.
`advance_sound` and `answer_sound` carry it over a step of the search, `Turn.Sound.of_reaches` over
what a callback does in between, `drive_sound` over a whole run. `Problem.search_sound` reads the
result off the end of the run. Nothing in it depends on the rule, the order of the children, the
permutations or the seeds, so all searches of one problem agree on the optimum.
-/

namespace Milp

/-! ### Exact plans -/

/-- Whether a search makes no errors of rounding: comparisons have tolerance zero, and whenever a
relaxation that it can come to is answered, the answer is right. -/
structure Plan.Exact (plan : Plan Rat) : Prop where
  zero : plan.tolerance = 0
  answers : ∀ box rows relaxed, plan.problem.Subproblem box rows →
    plan.relax box rows = .ok relaxed → plan.problem.Answers box rows relaxed.result

namespace Search

variable {α : Type} (s : Search α) (plan : Plan α) (e : JournalEvent α) (line : ReaderLine α)

/-- The journal leaves the open nodes alone. -/
@[simp] theorem note_stack : (s.note e).stack = s.stack := rfl

/-- The journal leaves the incumbent alone. -/
@[simp] theorem note_incumbent : (s.note e).incumbent = s.incumbent := rfl

/-- Lines for the reader leave the open nodes alone. -/
@[simp] theorem display_stack : (s.display plan line).stack = s.stack := by
  unfold display
  split <;> rfl

/-- Lines for the reader leave the incumbent alone. -/
@[simp] theorem display_incumbent : (s.display plan line).incumbent = s.incumbent := by
  unfold display
  split <;> rfl

end Search

/-! ### Trials -/

namespace Plan.Exact

variable {plan : Plan Rat} {s : Search Rat} (exact : plan.Exact)

include exact

/-- Fixing the variables of an assignment leads to a smaller region of the problem. -/
theorem of_fixAll {assignment : List (Var × Rat)} {box fixed : Box Rat} {rows : List (Row Rat)}
    (h : Decision.fixAll plan assignment box = some fixed)
    (defined : box.Defined plan.problem.size) (sub : plan.problem.Subproblem box rows) :
    plan.problem.Subproblem fixed rows ∧
      ∀ x, fixed.Contains plan.problem.size x → box.Contains plan.problem.size x := by
  induction assignment generalizing box with
  | nil =>
    cases h
    exact ⟨sub, fun _ hx => hx⟩
  | cons a rest ih =>
    obtain ⟨v, a⟩ := a
    simp only [Decision.fixAll, exact.zero] at h
    split at h
    · cases h
    next refused =>
      simp only [Bool.or_eq_true, Bool.and_eq_true, decide_eq_true_iff, not_or, not_and, sub_zero,
        not_lt, Bool.not_eq_true', Bool.not_eq_false, Bool.not_eq_true] at refused
      obtain ⟨⟨lower, upper⟩, whole⟩ := refused
      have value_eq : (if plan.problem.isIntegral v then Scalar.round a else a) = a := by
        split
        next integral =>
          exact Scalar.round_of_whole ((Scalar.isWhole_zero_iff a).mp (by simpa using whole integral))
        next => rfl
      rw [value_eq] at h
      obtain ⟨sub', within⟩ := ih h (defined.fix v a) (sub.fix v a)
      refine ⟨sub', fun x hx => ?_⟩
      exact Box.contains_of_fix lower (fun hv => Extended.le_of_not_lt (defined v hv) upper)
        (within x hx)

/-- What a trial accepts is a point of the node in hand that is whole already, with the objective
value that was compared with the incumbent. -/
theorem admits_of_accepts {d : Decision Rat} {assignment : List (Var × Rat)} {values : Array Rat}
    (hn : d.focus.node.Sound plan.problem) (hf : d.focus.Sound plan.problem)
    (h : Decision.Accepts plan d assignment values) :
    plan.problem.Admits d.focus.box d.focus.node.rows values ∧
      plan.problem.fractionalVars 0 values = [] ∧
        plan.problem.canImprove (Scalar.extend (plan.problem.objectiveValue values))
          d.search.incumbent 0 = true := by
  obtain ⟨box, objective, iterations, fixed, answered, whole, improves⟩ := h
  rw [exact.zero] at whole improves
  have sub : plan.problem.Subproblem d.focus.box d.focus.node.rows := hf.box_eq ▸ hn.subproblem
  obtain ⟨sub', within⟩ := exact.of_fixAll fixed hf.admits.inBox.defined sub
  obtain ⟨admits, objective_eq, -⟩ := exact.answers _ _ _ sub' answered
  rw [objective_eq] at improves
  exact ⟨⟨admits.size_eq, within values admits.inBox, admits.constraints, admits.rows⟩, whole,
    improves⟩

/-- What a trial accepts is attained and improves on the incumbent. -/
theorem of_accepts {d : Decision Rat} {assignment : List (Var × Rat)} {values : Array Rat}
    (hn : d.focus.node.Sound plan.problem) (hf : d.focus.Sound plan.problem)
    (h : Decision.Accepts plan d assignment values) :
    plan.problem.Attains (plan.problem.roundedSolution values) ∧
      ∀ old ∈ d.search.incumbent,
        plan.problem.sense.Better (plan.problem.roundedSolution values).objective old.objective := by
  obtain ⟨inNode, whole, improves⟩ := exact.admits_of_accepts hn hf h
  refine ⟨Problem.attains_roundedSolution (hn.within values (hf.box_eq ▸ inNode)) whole, ?_⟩
  rw [Problem.roundedSolution_eq whole]
  exact Problem.better_of_canImprove improves

end Plan.Exact

/-! ### The invariant -/

/-- Whether what is known where a search is accounts for every feasible point: by the open nodes
and the node in hand while it goes on, by its status at the end. -/
def Turn.Sound (p : Problem Rat) : Turn Rat → Prop
  | .proceed s => p.Covers s.incumbent s.stack
  | .ask d => p.Covers d.search.incumbent (d.focus.node :: d.search.stack) ∧ d.focus.Sound p
  | .ended status _ s =>
    (status = .optimal → ∃ best, s.incumbent = some best ∧ p.Optimum best) ∧
      (status = .infeasible → ∀ x, ¬ p.Feasible x)
  | .failed _ _ => True

namespace Plan

variable {plan : Plan Rat} {s : Search Rat}

/-- A search that has explored every node ends with a proof. -/
theorem finish_explored_sound (h : plan.problem.Covers s.incumbent []) :
    (plan.finish s .explored).Sound plan.problem := by
  unfold finish
  simp only [Turn.Sound, endStatus, Search.display_incumbent]
  show (_ → ∃ best, s.incumbent = some best ∧ _) ∧ _
  cases incumbent : s.incumbent with
  | none => exact ⟨nofun, fun _ => (incumbent ▸ h).none_feasible⟩
  | some best => exact ⟨fun _ => ⟨best, rfl, (incumbent ▸ h).optimum⟩, nofun⟩

/-- A search that is unbounded or stopped claims nothing. -/
theorem finish_sound_of_status_ne {ending : Ending}
    (h : endStatus { s with monitor := s.monitor.after .exited } ending ≠ .optimal ∧
      endStatus { s with monitor := s.monitor.after .exited } ending ≠ .infeasible) :
    (plan.finish s ending).Sound plan.problem :=
  ⟨fun optimal => absurd optimal h.1, fun infeasible => absurd infeasible h.2⟩

/-- No reason to stop makes a proof. -/
theorem stopAt_ofStop_sound (s : Search Rat) (node : Node Rat) (reason : StopReason) :
    (plan.stopAt s node (.ofStop reason)).Sound plan.problem := by
  apply finish_sound_of_status_ne
  cases reason <;> exact ⟨nofun, nofun⟩

/-- Waiting at a decision point of a node keeps everything covered. -/
theorem askAt_sound {f : Focus Rat}
    (covers : plan.problem.Covers s.incumbent (f.node :: s.stack)) (hf : f.Sound plan.problem)
    (point : DecisionPoint) : (Turn.askAt s f point).Sound plan.problem := ⟨covers, hf⟩

/-- Splitting by the rule of the settings keeps everything covered. -/
theorem splitByRule_covers (zero : plan.tolerance = 0) {f : Focus Rat}
    (covers : plan.problem.Covers s.incumbent (f.node :: s.stack)) (hf : f.Sound plan.problem) :
    plan.problem.Covers (plan.splitByRule s f).incumbent (plan.splitByRule s f).stack := by
  obtain ⟨v, hv, selected⟩ := BranchingRule.select_mem plan.settings.rule hf.fractional f.values
    plan.rank s.engine
  have integral : plan.problem.isIntegral v = true :=
    Problem.isIntegral_of_mem_fractionalVars (hf.candidates_eq ▸ hv)
  unfold splitByRule
  simp only [selected]
  have named : (Split.onVariable v : Split Rat).Sound plan.problem := integral
  exact split_covers zero covers hf named

/-- Going on behind the heuristic point keeps everything covered. -/
theorem offerBranching_sound (zero : plan.tolerance = 0) {f : Focus Rat}
    (covers : plan.problem.Covers s.incumbent (f.node :: s.stack)) (hf : f.Sound plan.problem) :
    (plan.offerBranching s f).Sound plan.problem := by
  unfold offerBranching
  split
  · exact askAt_sound covers hf .branching
  · exact splitByRule_covers zero covers hf

/-- Going on with a solved node keeps everything covered. -/
theorem offer_sound (zero : plan.tolerance = 0) {f : Focus Rat}
    (covers : plan.problem.Covers s.incumbent (f.node :: s.stack)) (hf : f.Sound plan.problem) :
    (plan.offer s f).Sound plan.problem := by
  unfold offer
  split
  · exact askAt_sound covers hf .heuristic
  · exact offerBranching_sound zero covers hf

/-! ### A step from an open node -/

/-- Going on with the optimum of a node's relaxation keeps everything covered. -/
theorem explore_sound (zero : plan.tolerance = 0) {node : Node Rat} {box : Box Rat} {bound : Rat}
    {values : Array Rat} (covers : plan.problem.Covers s.incumbent (node :: s.stack))
    (box_eq : box = node.box plan.problem)
    (answers : plan.problem.Answers box node.rows (.optimal bound values)) :
    (plan.explore s node box bound values).Sound plan.problem := by
  obtain ⟨admits, bound_eq, unbeaten⟩ := answers
  have hn : node.Sound plan.problem := covers.sound node List.mem_cons_self
  have inNode : ∀ x, plan.problem.Admits (node.box plan.problem) node.rows x →
      ¬ plan.problem.sense.Better (plan.problem.objectiveValue x) bound :=
    fun x hx => unbeaten x (box_eq ▸ hx)
  unfold explore
  simp only [zero]
  -- what is written into the journal does not matter
  generalize shown : (s.note (.nodeSolved node.number node.depth bound)).display plan
    (.node node.number node.depth bound s.stack.length) = s'
  have stack_eq : s'.stack = s.stack := by rw [← shown]; simp
  have incumbent_eq : s'.incumbent = s.incumbent := by rw [← shown]; simp
  rw [← stack_eq, ← incumbent_eq] at covers
  split_ifs with useless whole
  · -- the node is dropped: its optimum does not improve
    refine covers.drop fun x hx => ?_
    have noBetter : plan.problem.sense.Bounds (Scalar.extend bound) (plan.problem.objectiveValue x) :=
      inNode x hx
    exact Problem.matched_of_bounds (by simpa using useless) noBetter
  · -- the optimum is whole: it becomes the incumbent, which then matches the rest of the node
    have whole : plan.problem.fractionalVars 0 values = [] := by simpa using whole
    have improved := covers.improve
      (Problem.attains_roundedSolution (hn.within values (box_eq ▸ admits)) whole) (by
        rw [Problem.roundedSolution_eq whole, ← bound_eq]
        exact Problem.better_of_canImprove (by simpa using useless))
    refine improved.drop fun x hx => ⟨_, rfl, ?_⟩
    rw [Problem.roundedSolution_eq whole, ← bound_eq]
    exact inNode x hx
  · -- the optimum is fractional: the node stays in hand
    refine offer_sound zero covers ⟨box_eq, admits, unbeaten, rfl, ?_⟩
    simpa using whole

/-- Solving the relaxation of a node keeps everything covered. -/
theorem visit_sound (exact : plan.Exact) {node : Node Rat}
    (covers : plan.problem.Covers s.incumbent (node :: s.stack)) :
    (plan.visit s node).Sound plan.problem := by
  have hn : node.Sound plan.problem := covers.sound node List.mem_cons_self
  unfold visit
  simp only
  split
  · trivial
  next relaxed answered =>
    have answers := exact.answers _ _ _ hn.subproblem answered
    split
    next infeasible =>
      rw [infeasible] at answers
      exact covers.drop fun x hx => absurd hx (answers x)
    next => exact finish_sound_of_status_ne ⟨nofun, nofun⟩
    next bound values optimal =>
      rw [optimal] at answers
      exact explore_sound exact.zero covers rfl answers

/-- Taking the next open node keeps everything covered. -/
theorem advance_sound (exact : plan.Exact) (covers : plan.problem.Covers s.incumbent s.stack) :
    (plan.advance s).Sound plan.problem := by
  unfold advance
  split
  next empty =>
    rw [empty] at covers
    exact finish_explored_sound covers
  next node rest nonempty =>
    rw [nonempty] at covers
    have hn : node.Sound plan.problem := covers.sound node List.mem_cons_self
    rw [exact.zero]
    split
    next useless =>
      exact covers.drop fun x hx =>
        Problem.matched_of_bounds (by simpa using useless) (hn.bounds x hx)
    next =>
      simp only
      split
      · exact stopAt_ofStop_sound _ node _
      · exact visit_sound exact covers

/-! ### A step from a decision point -/

/-- A branching that is not refused is on an integral variable. -/
theorem isIntegral_of_branchingRefusal?_eq_none {f : Focus Rat} {v : Var}
    (h : plan.branchingRefusal? f v = none) : plan.problem.isIntegral v = true := by
  unfold branchingRefusal? at h
  split_ifs at h with _ continuous
  simpa using continuous

/-- The variables of a sum that is not refused are integral. -/
theorem isIntegral_of_branchingSum {f : Focus Rat} {seen vs : List Var} {start sum : Rat}
    (h : plan.branchingSum f seen vs start = .ok sum) :
    ∀ v ∈ vs, plan.problem.isIntegral v = true := by
  induction vs generalizing seen start with
  | nil => exact nofun
  | cons w vs ih =>
    rw [branchingSum] at h
    split at h
    · cases h
    next accepted =>
      split_ifs at h
      intro v hv
      rcases List.mem_cons.mp hv with rfl | hv
      · exact isIntegral_of_branchingRefusal?_eq_none accepted
      · exact ih h v hv

/-- A choice that is not refused names a split at integers. -/
theorem splitOf_sound {f : Focus Rat} {choice : Choice} {split : Split Rat}
    (h : plan.splitOf f choice = .ok (some split)) : split.Sound plan.problem := by
  unfold splitOf at h
  split at h
  · split at h
    · cases h
    next accepted =>
      cases h
      exact isIntegral_of_branchingRefusal?_eq_none accepted
  · cases h
  next vs _ =>
    cases summed : plan.branchingSum f [] vs 0 with
    | error e =>
      rw [summed] at h
      cases h
    | ok sum =>
      rw [summed] at h
      simp only [bind, Except.bind] at h
      split_ifs at h
      cases h
      exact isIntegral_of_branchingSum summed
  · cases h

/-- Going on from a decision point where nothing speaks against it keeps everything covered. -/
theorem settle_sound (exact : plan.Exact) {d : Decision Rat}
    (h : (Turn.ask d).Sound plan.problem) {split? : Option (Split Rat)}
    (hs : ∀ split ∈ split?, split.Sound plan.problem) :
    (plan.settle d split?).Sound plan.problem := by
  obtain ⟨covers, hf⟩ := h
  unfold settle
  simp only [exact.zero]
  split
  · exact stopAt_ofStop_sound _ _ _
  · split
    next useless =>
      refine covers.drop fun x hx => ?_
      have noBetter : plan.problem.sense.Bounds (Scalar.extend d.focus.bound)
          (plan.problem.objectiveValue x) := hf.unbeaten x (hf.box_eq ▸ hx)
      exact Problem.matched_of_bounds (by simpa using useless) noBetter
    · split
      · exact offerBranching_sound exact.zero covers hf
      · split
        next split => exact split_covers exact.zero covers hf (hs split rfl)
        next => exact splitByRule_covers exact.zero covers hf

/-- Going on with the choice made at a decision point keeps everything covered. -/
theorem answer_sound (exact : plan.Exact) {d : Decision Rat}
    (h : (Turn.ask d).Sound plan.problem) (choice : Choice) :
    (plan.answer d choice).Sound plan.problem := by
  unfold answer
  split_ifs
  · trivial
  · exact finish_sound_of_status_ne ⟨nofun, nofun⟩
  · split
    · trivial
    next split? named =>
      refine settle_sound exact h fun split hs => ?_
      have named' : plan.splitOf d.focus choice = .ok (some split) := by rw [named, hs]
      exact splitOf_sound named'

/-- What a callback does at a decision point keeps everything covered. -/
theorem reaches_sound (exact : plan.Exact) {d e : Decision Rat}
    (h : (Turn.ask d).Sound plan.problem) (reaches : d.Reaches plan e) :
    (Turn.ask e).Sound plan.problem := by
  induction reaches with
  | refl => exact h
  | interrupt _ ih => exact ih
  | @trial e assignment _ ih =>
    obtain ⟨covers, hf⟩ := ih
    have same := Decision.samePoint_tryAssignment plan e assignment
    rw [Turn.Sound, same.focus, same.stack]
    refine ⟨?_, hf⟩
    rcases Decision.tryAssignment_incumbent plan e assignment with unchanged | ⟨values, found, new⟩
    · rw [unchanged]
      exact covers
    · obtain ⟨attained, improves⟩ :=
        exact.of_accepts (covers.sound _ List.mem_cons_self) hf found
      rw [new]
      exact covers.improve attained improves

/-! ### A whole run -/

/-- A run keeps everything covered. -/
theorem drive_sound (exact : plan.Exact) {κ : Type} {handler : Handler Rat κ}
    (confined : handler.Confined) (turns : Nat) {turn : Turn Rat} (k : κ)
    (h : turn.Sound plan.problem) : (plan.drive handler turns turn k).1.Sound plan.problem := by
  induction turns generalizing turn k with
  | zero => exact h
  | succ turns ih =>
    cases turn with
    | proceed s => exact ih k (advance_sound exact h)
    | ask d =>
      have reached := reaches_sound exact h (confined plan d k)
      simp only [drive]
      refine ih _ ?_
      unfold resolve
      split
      · exact answer_sound exact reached _
      · trivial
    | ended status dual s => exact h
    | failed cause s => exact h

/-- The start of a search covers the problem. -/
theorem start_sound (stats : Statistics Rat) (interrupted : Bool) :
    (Turn.proceed (Search.start plan stats none interrupted)).Sound plan.problem := by
  unfold Search.start
  simp only [Turn.Sound, Search.display_incumbent, Search.display_stack]
  exact Problem.covers_root plan.problem

end Plan

/-! ### What a finished search has proved -/

/-- Whether a search without errors of rounding can end with a status and an incumbent: the
settings, the orders of variables and rows, the seeds and the callback are any at all. -/
inductive Problem.SearchEnds (p : Problem Rat) (status : SolveStatus)
    (incumbent : Option (Solution Rat)) : Prop
  | intro {κ : Type} (plan : Plan Rat) (handler : Handler Rat κ) (stats : Statistics Rat)
      (interrupted : Bool) (turns : Nat) (first last : κ) (dual : Extended Rat) (s : Search Rat)
      (problem_eq : plan.problem = p) (exact : plan.Exact) (confined : handler.Confined)
      (run : plan.drive handler turns (.proceed (Search.start plan stats none interrupted)) first =
        (.ended status dual s, last))
      (incumbent_eq : s.incumbent = incumbent)

/-- The invariant holds at the end of a search. -/
theorem Problem.SearchEnds.sound {p : Problem Rat} {status : SolveStatus}
    {incumbent : Option (Solution Rat)} (h : p.SearchEnds status incumbent) :
    (status = .optimal → ∃ best, incumbent = some best ∧ p.Optimum best) ∧
      (status = .infeasible → ∀ x, ¬ p.Feasible x) := by
  obtain ⟨plan, handler, stats, interrupted, turns, first, last, dual, s, rfl, exact, confined, run,
    rfl⟩ := h
  have sound := Plan.drive_sound exact confined turns first (plan.start_sound stats interrupted)
  rw [run] at sound
  exact sound

/-- Branch and bound is sound. A search that ends with an optimum has a feasible point as its
incumbent that no feasible point beats; a search that ends with infeasibility is of a problem
without feasible points. Whatever the settings and the callbacks, the optimum is the same. -/
theorem Problem.search_sound (p : Problem Rat) :
    (∀ incumbent, p.SearchEnds .optimal incumbent → ∃ best, incumbent = some best ∧
      p.isFeasible best.values 0 = true ∧ best.objective = p.objectiveValue best.values ∧
        ∀ x, p.isFeasible x 0 = true → ¬ p.sense.Better (p.objectiveValue x) best.objective) ∧
      (∀ incumbent, p.SearchEnds .infeasible incumbent → ∀ x, p.isFeasible x 0 = false) ∧
        ∀ a b, p.SearchEnds .optimal (some a) → p.SearchEnds .optimal (some b) →
          a.objective = b.objective := by
  refine ⟨fun incumbent h => ?_, fun incumbent h x => ?_, fun a b ha hb => ?_⟩
  · obtain ⟨best, rfl, optimum⟩ := h.sound.1 rfl
    refine ⟨best, rfl, (p.isFeasible_zero_iff _).mpr optimum.feasible, optimum.objective_eq, ?_⟩
    exact fun x hx => optimum.unbeaten x ((p.isFeasible_zero_iff x).mp hx)
  · have infeasible := h.sound.2 rfl x
    rw [← p.isFeasible_zero_iff, Bool.not_eq_true] at infeasible
    exact infeasible
  · obtain ⟨_, ⟨⟩, optimumA⟩ := ha.sound.1 rfl
    obtain ⟨_, ⟨⟩, optimumB⟩ := hb.sound.1 rfl
    -- neither of two optima beats the other
    refine Sense.eq_of_not_better (s := p.sense) ?_ ?_
    · rw [optimumA.objective_eq]
      exact optimumB.unbeaten _ optimumA.feasible
    · rw [optimumB.objective_eq]
      exact optimumA.unbeaten _ optimumB.feasible

/-! ### A search that finds an optimum -/

/-- Maximise a variable that is whole, at most three, and at most three when doubled. -/
def Problem.halved : Problem Rat where
  name := "halved"
  sense := .maximize
  vars := #[⟨"x", .integer, 1, 0, .fin 3⟩]
  constraints := #[⟨⟨[(0, 2)], .lessEqual, 3⟩, "twice"⟩]

/-- The search of the problem by hand: the largest value within the bounds is the optimum of a
relaxation; relaxations with local rows are refused. Both decisions of a node are taken outside. -/
def Plan.halved : Plan Rat where
  problem := .halved
  settings := ⟨none, none, none, 0, .mostFractional, .down, false, false, 0, 0, 0, 0, ""⟩
  relax box rows :=
    match rows, box.upperAt 0 with
    | [], .fin upper =>
      let largest := min upper (3 / 2)
      .ok ⟨if box.lowerAt 0 ≤ largest then .optimal largest #[largest] else .infeasible, 1⟩
    | _, _ => .error (.iterationLimit 0)
  rank := #[0]
  hooks := some ⟨true, some {}⟩

/-- The points of a relaxation of the problem without local rows. -/
theorem Problem.halved_admits_iff {box : Box Rat} {upper : Rat} (h : box.upperAt 0 = .fin upper)
    (x : Array Rat) : Problem.halved.Admits box [] x ↔
      ∃ a, x = #[a] ∧ box.lowerAt 0 ≤ a ∧ a ≤ min upper (3 / 2) := by
  constructor
  · rintro ⟨size_eq, inBox, constraints, -⟩
    obtain ⟨a, rfl⟩ := Array.size_eq_one_iff.mp size_eq
    have bounds := inBox 0 Nat.one_pos
    have twice := constraints _ (Array.mem_singleton.mpr rfl)
    simp [h, Row.holds, Row.activity, Scalar.sum_eq, Extended.le_fin] at bounds twice
    refine ⟨a, rfl, bounds.1, le_min bounds.2 ?_⟩
    linarith
  · rintro ⟨a, rfl, lower, largest⟩
    obtain ⟨upper, twice⟩ := le_min_iff.mp largest
    refine ⟨rfl, fun v hv => ?_, fun c hc => ?_, fun r hr => absurd hr List.not_mem_nil⟩
    · obtain rfl : v = 0 := Nat.lt_one_iff.mp hv
      simp [h, Extended.le_fin]
      exact ⟨lower, upper⟩
    · rw [Array.mem_singleton.mp hc]
      simp [Row.holds, Row.activity, Scalar.sum_eq]
      linarith

/-- Nothing is lost to rounding in the search by hand. -/
theorem Plan.halved_exact : Plan.halved.Exact where
  zero := rfl
  answers box rows relaxed sub h := by
    clear sub
    simp only [Plan.halved] at h
    split at h
    next upper upper_eq =>
      cases h
      have objective_eq : ∀ a : Rat, Problem.halved.objectiveValue #[a] = a := fun a => by
        simp [Problem.halved, Problem.objectiveValue, Scalar.sum_eq]
      have admits := Problem.halved_admits_iff upper_eq
      simp only
      split
      next lower =>
        refine ⟨(admits _).mpr ⟨_, rfl, lower, le_rfl⟩, (objective_eq _).symm, fun x hx => ?_⟩
        obtain ⟨a, rfl, -, largest⟩ := (admits x).mp hx
        show ¬ _ < Problem.halved.objectiveValue #[a]
        rw [objective_eq]
        exact not_lt.mpr largest
      next lower =>
        intro x hx
        obtain ⟨a, -, above, largest⟩ := (admits x).mp hx
        exact lower (above.trans largest)
    · cases h

/-- A callback that proves nothing by itself: it tries a point, then names the only candidate. -/
def Script.halved : Script Rat where
  moves := [⟨false, [.attempt [(0, 0)] false], .heuristic⟩]
  tail := ⟨false, [], .candidate 0⟩

/-- Whether a search has ended with an optimum of the given value. -/
def Turn.showsOptimum (a : Rat) : Turn Rat → Bool
  | .ended status _ s => status == .optimal && (s.incumbent.map (·.objective)) == some a
  | _ => false

/-- The search by hand ends with the optimum one. -/
theorem Problem.halved_searchEnds : ∃ best : Solution Rat,
    Problem.halved.SearchEnds .optimal (some best) ∧ best.objective = 1 := by
  have shown : (Plan.halved.drive Script.handler 20
      (.proceed (Search.start Plan.halved {} none false)) Script.halved).1.showsOptimum 1 = true := by
    decide +kernel
  generalize run : Plan.halved.drive Script.handler 20
    (.proceed (Search.start Plan.halved {} none false)) Script.halved = last at shown
  obtain ⟨turn, script⟩ := last
  cases turn with
  | ended status dual s =>
    simp only [Turn.showsOptimum, Bool.and_eq_true, beq_iff_eq, Option.map_eq_some_iff] at shown
    obtain ⟨rfl, best, incumbent_eq, objective_eq⟩ := shown
    exact ⟨best, ⟨Plan.halved, Script.handler, {}, false, 20, Script.halved, script, dual, s, rfl,
      Plan.halved_exact, Script.handler_confined, run, incumbent_eq⟩, objective_eq⟩
  | proceed s => cases shown
  | ask d => cases shown
  | failed cause s => cases shown

/-- No feasible point of the problem is better than one, since a search found one and ended. -/
theorem Problem.halved_sound : ∃ best : Solution Rat,
    Problem.halved.SearchEnds .optimal (some best) ∧ best.objective = 1 ∧
      Problem.halved.isFeasible best.values 0 = true ∧ ∀ x, Problem.halved.isFeasible x 0 = true →
        ¬ Sense.maximize.Better (Problem.halved.objectiveValue x) 1 := by
  obtain ⟨best, ends, objective_eq⟩ := Problem.halved_searchEnds
  obtain ⟨_, ⟨⟩, feasible, -, unbeaten⟩ := (Problem.search_sound .halved).1 (some best) ends
  exact ⟨best, ends, objective_eq, feasible, objective_eq ▸ unbeaten⟩

end Milp
