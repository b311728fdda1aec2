import Mathlib
import Milp.Proofs.Search.Branchable
import Milp.Proofs.Search.Improvement
import Milp.Proofs.Search.Partition

/-!
# The nodes of a search

Every node that a search comes to is what the decisions on its path leave of the root, whatever was
explored in between, since a node carries all of them.

* `Node.Descends` — how a node comes from the root, with the cuts on its path;
  `Node.Descends.region_iff` — these make its region.
* `Turn.Rooted` — the invariant of a search: open nodes come from the root, and the node in hand is
  solved.
* `Plan.nodes_partitioned` — every split that a search makes partitions a node, at whatever turn.
-/

namespace Milp

/-! ### The paths of nodes -/

/-- Whether a node comes from the root by splitting solved nodes, with the cuts on its path. What else
a search has explored before does not matter. -/
inductive Node.Descends (plan : Plan Rat) : Node Rat → List Cut → Prop
  | root : Descends plan (Node.root plan.problem.sense.best) []
  | down {f : Focus Rat} {split : Split Rat} {path : List Cut} (s : Search Rat) :
      Descends plan f.node path → f.Solved plan → split.Chosen plan f →
        Descends plan (plan.children f s split).1 (path ++ [(plan.cuts f split).1])
  | up {f : Focus Rat} {split : Split Rat} {path : List Cut} (s : Search Rat) :
      Descends plan f.node path → f.Solved plan → split.Chosen plan f →
        Descends plan (plan.children f s split).2 (path ++ [(plan.cuts f split).2])

section Paths

variable {plan : Plan Rat} {f : Focus Rat} {n : Node Rat} {path : List Cut}

/-- Children of a split have proper boxes. -/
theorem Split.Allowed.proper_children {split : Split Rat} (allowed : split.Allowed plan f)
    (nonneg : 0 ≤ plan.tolerance) (proper : (f.node.box plan.problem).Proper plan.problem)
    (s : Search Rat) :
    ((plan.children f s split).1.box plan.problem).Proper plan.problem ∧
      ((plan.children f s split).2.box plan.problem).Proper plan.problem := by
  cases split with
  | onVariable v =>
    obtain ⟨m, bounds_eq⟩ := allowed.bounds_eq nonneg
    simp only [Plan.children, bounds_eq, Node.box_child]
    exact ⟨proper.tighten ⟨rfl, m, rfl⟩ allowed.1,
      proper.tighten ⟨rfl, m + 1, by push_cast [BoundChange.bound]; rfl⟩ allowed.1⟩
  | onSum vs sum => exact ⟨proper, proper⟩

/-- The nodes that a search comes to have proper boxes. -/
theorem Node.Descends.proper (h : n.Descends plan path) (nonneg : 0 ≤ plan.tolerance)
    (proper : plan.problem.Proper) : (n.box plan.problem).Proper plan.problem := by
  induction h with
  | root => exact proper.box
  | down s _ solved chosen ih => exact ((chosen.allowed solved).proper_children nonneg ih s).1
  | up s _ solved chosen ih => exact ((chosen.allowed solved).proper_children nonneg ih s).2

/-- The optimum of a solved node lies in its box. -/
theorem Focus.Solved.proper (h : f.Solved plan) (integral : plan.Integral)
    (proper : (f.node.box plan.problem).Proper plan.problem) : f.Proper plan := by
  rw [← h.box_eq] at proper
  obtain ⟨iterations, answered⟩ := h.answered
  obtain ⟨uncrossed, size_eq, moved⟩ := integral.values _ _ _ _ _ answered rfl
  have size : f.box.lower.size = plan.problem.size := by rw [h.box_eq, Node.size_box]
  rw [size] at size_eq moved
  exact ⟨h.box_eq, proper, size_eq,
    proper.contains_clamped integral.moderate uncrossed fun v hv => (moved v hv).2⟩

/-- The region of a node is the region of the root under all cuts on its path. -/
theorem Node.Descends.region_iff (h : n.Descends plan path) (integral : plan.Integral)
    (proper : plan.problem.Proper) (x : Array Rat) :
    n.Region plan.problem x ↔
      (Node.root plan.problem.sense.best).Region plan.problem x ∧ ∀ c ∈ path, c.Holds x := by
  have nonneg : 0 ≤ plan.tolerance := integral.moderate.nonneg
  -- one more cut at the end of a path
  have extend {base : Prop} {path : List Cut} {c : Cut} :
      (base ∧ ∀ c ∈ path, c.Holds x) ∧ c.Holds x ↔ base ∧ ∀ c' ∈ path ++ [c], c'.Holds x := by
    simp only [List.mem_append, List.mem_singleton, or_imp, forall_and, forall_eq, and_assoc]
  induction h with
  | root => exact (and_iff_left nofun).symm
  | @down f split path s descends solved chosen ih =>
    have inBox := (solved.proper integral (descends.proper nonneg proper)).inBox
    have allowed := chosen.allowed solved
    have child := (Plan.region_children s (solved.box_eq ▸ inBox.defined)
      (fun v hv => Problem.lt_size_of_isIntegral (allowed.integral hv)) x).1
    exact child.trans ((and_congr_left' ih).trans extend)
  | @up f split path s descends solved chosen ih =>
    have inBox := (solved.proper integral (descends.proper nonneg proper)).inBox
    have allowed := chosen.allowed solved
    have child := (Plan.region_children s (solved.box_eq ▸ inBox.defined)
      (fun v hv => Problem.lt_size_of_isIntegral (allowed.integral hv)) x).2
    exact child.trans ((and_congr_left' ih).trans extend)

end Paths

/-! ### Runs -/

/-- The nodes that a search has before it: the open ones, and the one in hand. -/
def Turn.openNodes : Turn Rat → List (Node Rat)
  | .ask d => d.focus.node :: d.search.stack
  | turn => turn.search.stack

/-- Whether all open nodes come from the root. -/
def Search.Rooted (plan : Plan Rat) (s : Search Rat) : Prop :=
  ∀ n ∈ s.stack, ∃ path, n.Descends plan path

/-- Whether the node in hand is solved and comes from the root. -/
structure Focus.Rooted (plan : Plan Rat) (f : Focus Rat) : Prop where
  solved : f.Solved plan
  descends : ∃ path, f.node.Descends plan path

/-- Whether all nodes of a search come from the root, and the node in hand is solved. -/
def Turn.Rooted (plan : Plan Rat) : Turn Rat → Prop
  | .ask d => d.search.Rooted plan ∧ d.focus.Rooted plan
  | turn => turn.search.Rooted plan

section Steps

variable {plan : Plan Rat} {s : Search Rat} {f : Focus Rat}

/-- All nodes that a search has before it come from the root. -/
theorem Turn.Rooted.descends {turn : Turn Rat} (h : turn.Rooted plan) :
    ∀ n ∈ turn.openNodes, ∃ path, n.Descends plan path := by
  intro n hn
  cases turn with
  | proceed s => exact h n hn
  | ask d =>
    rcases List.mem_cons.mp hn with rfl | old
    · exact h.2.descends
    · exact h.1 n old
  | ended status dual s => exact h n hn
  | failed cause s => exact h n hn

namespace Focus.Rooted

/-- The children of a chosen split come from the root. -/
theorem split (h : f.Rooted plan) (hs : s.Rooted plan) {split : Split Rat}
    (chosen : split.Chosen plan f) : (plan.split s f split).Rooted plan := by
  obtain ⟨path, descends⟩ := h.descends
  have down : ∃ path, (plan.children f s split).1.Descends plan path :=
    ⟨_, .down s descends h.solved chosen⟩
  have up : ∃ path, (plan.children f s split).2.Descends plan path :=
    ⟨_, .up s descends h.solved chosen⟩
  intro n hn
  rcases Plan.split_stack plan s f split with stack_eq | stack_eq
  all_goals
    rw [stack_eq] at hn
    simp only [List.mem_cons] at hn
    rcases hn with rfl | rfl | old
  · exact down
  · exact up
  · exact hs n old
  · exact up
  · exact down
  · exact hs n old

/-- So do the children of a split by the rule of the settings. -/
theorem splitByRule (h : f.Rooted plan) (hs : s.Rooted plan) : (plan.splitByRule s f).Rooted plan := by
  unfold Plan.splitByRule
  simp only
  split
  next => exact hs
  next v selected => exact h.split (s := { s with engine := _ }) hs (.picked _ selected)

/-- Going on behind the heuristic point. -/
theorem offerBranching (h : f.Rooted plan) (hs : s.Rooted plan) :
    (plan.offerBranching s f).Rooted plan := by
  unfold Plan.offerBranching
  split
  · exact ⟨hs, h⟩
  · exact h.splitByRule hs

/-- Going on with a solved node. -/
theorem offer (h : f.Rooted plan) (hs : s.Rooted plan) : (plan.offer s f).Rooted plan := by
  unfold Plan.offer
  split
  · exact ⟨hs, h⟩
  · exact h.offerBranching hs

end Focus.Rooted

namespace Plan

/-- The end of a search leaves its nodes open. -/
theorem finish_rooted (hs : s.Rooted plan) (ending : Ending) : (plan.finish s ending).Rooted plan := by
  show (Turn.search (plan.finish s ending)).Rooted plan
  simp only [finish, Turn.search, Search.Rooted, Search.display_stack, Search.note_stack]
  exact hs

/-- A node where a search stops is left open with the others. -/
theorem stopAt_rooted (hs : s.Rooted plan) {node : Node Rat}
    (hn : ∃ path, node.Descends plan path) (status : SolveStatus) :
    (plan.stopAt s node status).Rooted plan := by
  refine finish_rooted (s := { s with stack := node :: s.stack }) (fun n hm => ?_) _
  rcases List.mem_cons.mp hm with rfl | old
  · exact hn
  · exact hs n old

/-- Going on with the optimum of a node's relaxation. -/
theorem explore_rooted (hs : s.Rooted plan) {node : Node Rat} {bound : Rat} {values : Array Rat}
    (hn : ∃ path, node.Descends plan path) {iterations : Nat}
    (answered : plan.relax (node.box plan.problem) node.rows =
      .ok ⟨.optimal bound values, iterations⟩) :
    (plan.explore s node (node.box plan.problem) bound values).Rooted plan := by
  unfold explore
  simp only
  -- what is written into the journal does not matter
  generalize shown : (s.note (.nodeSolved node.number node.depth bound)).display plan
    (.node node.number node.depth bound s.stack.length) = s'
  have kept : s'.Rooted plan := by
    rw [Search.Rooted, ← shown, Search.display_stack]
    exact hs
  split_ifs with useless whole
  · exact kept
  · exact kept
  · refine Focus.Rooted.offer ⟨⟨rfl, ⟨iterations, answered⟩, rfl, ?_⟩, hn⟩ kept
    simpa using whole

/-- Solving the relaxation of a node. -/
theorem visit_rooted (hs : s.Rooted plan) {node : Node Rat}
    (hn : ∃ path, node.Descends plan path) : (plan.visit s node).Rooted plan := by
  unfold visit
  simp only
  split
  · exact hs
  next relaxed answered =>
    obtain ⟨result, iterations⟩ := relaxed
    cases result with
    | infeasible => exact hs
    | unbounded =>
      refine finish_rooted ?_ _
      exact hs
    | optimal bound values =>
      refine explore_rooted ?_ hn answered
      exact hs

/-- Taking the next open node. -/
theorem advance_rooted (hs : s.Rooted plan) : (plan.advance s).Rooted plan := by
  unfold advance
  split
  · exact finish_rooted hs _
  next node rest stack_eq =>
    have others : ∀ n ∈ rest, ∃ path, n.Descends plan path :=
      fun n hn => hs n (stack_eq ▸ List.mem_cons_of_mem _ hn)
    have own : ∃ path, node.Descends plan path := hs node (stack_eq ▸ List.mem_cons_self)
    split
    · exact others
    · simp only
      split
      · exact stopAt_rooted (s := { s with stack := rest, monitor := _ }) others own _
      · exact visit_rooted (s := { s with stack := rest, monitor := _ }) others own

/-- Going on from a decision point with any answer. -/
theorem resolve_rooted {d : Decision Rat} (h : (Turn.ask d).Rooted plan)
    (reply : Attempt (SolverError Rat) Choice) : (plan.resolve d reply).Rooted plan := by
  obtain ⟨hs, hf⟩ := h
  cases reply with
  | error cause => exact hs
  | ok choice =>
    show (plan.answer d choice).Rooted plan
    unfold answer
    split_ifs
    · exact hs
    · exact stopAt_rooted hs hf.descends _
    · split
      · exact hs
      next split? accepted =>
        unfold settle
        simp only
        split
        · exact stopAt_rooted hs hf.descends _
        · split_ifs
          · exact hs
          · split
            · exact hf.offerBranching hs
            · split
              next split => exact hf.split hs (.named choice accepted)
              next => exact hf.splitByRule hs

/-- Every run keeps to nodes that come from the root. -/
theorem drive_rooted {κ : Type} {handler : Handler Rat κ} (confined : handler.Confined)
    (turns : Nat) {turn : Turn Rat} (k : κ) (rooted : turn.Rooted plan) :
    (plan.drive handler turns turn k).1.Rooted plan := by
  induction turns generalizing turn k with
  | zero => exact rooted
  | succ turns ih =>
    cases turn with
    | proceed s => exact ih k (advance_rooted rooted)
    | ask d =>
      -- what the handler does leaves the nodes alone
      have same := (confined plan d k).samePoint
      have rooted' : (Turn.ask (handler plan d k).2.1).Rooted plan := by
        rw [Turn.Rooted, Search.Rooted, same.stack, same.focus]
        exact rooted
      exact ih _ (resolve_rooted rooted' _)
    | ended => exact rooted
    | failed => exact rooted

/-- A search starts at the root. -/
theorem start_rooted (plan : Plan Rat) (stats : Statistics Rat) (incumbent : Option (Solution Rat))
    (interrupted : Bool) : (Search.start plan stats incumbent interrupted).Rooted plan := by
  intro n hn
  unfold Search.start at hn
  simp only [Search.display_stack, Search.note_stack, List.mem_singleton] at hn
  exact ⟨[], hn ▸ .root⟩

/-- A choice that names a split has it made, unless the node is pointless by then. -/
theorem answer_named {d : Decision Rat} {choice : Choice} {split : Split Rat}
    (accepted : plan.splitOf d.focus choice = .ok (some split))
    (answered : plan.answer d choice = .proceed s) :
    (plan.problem.canImprove (.fin d.focus.bound) d.search.incumbent plan.tolerance = false ∧
      s.stack = d.search.stack) ∨ s = plan.split d.search d.focus split := by
  -- only a choice that is made behind the heuristic point names a split
  have named : choice.isValidAt .heuristic = false := by
    cases choice <;> first | rfl | cases accepted
  unfold answer at answered
  rw [accepted] at answered
  split_ifs at answered with invalid
  · cases answered
  unfold settle at answered
  simp only at answered
  split at answered
  · cases answered
  · split_ifs at answered with pointless
    · cases answered
      exact .inl ⟨(Bool.not_eq_true' _).mp pointless, rfl⟩
    · split at answered
      next heuristic =>
        rw [heuristic, named] at invalid
        exact absurd rfl invalid
      next => exact .inr (Turn.proceed.inj answered).symm

/-- Branching partitions the nodes of every search. At whatever turn, the region of an open node is that
of the root under the decisions on its path; every split that may be made there, once the node is solved,
partitions it into the two children that are put on the stack; and where a decision is asked for, the
node in hand is solved, and what is named without being refused is split at. -/
theorem nodes_partitioned {p : Problem Rat} (proper : p.Proper) {settings : Settings Rat}
    (moderate : Scalar.Moderate settings.tolerance) (hooks : Option Hooks) (clock : Clock)
    {κ : Type} {handler : Handler Rat κ} (confined : handler.Confined) (stats : Statistics Rat)
    (incumbent : Option (Solution Rat)) (interrupted : Bool) (turns : Nat) (k : κ) :
    let plan := Plan.ofSettings p settings hooks clock
    let turn := (plan.drive handler turns
      (.proceed (Search.start plan stats incumbent interrupted)) k).1
    (∀ n ∈ turn.openNodes, ∃ path, n.Descends plan path ∧ ∀ x, n.Region p x ↔
      (Node.root p.sense.best).Region p x ∧ ∀ c ∈ path, c.Holds x) ∧
    (∀ f s split, f.node ∈ turn.openNodes → f.Solved plan → split.Chosen plan f →
      f.Partitioned plan split (plan.children f s split) ∧
      ((plan.split s f split).stack =
          (plan.children f s split).1 :: (plan.children f s split).2 :: s.stack ∨
        (plan.split s f split).stack =
          (plan.children f s split).2 :: (plan.children f s split).1 :: s.stack)) ∧
    ∀ d, turn = .ask d → d.focus.Solved plan ∧ ∀ choice split s,
      plan.splitOf d.focus choice = .ok (some split) → plan.answer d choice = .proceed s →
        (p.canImprove (.fin d.focus.bound) d.search.incumbent settings.tolerance = false ∧
          s.stack = d.search.stack) ∨ s = plan.split d.search d.focus split := by
  intro plan turn
  have integral : plan.Integral := Plan.ofSettings_integral proper.box.integral moderate hooks clock
  have rooted : turn.Rooted plan :=
    drive_rooted confined turns k (plan.start_rooted stats incumbent interrupted)
  refine ⟨fun n hn => ?_, fun f s split listed solved chosen => ?_, fun d asked => ?_⟩
  · obtain ⟨path, reached⟩ := rooted.descends n hn
    exact ⟨path, reached, reached.region_iff integral proper⟩
  · obtain ⟨path, reached⟩ := rooted.descends f.node listed
    have nonneg : 0 ≤ plan.tolerance := integral.moderate.nonneg
    exact ⟨children_partition s nonneg (solved.proper integral (reached.proper nonneg proper))
      (chosen.allowed solved), split_stack plan s f split⟩
  · rw [asked] at rooted
    exact ⟨rooted.2.solved, fun choice split s accepted answered => answer_named accepted answered⟩

end Plan
end Steps

/-! ### A decision point of a search -/

/-- The search of the crate within a millionth that asks for every decision. -/
def Plan.packing : Plan Rat := .ofSettings .crate .millionth (some ⟨true, some {}⟩)

/-- Whether a search waits at a node that a choice splits. -/
def Turn.waitsToSplit (plan : Plan Rat) (choice : Choice) : Turn Rat → Bool
  | .ask d => ((plan.splitOf d.focus choice).toOption.bind id).isSome
  | _ => false

/-- A search that waits so is at a decision point where the choice names a split. -/
theorem Turn.exists_split {plan : Plan Rat} {choice : Choice} {turn : Turn Rat}
    (h : turn.waitsToSplit plan choice = true) :
    ∃ d split, turn = .ask d ∧ plan.splitOf d.focus choice = .ok (some split) := by
  cases turn with
  | ask d =>
    cases named : plan.splitOf d.focus choice with
    | error e => simp [waitsToSplit, named, Except.toOption] at h
    | ok split? =>
      cases split? with
      | none => simp [waitsToSplit, named, Except.toOption] at h
      | some split => exact ⟨d, split, rfl, named⟩
  | _ => cases h

/-- The root of the crate is partitioned at the sum of both loads. -/
theorem Plan.packing_partitioned : ∃ d split,
    (Plan.packing.drive Handler.passive 2
      (.proceed (Search.start Plan.packing {} none false)) ()).1 = .ask d ∧
    Plan.packing.splitOf d.focus (.branchedSum [0, 1]) = .ok (some split) ∧
    d.focus.Partitioned Plan.packing split (Plan.packing.children d.focus d.search split) := by
  have proper : Problem.crate.Proper := by
    intro x listed
    simp only [Problem.crate, List.mem_toArray, List.mem_cons, List.not_mem_nil, or_false] at listed
    rcases listed with rfl | rfl
    · exact ⟨by decide, fun _ => ⟨⟨rfl, 0, rfl⟩, rfl, 5, rfl⟩⟩
    · exact ⟨by decide, fun _ => ⟨⟨rfl, 0, rfl⟩, rfl, 5, rfl⟩⟩
  have moderate : Scalar.Moderate Settings.millionth.tolerance :=
    ⟨rfl, by decide +kernel, by decide +kernel⟩
  have waits : (Plan.packing.drive Handler.passive 2
      (.proceed (Search.start Plan.packing {} none false)) ()).1.waitsToSplit Plan.packing
        (.branchedSum [0, 1]) = true := by
    decide +kernel
  obtain ⟨-, partitioned, asked⟩ := Plan.nodes_partitioned proper moderate
    (some ⟨true, some {}⟩) .still Handler.passive_confined {} none false 2 ()
  obtain ⟨d, split, turn_eq, named⟩ := Turn.exists_split waits
  refine ⟨d, split, turn_eq, named, ?_⟩
  have listed : d.focus.node ∈ (Turn.ask d).openNodes := List.mem_cons_self
  exact (partitioned d.focus d.search split (turn_eq ▸ listed) (asked d turn_eq).1
    (.named _ named)).1

end Milp
