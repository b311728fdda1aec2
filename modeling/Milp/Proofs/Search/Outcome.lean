import Milp.Proofs.Search.Limits

/-!
# What a step does to a node

A step of a search does one of few things to the node that it takes up: it drops it, splits it in two,
asks for a decision there, leaves it open at the end, or ends or fails there. `Plan.Outcome` lists them,
with what becomes of the other open nodes, of the numbers of nodes and of the counters;
`Plan.advance_outcome` and `Plan.resolve_outcome` say that these are all. What a callback does in between
leaves all nodes as they are (`Decision.Reaches.sameNodes`).

The counters of the work that is done, of explored nodes and of pivots, never go back
(`Statistics.Grows`).
-/

namespace Milp

variable {α : Type}

/-! ### Work -/

/-- Whether the counters of the work that is done have not gone back, as long as they were in range. -/
structure Statistics.Grows (c c' : Statistics α) : Prop where
  nodes : c.nodesExplored ≤ counterLimit →
    c.nodesExplored ≤ c'.nodesExplored ∧ c'.nodesExplored ≤ counterLimit
  iterations : c.iterations ≤ counterLimit →
    c.iterations ≤ c'.iterations ∧ c'.iterations ≤ counterLimit

namespace Statistics.Grows

variable {c c' c'' : Statistics α}

/-- Where no work is done, the counters stay. -/
theorem of_eq (nodes : c'.nodesExplored = c.nodesExplored) (iterations : c'.iterations = c.iterations) :
    c.Grows c' where
  nodes inRange := ⟨nodes.ge, nodes.le.trans inRange⟩
  iterations inRange := ⟨iterations.ge, iterations.le.trans inRange⟩

/-- Counters that do not move do not go back. -/
theorem refl (c : Statistics α) : c.Grows c := of_eq rfl rfl

/-- Not going back is transitive. -/
theorem trans (h : c.Grows c') (h' : c'.Grows c'') : c.Grows c'' where
  nodes inRange :=
    ⟨(h.nodes inRange).1.trans (h'.nodes (h.nodes inRange).2).1, (h'.nodes (h.nodes inRange).2).2⟩
  iterations inRange :=
    ⟨(h.iterations inRange).1.trans (h'.iterations (h.iterations inRange).2).1,
      (h'.iterations (h.iterations inRange).2).2⟩

/-- Solving a relaxation is work. -/
theorem relaxation (c : Statistics α) (pivots : Nat) : c.Grows (c.onRelaxation pivots) where
  nodes inRange := ⟨le_rfl, inRange⟩
  iterations inRange := ⟨le_countUp le_rfl inRange pivots, countUp_le _ _⟩

/-- Exploring a node is work. -/
theorem explored (c : Statistics α) (depth : Nat) : c.Grows (c.onExplored depth) where
  nodes inRange := ⟨le_countUp le_rfl inRange 1, countUp_le _ _⟩
  iterations inRange := ⟨le_rfl, inRange⟩

end Statistics.Grows

/-! ### Outcomes -/

/-- Whether a node carries one decision more than another one. -/
structure Node.Extends (n parent : Node α) : Prop where
  depth : n.depth = parent.depth + 1
  decisions : n.changes.length + n.rows.length = parent.changes.length + parent.rows.length + 1

/-- Whether a search has the same nodes before it and behind it as it had. It may have done some work. -/
structure Search.SameNodes (s s' : Search α) : Prop where
  stack : s'.stack = s.stack
  lastNumber : s'.lastNumber = s.lastNumber
  branchings : s'.stats.branchings = s.stats.branchings
  work : s.stats.Grows s'.stats

/-- Whether a search has split a node that it had in hand. -/
structure Search.Splits (s : Search α) (n a b : Node α) (s' : Search α) : Prop where
  stack : s'.stack = a :: b :: s.stack
  first : a.Extends n
  second : b.Extends n
  numbers : (a.number = s.lastNumber + 1 ∧ b.number = s.lastNumber + 2) ∨
    (a.number = s.lastNumber + 2 ∧ b.number = s.lastNumber + 1)
  lastNumber : s'.lastNumber = s.lastNumber + 2
  branchings : s'.stats.branchings = countUp s.stats.branchings
  work : s.stats.Grows s'.stats

/-- What becomes of the node in hand in a step of a search. -/
inductive Plan.Outcome (s : Search α) (n : Node α) : Turn α → Prop
  | dropped {s' : Search α} (same : s.SameNodes s') : Outcome s n (.proceed s')
  | split {s' : Search α} (a b : Node α) (splits : s.Splits n a b s') : Outcome s n (.proceed s')
  | asked {d : Decision α} (node_eq : d.focus.node = n) (same : s.SameNodes d.search) :
      Outcome s n (.ask d)
  | stopped {status : SolveStatus} {dual : Extended α} {s' : Search α}
      (same : Search.SameNodes { s with stack := n :: s.stack } s') : Outcome s n (.ended status dual s')
  | ended {status : SolveStatus} {dual : Extended α} {s' : Search α} (same : s.SameNodes s') :
      Outcome s n (.ended status dual s')
  | failed {cause : Failure (SolverError α)} {s' : Search α} (same : s.SameNodes s') :
      Outcome s n (.failed cause s')

namespace Node

/-- A child by a bound carries one decision more. -/
theorem extends_child (n : Node α) (number : Nat) (bound : Extended α) (change : BoundChange α) :
    (n.child number bound change).Extends n :=
  ⟨rfl, by simp only [child, List.length_append, List.length_singleton]; omega⟩

/-- So does a child by a row. -/
theorem extends_childWithRow (n : Node α) (number : Nat) (bound : Extended α) (row : Row α) :
    (n.childWithRow number bound row).Extends n :=
  ⟨rfl, by simp only [childWithRow, List.length_append, List.length_singleton]; omega⟩

end Node

namespace Search.SameNodes

variable {s s' s'' : Search α}

/-- A search has its own nodes. -/
theorem refl (s : Search α) : s.SameNodes s := ⟨rfl, rfl, rfl, .refl s.stats⟩

/-- Having the same nodes is transitive. -/
theorem trans (h : s.SameNodes s') (h' : s'.SameNodes s'') : s.SameNodes s'' where
  stack := h'.stack.trans h.stack
  lastNumber := h'.lastNumber.trans h.lastNumber
  branchings := h'.branchings.trans h.branchings
  work := h.work.trans h'.work

end Search.SameNodes

namespace Plan

variable {plan : Plan α} {s s' : Search α} {n : Node α} {turn : Turn α}

/-- No step takes work back. -/
theorem Outcome.work (h : Outcome s n turn) : s.stats.Grows turn.search.stats := by
  cases h with
  | dropped same => exact same.work
  | split a b splits => exact splits.work
  | asked node_eq same => exact same.work
  | stopped same => exact same.work
  | ended same => exact same.work
  | failed same => exact same.work

/-- What has been written or counted before does not matter. -/
theorem Outcome.of_same (same : s.SameNodes s') (h : Outcome s' n turn) : Outcome s n turn := by
  cases h with
  | dropped same' => exact .dropped (same.trans same')
  | split a b splits =>
    exact .split a b {
      stack := splits.stack.trans (by rw [same.stack])
      first := splits.first
      second := splits.second
      numbers := by rw [← same.lastNumber]; exact splits.numbers
      lastNumber := by rw [← same.lastNumber]; exact splits.lastNumber
      branchings := by rw [← same.branchings]; exact splits.branchings
      work := same.work.trans splits.work }
  | asked node_eq same' => exact .asked node_eq (same.trans same')
  | stopped same' =>
    have left : Search.SameNodes { s with stack := n :: s.stack } { s' with stack := n :: s'.stack } :=
      ⟨congrArg (n :: ·) same.stack, same.lastNumber, same.branchings, same.work⟩
    exact .stopped (left.trans same')
  | ended same' => exact .ended (same.trans same')
  | failed same' => exact .failed (same.trans same')

/-- Two children take the place of the node in hand. -/
theorem pushChildren_splits (plan : Plan α) (s : Search α) {down up : Node α} (hd : down.Extends n)
    (hu : up.Extends n) (down_eq : down.number = s.lastNumber + 1)
    (up_eq : up.number = s.lastNumber + 2) :
    ∃ a b, s.Splits n a b (plan.pushChildren s down up) := by
  have work : s.stats.Grows s.stats.onBranched := .of_eq rfl rfl
  unfold pushChildren
  cases plan.settings.childSelection with
  | down => exact ⟨down, up, rfl, hd, hu, .inl ⟨down_eq, up_eq⟩, rfl, rfl, work⟩
  | up => exact ⟨up, down, rfl, hu, hd, .inr ⟨up_eq, down_eq⟩, rfl, rfl, work⟩

variable [Scalar α] {f : Focus α} {d : Decision α}

/-- A split of the node in hand. -/
theorem split_outcome (plan : Plan α) (s : Search α) (f : Focus α) (split : Split α) :
    Outcome s f.node (.proceed (plan.split s f split)) := by
  cases split with
  | onVariable v =>
    obtain ⟨a, b, splits⟩ := plan.pushChildren_splits s (Node.extends_child f.node _ _ _)
      (Node.extends_child f.node _ _ _) rfl rfl
    exact .split a b { splits with }
  | onSum vs sum =>
    obtain ⟨a, b, splits⟩ := plan.pushChildren_splits s (Node.extends_childWithRow f.node _ _ _)
      (Node.extends_childWithRow f.node _ _ _) rfl rfl
    exact .split a b { splits with }

/-- A split by the rule of the settings. -/
theorem splitByRule_outcome (plan : Plan α) (s : Search α) (f : Focus α) :
    Outcome s f.node (.proceed (plan.splitByRule s f)) := by
  unfold splitByRule
  simp only
  split
  · exact .dropped ⟨rfl, rfl, rfl, .refl s.stats⟩
  · refine .of_same ?_ (split_outcome plan _ f _)
    exact ⟨rfl, rfl, rfl, .refl s.stats⟩

/-- The end of a search. -/
theorem finish_same (plan : Plan α) (s : Search α) (ending : Ending) :
    ∃ status dual s', plan.finish s ending = .ended status dual s' ∧ s.SameNodes s' := by
  obtain ⟨dual, journal, finish_eq⟩ := plan.finish_eq s ending
  exact ⟨_, dual, _, finish_eq, rfl, rfl, rfl, .refl s.stats⟩

/-- A search that stops leaves the node in hand open. -/
theorem stopAt_outcome (plan : Plan α) (s : Search α) (n : Node α) (status : SolveStatus) :
    Outcome s n (plan.stopAt s n status) := by
  obtain ⟨status', dual, s', finish_eq, same⟩ :=
    plan.finish_same { s with stack := n :: s.stack } (.stopped status)
  rw [stopAt, finish_eq]
  exact .stopped same

/-- Going on behind the heuristic point of a node. -/
theorem offerBranching_outcome (plan : Plan α) (s : Search α) (node_eq : f.node = n) :
    Outcome s n (plan.offerBranching s f) := by
  unfold offerBranching
  split
  · exact .asked node_eq ⟨rfl, rfl, rfl, .of_eq rfl rfl⟩
  · exact node_eq ▸ splitByRule_outcome plan s f

/-- Going on with a node that has an optimum. -/
theorem explore_outcome (plan : Plan α) (s : Search α) (node : Node α) (box : Box α) (bound : α)
    (values : Array α) : Outcome s node (plan.explore s node box bound values) := by
  have work (c : Statistics α) (nodes : c.nodesExplored = s.stats.nodesExplored)
      (iterations : c.iterations = s.stats.iterations) : s.stats.Grows c := .of_eq nodes iterations
  unfold explore
  simp only
  obtain ⟨journal, shown⟩ := (s.note (.nodeSolved node.number node.depth bound)).display_eq plan
    (.node node.number node.depth bound s.stack.length)
  rw [shown]
  split_ifs
  · exact .dropped ⟨rfl, rfl, rfl, work _ rfl rfl⟩
  · exact .dropped ⟨rfl, rfl, rfl, work _ rfl rfl⟩
  · unfold offer
    split
    · exact .asked rfl ⟨rfl, rfl, rfl, work _ rfl rfl⟩
    · refine .of_same ?_ (offerBranching_outcome plan _ rfl)
      exact ⟨rfl, rfl, rfl, work _ rfl rfl⟩

/-- Solving the relaxation of a node and going on with it. -/
theorem visit_outcome (plan : Plan α) (s : Search α) (node : Node α) :
    Outcome s node (plan.visit s node) := by
  unfold visit
  simp only
  split
  · exact .failed (.refl s)
  next relaxed _ =>
    generalize stats_eq : (if node.depth = 0 then _ else _) = stats
    have branchings : stats.branchings = s.stats.branchings := by
      rw [← stats_eq]
      split <;> rfl
    have work : s.stats.Grows stats := by
      have counted := (Statistics.Grows.relaxation s.stats relaxed.iterations).trans
        (.explored _ node.depth)
      rw [← stats_eq]
      split
      · exact counted.trans (.of_eq rfl rfl)
      · exact counted
    split
    · exact .dropped ⟨rfl, rfl, branchings, work.trans (.of_eq rfl rfl)⟩
    · obtain ⟨status, dual, s', finish_eq, same⟩ := plan.finish_same { s with stats } .unbounded
      rw [finish_eq]
      exact .ended ⟨same.stack, same.lastNumber, same.branchings.trans branchings, work.trans same.work⟩
    · refine .of_same ?_ (explore_outcome plan _ node _ _ _)
      exact ⟨rfl, rfl, branchings, work⟩

/-- Taking the next open node. -/
theorem advance_outcome (plan : Plan α) {rest : List (Node α)} (stack_eq : s.stack = n :: rest) :
    Outcome { s with stack := rest } n (plan.advance s) := by
  unfold advance
  rw [stack_eq]
  simp only
  split
  · exact .dropped ⟨rfl, rfl, rfl, .of_eq rfl rfl⟩
  · split
    · refine .of_same ?_ (stopAt_outcome plan _ n _)
      exact ⟨rfl, rfl, rfl, .refl s.stats⟩
    · refine .of_same ?_ (visit_outcome plan _ n)
      exact ⟨rfl, rfl, rfl, .refl s.stats⟩

/-- Without an open node a search ends. -/
theorem advance_nil (plan : Plan α) (stack_eq : s.stack = []) :
    ∃ status dual s', plan.advance s = .ended status dual s' ∧ s.SameNodes s' := by
  unfold advance
  rw [stack_eq]
  exact plan.finish_same s .explored

/-- Going on with the next node takes no work back. -/
theorem advance_work (plan : Plan α) (s : Search α) :
    s.stats.Grows (plan.advance s).search.stats := by
  cases stack_eq : s.stack with
  | nil =>
    obtain ⟨status, dual, s', ended, same⟩ := plan.advance_nil stack_eq
    rw [ended]
    exact same.work
  | cons n rest => exact (plan.advance_outcome stack_eq).work

/-- Going on from a decision point. -/
theorem resolve_outcome (plan : Plan α) (d : Decision α) (reply : Attempt (SolverError α) Choice) :
    Outcome d.search d.focus.node (plan.resolve d reply) := by
  cases reply with
  | error cause => exact .failed (.refl d.search)
  | ok choice =>
    show Outcome d.search d.focus.node (plan.answer d choice)
    unfold answer
    split_ifs
    · exact .failed (.refl d.search)
    · exact stopAt_outcome plan d.search d.focus.node _
    · split
      · exact .failed (.refl d.search)
      · unfold settle
        simp only
        split
        · exact stopAt_outcome plan d.search d.focus.node _
        · split_ifs
          · exact .dropped ⟨rfl, rfl, rfl, .of_eq rfl rfl⟩
          · split
            · exact offerBranching_outcome plan d.search rfl
            · split
              · exact split_outcome plan d.search d.focus _
              · exact splitByRule_outcome plan d.search d.focus

/-- Only behind a heuristic point is another decision asked for at once, and that is the branching
point. -/
theorem resolve_asks {reply : Attempt (SolverError α) Choice} {e : Decision α}
    (asks : plan.resolve d reply = .ask e) : d.point = .heuristic ∧ e.point = .branching := by
  have stopped (node : Node α) (status : SolveStatus) : plan.stopAt d.search node status ≠ .ask e := by
    obtain ⟨_, _, _, finish_eq, -⟩ :=
      plan.finish_same { d.search with stack := node :: d.search.stack } (.stopped status)
    rw [stopAt, finish_eq]
    nofun
  cases reply with
  | error cause => cases asks
  | ok choice =>
    change plan.answer d choice = .ask e at asks
    unfold answer at asks
    split_ifs at asks
    · exact absurd asks (stopped _ _)
    · split at asks
      · cases asks
      · unfold settle at asks
        simp only at asks
        split at asks
        · exact absurd asks (stopped _ _)
        · split_ifs at asks
          split at asks
          next heuristic =>
            unfold offerBranching at asks
            split_ifs at asks
            cases asks
            exact ⟨heuristic, rfl⟩
          next => split at asks <;> cases asks

end Plan

/-! ### Callbacks -/

namespace Decision

variable [Scalar α] {plan : Plan α} {d e : Decision α}

/-- A trial leaves the nodes as they are. It may solve a relaxation. -/
theorem tryAssignment_sameNodes (plan : Plan α) (d : Decision α) (assignment : List (Var × α)) :
    d.search.SameNodes (d.tryAssignment plan assignment).2.search := by
  have judged (d : Decision α) (result : RelaxationResult α) :
      d.search.SameNodes (d.judge plan result).2.search := by
    cases result with
    | optimal objective values =>
      simp only [judge]
      split_ifs
      · exact .refl d.search
      · exact .refl d.search
      · exact ⟨rfl, rfl, rfl, .of_eq rfl rfl⟩
    | infeasible => exact .refl d.search
    | unbounded => exact .refl d.search
  have probed (d : Decision α) : d.search.SameNodes (d.probe plan assignment).2.search := by
    unfold probe
    split
    · exact .refl d.search
    · split
      · exact .refl d.search
      next relaxed _ =>
        refine .trans ?_ (judged _ _)
        exact ⟨rfl, rfl, rfl, .relaxation d.search.stats relaxed.iterations⟩
  have begun : d.search.SameNodes { d.search with stats := d.search.stats.onTrial } :=
    ⟨rfl, rfl, rfl, .of_eq rfl rfl⟩
  have tried := begun.trans (probed { d with search := { d.search with stats := d.search.stats.onTrial } })
  unfold tryAssignment
  split
  · exact .refl d.search
  · simp only
    split
    next eq =>
      rw [eq] at tried
      exact tried
    next eq =>
      rw [eq] at tried
      exact tried.trans ⟨rfl, rfl, rfl, .refl _⟩

/-- Whatever a callback does, the nodes stay the same. -/
theorem Reaches.sameNodes (h : d.Reaches plan e) : d.search.SameNodes e.search := by
  induction h with
  | refl => exact .refl d.search
  | trial assignment _ ih => exact ih.trans (tryAssignment_sameNodes plan _ assignment)
  | interrupt _ ih => exact ih.trans ⟨rfl, rfl, rfl, .refl _⟩

end Decision
end Milp
