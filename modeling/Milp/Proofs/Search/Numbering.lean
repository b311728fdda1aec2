import Mathlib.Data.List.Nodup
import Milp.Proofs.Search.Callback
import Milp.Proofs.Search.Limits
import Milp.Proofs.Search.Runs

/-!
# Numbers of nodes

No two nodes of a search have the same number: children get the numbers that follow the last one that
was given out. So a node that is done with never comes back under its number, and a search that asks at
heuristic points only never asks twice at nodes of one number (`Plan.answer_orderly`,
`Plan.toDecision_orderly`).

The invariant also says that the flag of interrupts is looked at before any other monitor. Then a search
that is asked to stop does stop at its next decision (`Decision.answer_stopped`).
-/

namespace Milp

variable {α : Type} {plan : Plan α} {past : List Nat}

/-! ### The invariant -/

/-- Whether all numbers of some past nodes and of the open nodes are different and were given out, and
the monitors look at the flag of interrupts first. -/
structure Search.Orderly (past : List Nat) (s : Search α) : Prop where
  distinct : (past ++ s.stack.map (·.number)).Nodup
  given : ∀ i ∈ past ++ s.stack.map (·.number), i ≤ s.lastNumber
  heeds : ∃ rest, s.monitor = .composite (.interrupt () :: rest)

/-- Whether a search is in order at a turn, where a node in hand counts as past. -/
def Turn.Orderly (past : List Nat) : Turn α → Prop
  | .proceed s => s.Orderly past
  | .ask d => d.search.Orderly (d.focus.node.number :: past)
  | .ended .. => True
  | .failed .. => True

namespace Search.Orderly

variable {s s' : Search α}

/-- Only the open nodes, the last number and the monitors matter. -/
theorem congr (h : s.Orderly past) (stack_eq : s'.stack = s.stack)
    (last_eq : s'.lastNumber = s.lastNumber) (monitor_eq : s'.monitor = s.monitor) :
    s'.Orderly past where
  distinct := stack_eq ▸ h.distinct
  given := by
    rw [stack_eq, last_eq]
    exact h.given
  heeds := monitor_eq ▸ h.heeds

/-- A node that is past may be forgotten. -/
theorem forget {i : Nat} (h : s.Orderly (i :: past)) : s.Orderly past where
  distinct := (List.nodup_cons.mp h.distinct).2
  given j hj := h.given j (List.mem_cons_of_mem i hj)
  heeds := h.heeds

/-- It is not among the others. -/
theorem notMem {i : Nat} (h : s.Orderly (i :: past)) : i ∉ past := fun old =>
  (List.nodup_cons.mp h.distinct).1 (List.mem_append_left _ old)

/-- The next open node is past once it is taken. -/
theorem take {node : Node α} {rest : List (Node α)} (h : s.Orderly past)
    (stack_eq : s.stack = node :: rest) : Orderly (node.number :: past) { s with stack := rest } where
  distinct := by
    have distinct := h.distinct
    rw [stack_eq, List.map_cons, List.nodup_middle] at distinct
    exact distinct
  given i hi := by
    apply h.given
    rw [stack_eq, List.map_cons]
    exact List.perm_middle.mem_iff.mpr hi
  heeds := h.heeds

/-- Events leave the flag of interrupts the first thing that is looked at. -/
theorem after (h : s.Orderly past) (e : SearchEvent) :
    Orderly past { s with monitor := s.monitor.after e } where
  distinct := h.distinct
  given := h.given
  heeds := by
    obtain ⟨rest, monitor_eq⟩ := h.heeds
    exact ⟨Monitor.afterAll e rest, by rw [monitor_eq]; rfl⟩

/-- Two children get the next numbers. -/
theorem pushChildren (h : s.Orderly past) {down up : Node α}
    (down_eq : down.number = s.lastNumber + 1) (up_eq : up.number = s.lastNumber + 2) :
    (plan.pushChildren s down up).Orderly past := by
  have pushed : ((plan.pushChildren s down up).stack.map (·.number)).Perm
      ((s.lastNumber + 1) :: (s.lastNumber + 2) :: s.stack.map (·.number)) := by
    unfold Plan.pushChildren
    cases plan.settings.childSelection with
    | down => simp [down_eq, up_eq]
    | up => simpa [down_eq, up_eq] using List.Perm.swap _ _ _
  have moved : (past ++ (plan.pushChildren s down up).stack.map (·.number)).Perm
      ((s.lastNumber + 1) :: (s.lastNumber + 2) :: (past ++ s.stack.map (·.number))) :=
    (pushed.append_left past).trans
      (List.perm_middle.trans (List.perm_middle.cons (s.lastNumber + 1)))
  have fresh (i : Nat) (above : s.lastNumber < i) : i ∉ past ++ s.stack.map (·.number) :=
    fun old => absurd (h.given i old) (not_le.mpr above)
  refine ⟨moved.nodup_iff.mpr ?_, fun i hi => ?_, h.heeds⟩
  · refine List.nodup_cons.mpr ⟨fun listed => ?_,
      List.nodup_cons.mpr ⟨fresh _ (by omega), h.distinct⟩⟩
    rcases List.mem_cons.mp listed with same | old
    · omega
    · exact fresh _ (by omega) old
  · show i ≤ s.lastNumber + 2
    rcases List.mem_cons.mp (moved.mem_iff.mp hi) with rfl | hi
    · omega
    · rcases List.mem_cons.mp hi with rfl | old
      · omega
      · exact (h.given i old).trans (Nat.le_add_right _ 2)


/-- A search that is asked to stop is told so by its monitors when the decision has been taken, by
then perhaps because of a time limit. -/
theorem exists_reason {d : Decision α} (h : d.search.Orderly past)
    (stopped : d.isStopped plan = true) :
    ∃ reason, d.search.commandAt (plan.clock.decided d.search.stats.nodesExplored d.point) =
      .terminate reason := by
  obtain ⟨rest, monitor_eq⟩ := h.heeds
  rcases Bool.or_eq_true_iff.mp stopped with raised | told
  · refine ⟨.interrupt, ?_⟩
    rw [Search.commandAt, monitor_eq, Monitor.command, Monitor.firstCommand, Monitor.command,
      if_pos raised]
  · rcases d.search.commandAt_later (plan.clock.deciding_le d.search.stats.nodesExplored d.point
      d.search.stats.trials) with same | passed
    · cases command : d.search.commandAt (plan.clock.deciding d.search.stats.nodesExplored d.point
        d.search.stats.trials) with
      | terminate reason => exact ⟨reason, same.trans command⟩
      | proceed =>
        rw [command] at told
        cases told
    · exact ⟨.timeLimit, passed⟩

end Search.Orderly

/-! ### Steps -/

variable [Scalar α]

namespace Plan

variable {s : Search α} {f : Focus α} {d : Decision α}

/-- Splitting a node by the rule of the settings. -/
theorem splitByRule_orderly (h : s.Orderly past) : (plan.splitByRule s f).Orderly past := by
  unfold splitByRule
  simp only
  split
  · exact h.congr rfl rfl rfl
  next v _ =>
    generalize (plan.settings.rule.select f.candidates f.values plan.rank s.engine).2 = engine
    have drawn : Search.Orderly past { s with engine } := h.congr rfl rfl rfl
    exact (drawn.pushChildren rfl rfl).congr rfl rfl rfl

/-- Going on behind the heuristic point of a node. -/
theorem offerBranching_orderly (h : s.Orderly (f.node.number :: past)) :
    (plan.offerBranching s f).Orderly past := by
  unfold offerBranching
  split
  · exact h.congr rfl rfl rfl
  · exact splitByRule_orderly h.forget

/-- Going on with a node that has an optimum. -/
theorem explore_orderly {node : Node α} (h : s.Orderly (node.number :: past)) (box : Box α) (bound : α)
    (values : Array α) : (plan.explore s node box bound values).Orderly past := by
  unfold explore
  simp only
  obtain ⟨journal, shown⟩ := (s.note (.nodeSolved node.number node.depth bound)).display_eq plan
    (.node node.number node.depth bound s.stack.length)
  rw [shown]
  split_ifs
  · exact h.forget.congr rfl rfl rfl
  · exact (h.forget.after .solutionFound).congr rfl rfl rfl
  · unfold offer
    split
    · exact h.congr rfl rfl rfl
    · exact offerBranching_orderly (h.congr rfl rfl rfl)

/-- Taking the next open node. -/
theorem advance_orderly (h : s.Orderly past) : (plan.advance s).Orderly past := by
  unfold advance
  split
  · trivial
  next node rest stack_eq =>
    have taken := h.take stack_eq
    split
    · exact taken.forget.congr rfl rfl rfl
    · simp only
      split
      · trivial
      · unfold visit
        simp only
        split
        · trivial
        · split
          · exact (taken.forget.after .stepped).congr rfl rfl rfl
          · trivial
          · apply explore_orderly
            exact (taken.after .stepped).congr rfl rfl rfl

/-- Going on from a heuristic point that no branching point follows: the node is done with. -/
theorem answer_orderly (h : d.search.Orderly past) (point : d.point = .heuristic)
    (behind : plan.asksAt d.focus .branching = false) (choice : Choice) :
    (plan.answer d choice).Orderly past := by
  unfold answer
  split_ifs
  · trivial
  · trivial
  · split
    · trivial
    · unfold settle
      simp only
      split
      · trivial
      · split_ifs
        · exact h.congr rfl rfl rfl
        · rw [point]
          simp only
          rw [offerBranching, if_neg (by simp [behind])]
          exact splitByRule_orderly h

/-- Going on to the next decision point. -/
theorem toDecision_orderly {turn : Turn α} (h : turn.Orderly past) (turns : Nat) :
    (plan.toDecision turns turn).Orderly past :=
  toDecision_keeps (Turn.Orderly past) (fun _ => advance_orderly) h turns

omit [Scalar α] in
/-- A search starts with the root alone. -/
theorem start_orderly (plan : Plan α) (stats : Statistics α) (incumbent : Option (Solution α))
    (interrupted : Bool) : (Search.start plan stats incumbent interrupted).Orderly [] := by
  unfold Search.start
  simp only
  generalize ReaderLine.opening _ _ _ = line
  generalize JournalEvent.started _ _ _ _ = event
  generalize opened : ({
    stack := [Node.root plan.problem.sense.best], lastNumber := 1, stats, incumbent
    monitor := (Search.monitorOf plan.settings).after .entered, interrupted
    engine := Random.Engine.ofSeed plan.settings.randomSeedShift, journal := #[] } :
      Search α) = root
  obtain ⟨journal, shown⟩ := (root.note event).display_eq plan line
  rw [shown]
  subst opened
  refine ⟨List.nodup_singleton _, fun i hi => ?_, _, rfl⟩
  exact (List.mem_singleton.mp hi).le

end Plan

/-! ### New decision points -/

/-- Whether a turn asks only where the hooks say so, before any trial. -/
def Turn.Fresh (plan : Plan α) : Turn α → Prop
  | .ask d => d.lastTrial = none ∧ plan.asksAt d.focus d.point = true
  | _ => True

namespace Plan

/-- Going on with an optimum asks where the hooks say so. -/
theorem explore_fresh (s : Search α) (node : Node α) (box : Box α) (bound : α) (values : Array α) :
    (plan.explore s node box bound values).Fresh plan := by
  unfold explore
  simp only
  split_ifs
  · trivial
  · trivial
  · unfold offer
    split
    next asks => exact ⟨rfl, asks⟩
    · unfold offerBranching
      split
      next asks => exact ⟨rfl, asks⟩
      · trivial

/-- Taking the next open node does. -/
theorem advance_fresh (s : Search α) : (plan.advance s).Fresh plan := by
  unfold advance
  split
  · trivial
  · split
    · trivial
    · simp only
      split
      · trivial
      · unfold visit
        simp only
        split
        · trivial
        · split
          · trivial
          · trivial
          · exact explore_fresh _ _ _ _ _

/-- Going on from a heuristic point that no branching point follows asks nothing else there. -/
theorem answer_fresh {d : Decision α} (point : d.point = .heuristic)
    (behind : plan.asksAt d.focus .branching = false) (choice : Choice) :
    (plan.answer d choice).Fresh plan := by
  unfold answer
  split_ifs
  · trivial
  · trivial
  · split
    · trivial
    · unfold settle
      simp only
      split
      · trivial
      · split_ifs
        · trivial
        · rw [point]
          simp only
          rw [offerBranching, if_neg (by simp [behind])]
          trivial

/-- The decision that a search in order comes to is at a node of another number, before any trial, and
where the hooks say so. -/
theorem toDecision_fresh {turn : Turn α} {d : Decision α} {turns : Nat} (h : turn.Orderly past)
    (fresh : turn.Fresh plan) (asks : plan.toDecision turns turn = .ask d) :
    d.search.Orderly (d.focus.node.number :: past) ∧ d.lastTrial = none ∧
      plan.asksAt d.focus d.point = true := by
  have orderly : (plan.toDecision turns turn).Orderly past := toDecision_orderly h turns
  have fresh := toDecision_keeps (Turn.Fresh plan) (fun s _ => advance_fresh s) fresh turns
  rw [asks] at orderly fresh
  exact ⟨orderly, fresh⟩

end Plan

/-! ### Trials and stopping -/

namespace Decision

variable {d : Decision α}

/-- A trial leaves the monitors as they are, or tells them of a solution. -/
theorem tryAssignment_monitor (plan : Plan α) (d : Decision α) (assignment : List (Var × α)) :
    (d.tryAssignment plan assignment).2.search.monitor = d.search.monitor ∨
      (d.tryAssignment plan assignment).2.search.monitor =
        d.search.monitor.after .solutionFound := by
  have judged (d : Decision α) (result : RelaxationResult α) :
      (d.judge plan result).2.search.monitor = d.search.monitor ∨
        (d.judge plan result).2.search.monitor = d.search.monitor.after .solutionFound := by
    cases result with
    | optimal objective values =>
      simp only [judge]
      split_ifs
      · exact .inl rfl
      · exact .inl rfl
      · exact .inr rfl
    | infeasible => exact .inl rfl
    | unbounded => exact .inl rfl
  have probed (d : Decision α) :
      (d.probe plan assignment).2.search.monitor = d.search.monitor ∨
        (d.probe plan assignment).2.search.monitor = d.search.monitor.after .solutionFound := by
    unfold probe
    split
    · exact .inl rfl
    · split
      · exact .inl rfl
      · exact judged _ _
  unfold tryAssignment
  split
  · exact .inl rfl
  · have tried := probed { d with search := { d.search with stats := d.search.stats.onTrial } }
    simp only
    split
    next eq =>
      rw [eq] at tried
      exact tried
    next eq =>
      rw [eq] at tried
      exact tried

/-- Trials keep a search in order. -/
theorem tryAssignment_orderly (h : d.search.Orderly past) (assignment : List (Var × α)) :
    (d.tryAssignment plan assignment).2.search.Orderly past := by
  have same := samePoint_tryAssignment plan d assignment
  rcases tryAssignment_monitor plan d assignment with kept | found
  · exact h.congr same.stack same.lastNumber kept
  · exact (h.after .solutionFound).congr same.stack same.lastNumber found

/-- A search that is asked to stop ends where the choice is made that comes of its trials. -/
theorem answer_stopped (h : d.search.Orderly past) (point : d.point = .heuristic)
    (stopped : d.isStopped plan = true) :
    ∃ status dual s, plan.answer d d.heuristicChoice = .ended status dual s := by
  obtain ⟨reason, command⟩ := h.exists_reason stopped
  rw [point] at command
  have settled : plan.answer d d.heuristicChoice =
      plan.stopAt d.search d.focus.node (.ofStop reason) := by
    unfold heuristicChoice
    split_ifs <;> simp [Plan.answer, Choice.isValidAt, point, Plan.splitOf, Plan.settle, command]
  obtain ⟨dual, journal, ended⟩ := Plan.finish_eq plan
    { d.search with stack := d.focus.node :: d.search.stack } (.stopped (.ofStop reason))
  exact ⟨_, dual, _, settled.trans ended⟩

end Decision

end Milp
