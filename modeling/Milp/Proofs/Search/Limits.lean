import Milp.Proofs.Search.Branchable
import Milp.Proofs.Search.Runs

/-!
# Limits of a search

The monitors count nodes and solutions for themselves, beside the statistics. Both counts agree wherever
the search looks at them (`Search.Counted`), although a step is announced to the monitors before its
node is counted. So a limit of nodes is met by as many explored nodes, and the node at which the search
stops is still open and worth exploring (`Search.Exhausted`).

A solution limit is looked at before each node and after each decision. In between a node installs at
most one solution, but a callback may install any number. `Turn.Limited` therefore says nothing about
the solutions of a search that has ended, unless the callback is known to spare the limit.
-/

namespace Milp

/-! ### Monitors that count -/

namespace Monitor

variable {α : Type} (settings : Settings α) (timer : UInt64) (steps found : Nat)

/-- The monitors of a search after so many steps and solutions. -/
def counting : Monitor Unit :=
  .composite <|
    [.interrupt ()] ++
    (settings.timeLimit.map (Monitor.timeLimit · 0 timer)).toList ++
    (settings.nodeLimit.map (Monitor.nodeLimit · steps)).toList ++
    (settings.solutionLimit.map (Monitor.solutionLimit · found)).toList

/-- Every part of a list of monitors is told of an event. -/
theorem afterAll_append {φ : Type} (e : SearchEvent) (ms ms' : List (Monitor φ)) :
    afterAll e (ms ++ ms') = afterAll e ms ++ afterAll e ms' := by
  induction ms with
  | nil => rfl
  | cons m ms ih => rw [List.cons_append, afterAll, afterAll, ih, List.cons_append]

/-- A part that need not be there is told of an event. -/
theorem afterAll_map {φ β : Type} (e : SearchEvent) (f g : β → Monitor φ)
    (after_eq : ∀ x, (f x).after e = g x) (x? : Option β) :
    afterAll e (x?.map f).toList = (x?.map g).toList := by
  cases x? with
  | none => rfl
  | some x => exact congrArg (· :: []) (after_eq x)

variable {settings timer steps found}

/-- What is counted after an event is what each part counts. -/
theorem after_counting {e : SearchEvent} {timer' : UInt64} {steps' found' : Nat}
    (time : ∀ t, (Monitor.timeLimit t 0 timer : Monitor Unit).after e = .timeLimit t 0 timer')
    (nodes : ∀ n, (Monitor.nodeLimit n steps : Monitor Unit).after e = .nodeLimit n steps')
    (solutions : ∀ l, (Monitor.solutionLimit l found : Monitor Unit).after e =
      .solutionLimit l found') :
    (counting settings timer steps found).after e = counting settings timer' steps' found' := by
  rw [counting, after, afterAll_append, afterAll_append, afterAll_append, afterAll_map _ _ _ time,
    afterAll_map _ _ _ nodes, afterAll_map _ _ _ solutions]
  rfl

/-- When a search is entered, everything is counted from zero. -/
theorem after_entered :
    (counting settings timer steps found).after .entered = counting settings 0 0 0 :=
  after_counting (fun _ => rfl) (fun _ => rfl) fun _ => rfl

/-- A step. -/
theorem after_stepped : (counting settings timer steps found).after .stepped =
    counting settings (timer + 1) (countUp steps) found :=
  after_counting (fun _ => rfl) (fun _ => rfl) fun _ => rfl

/-- A solution. -/
theorem after_solutionFound : (counting settings timer steps found).after .solutionFound =
    counting settings timer steps (countUp found) :=
  after_counting (fun _ => rfl) (fun _ => rfl) fun _ => rfl

/-- The first part that stops the search does so, in the order of the parts. -/
theorem firstCommand_append {φ : Type} (s : Signals φ) (ms ms' : List (Monitor φ)) :
    firstCommand s (ms ++ ms') =
      if (firstCommand s ms).isTerminate then firstCommand s ms else firstCommand s ms' := by
  induction ms with
  | nil => rfl
  | cons m ms ih =>
    rw [List.cons_append, firstCommand, firstCommand]
    cases m.command s with
    | terminate reason => rfl
    | proceed => exact ih

/-- What a part says that need not be there. -/
theorem firstCommand_map {φ β : Type} (s : Signals φ) (f : β → Monitor φ) (stops : β → Bool)
    (reason : StopReason)
    (command_eq : ∀ x, (f x).command s = if stops x then .terminate reason else .proceed)
    (x? : Option β) :
    firstCommand s (x?.map f).toList = if x?.any stops then .terminate reason else .proceed := by
  cases x? with
  | none => rfl
  | some x =>
    show firstCommand s [f x] = if stops x then _ else _
    rw [firstCommand, command_eq]
    cases stops x <;> rfl

/-- What the monitors of a search say: the interrupt flag comes first, then the limits of time, nodes
and solutions. -/
theorem command_counting (s : Signals Unit) : (counting settings timer steps found).command s =
    if s.raised () then .terminate .interrupt
    else if settings.timeLimit.any (·.nanos ≤ s.elapsed.nanos) then .terminate .timeLimit
    else if settings.nodeLimit.any (· < steps) then .terminate .nodeLimit
    else if settings.solutionLimit.any (· ≤ found) then .terminate .solutionLimit
    else .proceed := by
  have time := firstCommand_map s (Monitor.timeLimit · 0 timer) (·.nanos ≤ s.elapsed.nanos) .timeLimit
    (fun x => by simp [command]) settings.timeLimit
  have nodes := firstCommand_map s (Monitor.nodeLimit · steps) (· < steps) .nodeLimit
    (fun x => by simp [command]) settings.nodeLimit
  have solutions := firstCommand_map s (Monitor.solutionLimit · found) (· ≤ found) .solutionLimit
    (fun x => by simp [command]) settings.solutionLimit
  rw [counting, command, firstCommand_append, firstCommand_append, firstCommand_append, time, nodes,
    solutions, firstCommand, command]
  cases s.raised () <;> cases settings.timeLimit.any (·.nanos ≤ s.elapsed.nanos) <;>
    cases settings.nodeLimit.any (· < steps) <;> rfl

end Monitor

variable {α : Type}

/-- Whether no time limit is found to have passed when a decision has been taken. -/
def Plan.Unhurried (plan : Plan α) : Prop :=
  ∀ t, plan.settings.timeLimit = some t →
    ∀ nodes point, (plan.clock.decided nodes point).nanos < t.nanos

/-! ### Counts of a search -/

namespace Search

/-- Whether the monitors have counted the nodes and solutions that the statistics have counted. -/
def Counted (plan : Plan α) (s : Search α) : Prop :=
  ∃ timer, s.monitor =
    .counting plan.settings timer s.stats.nodesExplored s.stats.solutionsFound

/-- Whether no more nodes were explored than the limit. -/
def WithinNodes (plan : Plan α) (s : Search α) : Prop :=
  ∀ n, plan.settings.nodeLimit = some n → s.stats.nodesExplored ≤ n

/-- Whether nodes and solutions are counted on both sides, and the limit of nodes is kept. -/
structure Tracked (plan : Plan α) (s : Search α) : Prop where
  counted : s.Counted plan
  nodes : s.WithinNodes plan

/-- Whether no more solutions were found than the limit. -/
def WithinSolutions (plan : Plan α) (s : Search α) : Prop :=
  ∀ l, plan.settings.solutionLimit = some l → s.stats.solutionsFound ≤ l

/-- Whether fewer solutions were found than the limit. -/
def BelowSolutions (plan : Plan α) (s : Search α) : Prop :=
  ∀ l, plan.settings.solutionLimit = some l → s.stats.solutionsFound < l

variable {plan : Plan α} {s s' : Search α}

/-- What is below the limit is within it. -/
theorem BelowSolutions.within (h : s.BelowSolutions plan) : s.WithinSolutions plan :=
  fun l limit => (h l limit).le

/-- Below the limit there is room for one more solution. -/
theorem BelowSolutions.room (h : s.BelowSolutions plan)
    (one : s'.stats.solutionsFound = countUp s.stats.solutionsFound) : s'.WithinSolutions plan :=
  fun l limit => one ▸ (countUp_le_succ _).trans (h l limit)

/-- A line for the reader changes the journal alone. -/
theorem display_eq (s : Search α) (plan : Plan α) (line : ReaderLine α) :
    ∃ journal, s.display plan line = { s with journal } := by
  unfold display
  split
  · exact ⟨_, rfl⟩
  · exact ⟨s.journal, rfl⟩

/-! ### What the monitors say -/

variable {timer : UInt64} {steps : Nat} {now : Duration}

/-- If a search may go on, its limits leave room. -/
theorem of_proceed
    (counts : s.monitor = .counting plan.settings timer steps s.stats.solutionsFound)
    (proceeds : s.commandAt now = .proceed) :
    (∀ n, plan.settings.nodeLimit = some n → steps ≤ n) ∧ s.BelowSolutions plan := by
  unfold commandAt at proceeds
  rw [counts, Monitor.command_counting] at proceeds
  split_ifs at proceeds with raised time nodes solutions
  refine ⟨fun n limit => ?_, fun l limit => ?_⟩
  · rw [limit] at nodes
    simpa using nodes
  · rw [limit] at solutions
    simpa using solutions

/-- If the node limit stops a search, more steps were announced than it allows. -/
theorem of_nodeLimit
    (counts : s.monitor = .counting plan.settings timer steps s.stats.solutionsFound)
    (stops : s.commandAt now = .terminate .nodeLimit) :
    ∃ n, plan.settings.nodeLimit = some n ∧ n < steps := by
  unfold commandAt at stops
  rw [counts, Monitor.command_counting] at stops
  split_ifs at stops with raised time nodes
  · cases stops
  · cases stops
  · obtain ⟨n, limit, less⟩ := (Option.any_eq_true _ _).mp nodes
    exact ⟨n, limit, of_decide_eq_true less⟩
  · cases stops

/-- A raised flag or a met limit of solutions stops a search while its time limit has not passed, and
the flag comes first. -/
theorem commandAt_of_met (h : s.Tracked plan)
    (inTime : ∀ t, plan.settings.timeLimit = some t → now.nanos < t.nanos)
    (met : s.interrupted = true ∨
      ∃ l, plan.settings.solutionLimit = some l ∧ l ≤ s.stats.solutionsFound) :
    s.commandAt now = .terminate (if s.interrupted then .interrupt else .solutionLimit) := by
  obtain ⟨⟨timer, counts⟩, nodes⟩ := h
  unfold commandAt
  rw [counts, Monitor.command_counting]
  have time : plan.settings.timeLimit.any (·.nanos ≤ now.nanos) = false := by
    rw [Option.any_eq_false]
    intro t limit
    exact decide_eq_false (Nat.not_le.mpr (inTime t limit))
  have room : plan.settings.nodeLimit.any (· < s.stats.nodesExplored) = false := by
    rw [Option.any_eq_false]
    intro n limit
    simpa using nodes n limit
  show (if s.interrupted then _ else _) = _
  cases raised : s.interrupted with
  | true => rfl
  | false =>
    obtain ⟨l, limit, reached⟩ := met.resolve_left (by simp [raised])
    rw [time, room, limit]
    simp [reached]

/-! ### What a search counts -/

/-- Whether a search goes on in another state with at most one more solution, counted on both sides. -/
structure Finds (plan : Plan α) (s s' : Search α) : Prop where
  tracked : s.Tracked plan → s'.Tracked plan
  found : s'.stats.solutionsFound = s.stats.solutionsFound ∨
    s'.stats.solutionsFound = countUp s.stats.solutionsFound

/-- Other counters do not matter. -/
theorem Tracked.congr (h : s.Tracked plan) (monitor_eq : s'.monitor = s.monitor)
    (explored : s'.stats.nodesExplored = s.stats.nodesExplored)
    (found : s'.stats.solutionsFound = s.stats.solutionsFound) : s'.Tracked plan := by
  obtain ⟨⟨timer, counts⟩, nodes⟩ := h
  exact ⟨⟨timer, by rw [monitor_eq, explored, found, counts]⟩,
    fun n limit => explored.trans_le (nodes n limit)⟩

/-- A search that goes on as it is. -/
theorem Finds.refl (plan : Plan α) (s : Search α) : s.Finds plan s := ⟨id, .inl rfl⟩

/-- Other counters may be raised before. -/
theorem Finds.raised {s'' : Search α} (h : s'.Finds plan s'') (monitor_eq : s'.monitor = s.monitor)
    (explored : s'.stats.nodesExplored = s.stats.nodesExplored)
    (found : s'.stats.solutionsFound = s.stats.solutionsFound) : s.Finds plan s'' where
  tracked tracked := h.tracked (tracked.congr monitor_eq explored found)
  found := found ▸ h.found

/-- Below the limit there is room for what is found. -/
theorem Finds.withinSolutions (h : s.Finds plan s') (solutions : s.BelowSolutions plan) :
    s'.WithinSolutions plan := by
  intro l limit
  rcases h.found with same | one
  · exact same.trans_le (solutions l limit).le
  · exact solutions.room one l limit

variable [Scalar α]

/-- Whether as many nodes were explored as the limit allows, and an open node could still improve on the
incumbent. -/
def Exhausted (plan : Plan α) (s : Search α) : Prop :=
  (∃ n, plan.settings.nodeLimit = some n ∧ s.stats.nodesExplored = n) ∧
    ∃ node ∈ s.stack, plan.problem.canImprove node.parentBound s.incumbent plan.tolerance = true

/-- A point that becomes the incumbent is counted on both sides. -/
theorem Tracked.install (h : s.Tracked plan) (values : Array α) :
    (s.install plan values).Tracked plan := by
  obtain ⟨⟨timer, counts⟩, nodes⟩ := h
  refine ⟨⟨timer, ?_⟩, nodes⟩
  show s.monitor.after .solutionFound = _
  rw [counts, Monitor.after_solutionFound]
  rfl

end Search

/-- What limits say of a search at a turn. Where it has ended or failed, the limit of solutions was kept
to if a callback spared it. -/
def Turn.Limited [Scalar α] (spared : Prop) (plan : Plan α) : Turn α → Prop
  | .proceed s => s.Tracked plan ∧ s.WithinSolutions plan
  | .ask d => plan.hooks.isSome = true ∧ d.search.Tracked plan ∧ d.search.BelowSolutions plan
  | .ended status _ s => s.WithinNodes plan ∧ (status = .nodeLimit → s.Exhausted plan) ∧
    (spared → s.WithinSolutions plan)
  | .failed _ s => s.WithinNodes plan ∧ (spared → s.WithinSolutions plan)

section Steps

variable [Scalar α] {plan : Plan α} {s : Search α} {spared : Prop}

/-- At no turn were more nodes explored than the limit. -/
theorem Turn.Limited.withinNodes {turn : Turn α} (h : turn.Limited spared plan) :
    turn.search.WithinNodes plan := by
  cases turn with
  | proceed s => exact h.1.nodes
  | ask d => exact h.2.1.nodes
  | ended status dual s => exact h.1
  | failed cause s => exact h.1

/-- Nor were more solutions found, if the callback spares that limit. -/
theorem Turn.Limited.withinSolutions {turn : Turn α} (h : turn.Limited spared plan) (hs : spared) :
    turn.search.WithinSolutions plan := by
  cases turn with
  | proceed s => exact h.2
  | ask d => exact h.2.2.within
  | ended status dual s => exact h.2.2 hs
  | failed cause s => exact h.2 hs

/-! ### Steps -/

namespace Plan

/-- The end of a search tells the monitors and writes into the journal. -/
theorem finish_eq (plan : Plan α) (s : Search α) (ending : Ending) :
    ∃ dual journal, plan.finish s ending =
      .ended (endStatus s ending) dual { s with monitor := s.monitor.after .exited, journal } := by
  unfold finish
  simp only
  generalize ReaderLine.closing _ _ _ = line
  obtain ⟨journal, shown⟩ := Search.display_eq (Search.note { s with
    monitor := s.monitor.after .exited }
    (.finished (endStatus s ending) s.stats.nodesExplored s.stats.solutionsFound)) plan line
  exact ⟨_, journal, congrArg _ shown⟩

/-- The end of a search. -/
theorem finish_limited {ending : Ending} (nodes : s.WithinNodes plan)
    (exhausted : ending = .stopped .nodeLimit → s.Exhausted plan)
    (solutions : spared → s.WithinSolutions plan) : (plan.finish s ending).Limited spared plan := by
  obtain ⟨dual, journal, finish_eq⟩ := finish_eq plan s ending
  rw [finish_eq]
  refine ⟨nodes, fun status_eq => exhausted ?_, solutions⟩
  unfold endStatus at status_eq
  split at status_eq
  · cases status_eq
  · rw [status_eq]
  · split at status_eq <;> cases status_eq

/-- A search that stops and leaves a node open. -/
theorem stopAt_limited {node : Node α} {status : SolveStatus} (nodes : s.WithinNodes plan)
    (exhausted : status = .nodeLimit →
      Search.Exhausted plan { s with stack := node :: s.stack })
    (solutions : spared → s.WithinSolutions plan) :
    (plan.stopAt s node status).Limited spared plan :=
  finish_limited (s := { s with stack := node :: s.stack }) nodes
    (fun stopped => exhausted (Ending.stopped.inj stopped)) solutions

/-- A split of the node in hand leaves the counts alone. -/
theorem split_limited (h : s.Tracked plan) (solutions : s.WithinSolutions plan) (f : Focus α)
    (split : Split α) : (Turn.proceed (plan.split s f split)).Limited spared plan := by
  cases split with
  | onVariable v => exact ⟨h.congr rfl rfl rfl, solutions⟩
  | onSum vs sum => exact ⟨h.congr rfl rfl rfl, solutions⟩

/-- So does a split by the rule of the settings. -/
theorem splitByRule_limited (h : s.Tracked plan) (solutions : s.WithinSolutions plan) (f : Focus α) :
    (Turn.proceed (plan.splitByRule s f)).Limited spared plan := by
  unfold splitByRule
  simp only
  split
  · exact ⟨h.congr rfl rfl rfl, solutions⟩
  · apply split_limited
    · exact h.congr rfl rfl rfl
    · exact solutions

/-- Waiting at a decision point of a node. -/
theorem askAt_limited {f : Focus α} {point : DecisionPoint} (asks : plan.asksAt f point = true)
    (h : s.Tracked plan) (solutions : s.BelowSolutions plan) :
    (Turn.askAt s f point).Limited spared plan := by
  refine ⟨?_, h.congr rfl rfl rfl, solutions⟩
  unfold asksAt at asks
  cases hooks : plan.hooks with
  | none =>
    rw [hooks] at asks
    cases asks
  | some h => rfl

/-- Going on behind the heuristic point. -/
theorem offerBranching_limited (h : s.Tracked plan) (solutions : s.BelowSolutions plan)
    (f : Focus α) : (plan.offerBranching s f).Limited spared plan := by
  unfold offerBranching
  split
  next asks => exact askAt_limited asks h solutions
  next => exact splitByRule_limited h solutions.within f

/-- Going on with a solved node. -/
theorem offer_limited (h : s.Tracked plan) (solutions : s.BelowSolutions plan) (f : Focus α) :
    (plan.offer s f).Limited spared plan := by
  unfold offer
  split
  next asks => exact askAt_limited asks h solutions
  next => exact offerBranching_limited h solutions f

/-- Going on with the optimum of a node's relaxation, which is at most one more solution. -/
theorem explore_limited (h : s.Tracked plan) (solutions : s.BelowSolutions plan) (node : Node α)
    (box : Box α) (bound : α) (values : Array α) :
    (plan.explore s node box bound values).Limited spared plan := by
  unfold explore
  simp only
  obtain ⟨journal, shown⟩ := (s.note (.nodeSolved node.number node.depth bound)).display_eq plan
    (.node node.number node.depth bound s.stack.length)
  rw [shown]
  split_ifs
  · exact ⟨h.congr rfl rfl rfl, solutions.within⟩
  · refine ⟨Search.Tracked.install ?_ values, solutions.room rfl⟩
    exact h.congr rfl rfl rfl
  · apply offer_limited
    · exact h.congr rfl rfl rfl
    · exact solutions

/-- Solving the relaxation of a node that the monitors have counted already. -/
theorem visit_limited {timer : UInt64}
    (counts : s.monitor = .counting plan.settings timer (countUp s.stats.nodesExplored)
      s.stats.solutionsFound)
    (nodes : s.WithinNodes plan)
    (room : ∀ n, plan.settings.nodeLimit = some n → countUp s.stats.nodesExplored ≤ n)
    (solutions : s.BelowSolutions plan) (node : Node α) :
    (plan.visit s node).Limited spared plan := by
  unfold visit
  simp only
  split
  · exact ⟨nodes, fun _ => solutions.within⟩
  next relaxed _ =>
    -- whether it is the root makes no difference to the counts
    generalize stats_eq : (if node.depth = 0 then _ else _) = stats
    have explored : stats.nodesExplored = countUp s.stats.nodesExplored := by
      rw [← stats_eq]
      split <;> rfl
    have found : stats.solutionsFound = s.stats.solutionsFound := by
      rw [← stats_eq]
      split <;> rfl
    have tracked : Search.Tracked plan { s with stats } :=
      ⟨⟨timer, by rw [explored, found, counts]⟩, fun n limit => explored.trans_le (room n limit)⟩
    have below : Search.BelowSolutions plan { s with stats } :=
      fun l limit => found.trans_lt (solutions l limit)
    split
    · exact ⟨tracked.congr rfl rfl rfl, below.within⟩
    · exact finish_limited tracked.nodes nofun fun _ => below.within
    · exact explore_limited tracked below node _ _ _

/-- Taking the next open node. A node that is dropped is not announced; one that is left open could still
improve on the incumbent. -/
theorem advance_limited (h : s.Tracked plan) (solutions : s.WithinSolutions plan) :
    (plan.advance s).Limited spared plan := by
  unfold advance
  split
  · exact finish_limited h.nodes nofun fun _ => solutions
  next node rest stack_eq =>
    split
    next => exact ⟨h.congr rfl rfl rfl, solutions⟩
    next useful =>
      obtain ⟨⟨timer, monitor_eq⟩, nodes⟩ := h
      have announced : Search.monitor { s with stack := rest, monitor := s.monitor.after .stepped } =
          .counting plan.settings (timer + 1) (countUp s.stats.nodesExplored)
            s.stats.solutionsFound := by
        show s.monitor.after .stepped = _
        rw [monitor_eq, Monitor.after_stepped]
      simp only
      split
      next reason stops =>
        refine stopAt_limited nodes (fun node_limit => ⟨?_, node, ?_⟩) fun _ => solutions
        · cases reason <;> cases node_limit
          obtain ⟨n, limit, less⟩ := Search.of_nodeLimit announced stops
          exact ⟨n, limit, le_antisymm (nodes n limit)
            (Nat.le_of_lt_succ (less.trans_le (countUp_le_succ _)))⟩
        · exact ⟨List.mem_cons_self, by simpa using useful⟩
      next proceeds =>
        obtain ⟨room, below⟩ := Search.of_proceed announced proceeds
        exact visit_limited announced nodes room below node

end Plan

/-! ### Decisions -/

namespace Decision

variable {d e : Decision α}

/-- A trial finds at most one solution. -/
theorem tryAssignment_finds (plan : Plan α) (d : Decision α) (assignment : List (Var × α)) :
    d.search.Finds plan (d.tryAssignment plan assignment).2.search := by
  have judged (d : Decision α) (result : RelaxationResult α) :
      d.search.Finds plan (d.judge plan result).2.search := by
    cases result with
    | optimal objective values =>
      simp only [judge]
      split_ifs
      · exact .refl plan d.search
      · exact .refl plan d.search
      · exact ⟨fun h => h.install values, .inr rfl⟩
    | infeasible => exact .refl plan d.search
    | unbounded => exact .refl plan d.search
  have probed (d : Decision α) : d.search.Finds plan (d.probe plan assignment).2.search := by
    unfold probe
    split
    · exact .refl plan d.search
    · split
      · exact .refl plan d.search
      next relaxed _ =>
        exact (judged { d with search := { d.search with
          stats := d.search.stats.onRelaxation relaxed.iterations } } relaxed.result).raised rfl rfl rfl
  have tried : d.search.Finds plan _ :=
    (probed { d with search := { d.search with stats := d.search.stats.onTrial } }).raised rfl rfl rfl
  unfold tryAssignment
  split
  · exact .refl plan d.search
  · simp only
    split
    next eq =>
      rw [eq] at tried
      exact tried
    next eq =>
      rw [eq] at tried
      exact ⟨fun h => (tried.tracked h).congr rfl rfl rfl, tried.found⟩

/-- Whatever a callback does, no more nodes are explored, and what it finds is counted on both sides. -/
theorem Reaches.tracked (h : d.Reaches plan e) (tracked : d.search.Tracked plan) :
    e.search.Tracked plan := by
  induction h with
  | refl => exact tracked
  | @trial e assignment _ ih => exact (tryAssignment_finds plan e assignment).tracked ih
  | interrupt _ ih => exact ih.congr rfl rfl rfl

end Decision

namespace Plan

/-- Going on from a decision point with any answer. -/
theorem resolve_limited {d : Decision α} (h : d.search.Tracked plan)
    (solutions : spared → d.search.WithinSolutions plan) (reply : Attempt (SolverError α) Choice) :
    (plan.resolve d reply).Limited spared plan := by
  cases reply with
  | error cause => exact ⟨h.nodes, solutions⟩
  | ok choice =>
    show (plan.answer d choice).Limited spared plan
    unfold answer
    split_ifs
    · exact ⟨h.nodes, solutions⟩
    · exact stopAt_limited h.nodes nofun solutions
    · split
      · exact ⟨h.nodes, solutions⟩
      next split? _ =>
        obtain ⟨timer, counts⟩ := h.counted
        unfold settle
        simp only
        split
        next reason stops =>
          refine stopAt_limited h.nodes (fun node_limit => ?_) solutions
          cases reason <;> cases node_limit
          -- no more nodes were announced than explored, so this limit is not passed here
          obtain ⟨n, limit, less⟩ := Search.of_nodeLimit counts stops
          exact absurd (h.nodes n limit) (not_le.mpr less)
        next proceeds =>
          obtain ⟨-, below⟩ := Search.of_proceed counts proceeds
          split_ifs
          · exact ⟨h.congr rfl rfl rfl, below.within⟩
          · split
            · exact offerBranching_limited h below _
            · split
              · exact split_limited h below.within _ _
              · exact splitByRule_limited h below.within _

/-- Where the flag is raised or the limit of solutions met, an admissible choice ends a search that is
in no hurry. The status tells which of both it was, and no more is counted. -/
theorem answer_met {d : Decision α} (h : d.search.Tracked plan)
    (unhurried : plan.Unhurried) {choice : Choice} (admissible : choice.Admissible plan d)
    (met : d.search.interrupted = true ∨
      ∃ l, plan.settings.solutionLimit = some l ∧ l ≤ d.search.stats.solutionsFound) :
    ∃ dual s, plan.answer d choice = .ended
      (if d.search.interrupted ∨ choice = .interrupt then .userInterrupt else .solutionLimit) dual s ∧
      s.stats = d.search.stats := by
  have stopped (status : SolveStatus) : ∃ dual s,
      plan.stopAt d.search d.focus.node status = .ended status dual s ∧ s.stats = d.search.stats := by
    obtain ⟨dual, journal, finish_eq⟩ := finish_eq plan
      { d.search with stack := d.focus.node :: d.search.stack } (.stopped status)
    exact ⟨dual, _, finish_eq, rfl⟩
  obtain ⟨valid, split?, split_eq⟩ := admissible
  unfold answer
  rw [valid, split_eq]
  simp only [Bool.not_true, Bool.false_eq_true, if_false]
  by_cases own : choice = .interrupt
  · rw [if_pos own, if_pos (.inr own)]
    exact stopped _
  · rw [if_neg own]
    unfold settle
    simp only [Search.commandAt_of_met h (fun t limit => unhurried t limit _ _) met, own, or_false]
    cases d.search.interrupted with
    | true => exact stopped _
    | false => exact stopped _

/-- A whole run keeps to the limits. If the callback spares the limit of solutions, or there is none, so
does the run. -/
theorem drive_limited {κ : Type} {handler : Handler α κ} (confined : handler.Confined)
    (spares : spared → plan.hooks = none) (turns : Nat) {turn : Turn α} (k : κ)
    (h : turn.Limited spared plan) : (plan.drive handler turns turn k).1.Limited spared plan := by
  induction turns generalizing turn k with
  | zero => exact h
  | succ turns ih =>
    cases turn with
    | proceed s => exact ih k (advance_limited h.1 h.2)
    | ask d =>
      obtain ⟨hooked, tracked, -⟩ := h
      refine ih _ (resolve_limited ((confined plan d k).tracked tracked) (fun spared => ?_) _)
      rw [spares spared] at hooked
      cases hooked
    | ended => exact h
    | failed => exact h

/-- A search starts with nothing counted. -/
theorem start_limited (plan : Plan α) {stats : Statistics α} (explored : stats.nodesExplored = 0)
    (found : stats.solutionsFound = 0) (incumbent : Option (Solution α)) (interrupted : Bool) :
    (Turn.proceed (Search.start plan stats incumbent interrupted)).Limited spared plan := by
  unfold Search.start
  simp only
  obtain ⟨journal, shown⟩ := Search.display_eq (Search.note {
    stack := [Node.root plan.problem.sense.best], lastNumber := 1, stats, incumbent
    monitor := (Search.monitorOf plan.settings).after .entered, interrupted
    engine := Random.Engine.ofSeed plan.settings.randomSeedShift, journal := #[] }
    (.started plan.problem.name plan.settings.rule plan.problem.size plan.problem.constraints.size))
    plan (.opening plan.problem.name plan.problem.size plan.problem.constraints.size)
  rw [shown]
  refine ⟨⟨⟨0, ?_⟩, fun n _ => ?_⟩, fun l _ => ?_⟩
  · show (Monitor.counting plan.settings 0 0 0).after .entered =
      .counting plan.settings 0 stats.nodesExplored stats.solutionsFound
    rw [Monitor.after_entered, explored, found]
  · exact explored.trans_le (Nat.zero_le n)
  · exact found.trans_le (Nat.zero_le l)

end Plan
end Steps
end Milp
