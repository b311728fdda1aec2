import Milp.Proofs.Control.Calls
import Milp.Proofs.Control.Strategy
import Milp.Proofs.Search.Acts
import Milp.Proofs.Search.Runs

/-!
# Callbacks that change nothing

A callback that leaves every decision to the solver, does not ask the search to stop and has no trial
accepted changes nothing but what it is counted for: the search with it goes the way of the search
without it (`Model.solve_undisturbed`).

The two searches are run side by side. `Search.Shadows` compares their states: they agree in all but
the journal and four counters, which may be larger with the callback (`Statistics.Shadows`). Where
the one asks for a decision, the other has split the node already (`Turn.Shadows`), so the search
with the callback takes more turns; at most two of them in a row are decisions.
-/

namespace Milp

/-! ### Statistics -/

namespace Statistics

variable {α : Type} {a b : Statistics α}

/-- Whether the counters that callbacks raise are numbers that a counter can show. -/
structure InRange (a : Statistics α) : Prop where
  relaxations : a.relaxationsSolved ≤ counterLimit
  iterations : a.iterations ≤ counterLimit
  trials : a.trials ≤ counterLimit
  calls : a.callbackCalls ≤ counterLimit

/-- Statistics with the counters that callbacks raise taken from others. -/
def raisedTo (a b : Statistics α) : Statistics α :=
  { a with
    relaxationsSolved := b.relaxationsSolved
    iterations := b.iterations
    trials := b.trials
    callbackCalls := b.callbackCalls }

/-- Whether statistics differ from others at most in the counters that callbacks raise, where they
are not larger. -/
structure Shadows (a b : Statistics α) : Prop where
  same : b = a.raisedTo b
  relaxations : a.relaxationsSolved ≤ b.relaxationsSolved
  iterations : a.iterations ≤ b.iterations
  trials : a.trials ≤ b.trials
  calls : a.callbackCalls ≤ b.callbackCalls
  inRange : b.InRange

namespace Shadows

/-- Statistics shadow themselves. -/
theorem refl (h : a.InRange) : a.Shadows a :=
  ⟨rfl, Nat.le_refl _, Nat.le_refl _, Nat.le_refl _, Nat.le_refl _, h⟩

/-- An update that does not look at the counters that callbacks raise. -/
theorem map (h : a.Shadows b) {f : Statistics α → Statistics α}
    (blind : ∀ a b, f (a.raisedTo b) = (f a).raisedTo b) : (f a).Shadows (f b) := by
  have first : f a = (f a).raisedTo a := blind a a
  have second : f b = (f a).raisedTo b := (congrArg f h.same).trans (blind a b)
  rw [first, second]
  exact ⟨rfl, h.relaxations, h.iterations, h.trials, h.calls,
    ⟨h.inRange.relaxations, h.inRange.iterations, h.inRange.trials, h.inRange.calls⟩⟩

/-- Both searches solve a relaxation. -/
theorem onRelaxation (h : a.Shadows b) (pivots : Nat) :
    (a.onRelaxation pivots).Shadows (b.onRelaxation pivots) where
  same := congrArg (·.onRelaxation pivots) h.same
  relaxations := countUp_le_countUp h.relaxations 1
  iterations := countUp_le_countUp h.iterations pivots
  trials := h.trials
  calls := h.calls
  inRange := ⟨countUp_le _ _, countUp_le _ _, h.inRange.trials, h.inRange.calls⟩

/-- A trial solves a relaxation. -/
theorem solved (h : a.Shadows b) (pivots : Nat) : a.Shadows (b.onRelaxation pivots) where
  same := congrArg (·.onRelaxation pivots) h.same
  relaxations := le_countUp h.relaxations h.inRange.relaxations 1
  iterations := le_countUp h.iterations h.inRange.iterations pivots
  trials := h.trials
  calls := h.calls
  inRange := ⟨countUp_le _ _, countUp_le _ _, h.inRange.trials, h.inRange.calls⟩

/-- A trial begins. -/
theorem tried (h : a.Shadows b) : a.Shadows b.onTrial where
  same := congrArg (·.onTrial) h.same
  relaxations := h.relaxations
  iterations := h.iterations
  trials := le_countUp h.trials h.inRange.trials 1
  calls := h.calls
  inRange := ⟨h.inRange.relaxations, h.inRange.iterations, countUp_le _ _, h.inRange.calls⟩

/-- A decision is asked for. -/
theorem asked (h : a.Shadows b) : a.Shadows b.onCallback where
  same := congrArg (·.onCallback) h.same
  relaxations := h.relaxations
  iterations := h.iterations
  trials := h.trials
  calls := le_countUp h.calls h.inRange.calls 1
  inRange := ⟨h.inRange.relaxations, h.inRange.iterations, h.inRange.trials, countUp_le _ _⟩

end Shadows
end Statistics

/-! ### States -/

/-- Whether a search agrees with another one in all but the journal and the counters that callbacks
raise, which are not larger. -/
def Search.Shadows {α : Type} (s s' : Search α) : Prop :=
  ∃ stats journal, s' = { s with stats, journal } ∧ s.stats.Shadows stats

namespace Search.Shadows

variable {α : Type} {s s' : Search α}

/-- A search shadows itself. -/
theorem refl (h : s.stats.InRange) : s.Shadows s := ⟨s.stats, s.journal, rfl, .refl h⟩

/-- The statistics shadow each other. -/
theorem stats (h : s.Shadows s') : s.stats.Shadows s'.stats := by
  obtain ⟨stats, journal, rfl, shadows⟩ := h
  exact shadows

/-- Both searches say the same to their monitors, and hear the same at the same time. -/
theorem commandAt_eq (h : s.Shadows s') (now : Duration) : s.commandAt now = s'.commandAt now := by
  obtain ⟨stats, journal, rfl, -⟩ := h
  rfl

/-- Both searches have explored as many nodes. -/
theorem nodesExplored_eq (h : s.Shadows s') : s.stats.nodesExplored = s'.stats.nodesExplored := by
  rw [h.stats.same]
  rfl

/-- Both searches have the same incumbent. -/
theorem incumbent_eq (h : s.Shadows s') : s.incumbent = s'.incumbent := by
  obtain ⟨stats, journal, rfl, -⟩ := h
  rfl

/-- Each search writes its own journal. -/
theorem note (h : s.Shadows s') (e e' : JournalEvent α) : (s.note e).Shadows (s'.note e') := by
  obtain ⟨stats, journal, rfl, shadows⟩ := h
  exact ⟨stats, _, rfl, shadows⟩

/-- The search with the callback writes something into its journal. -/
theorem noted (h : s.Shadows s') (e : JournalEvent α) : s.Shadows (s'.note e) := by
  obtain ⟨stats, journal, rfl, shadows⟩ := h
  exact ⟨stats, _, rfl, shadows⟩

/-- Each search has its own statistics. -/
theorem counted (h : s.Shadows s') {stats stats' : Statistics α} (shadows : stats.Shadows stats') :
    Search.Shadows { s with stats } { s' with stats := stats' } := by
  obtain ⟨_, journal, rfl, -⟩ := h
  exact ⟨stats', journal, rfl, shadows⟩

/-- The search with the callback counts something for it. -/
theorem raised (h : s.Shadows s') {stats : Statistics α} (shadows : s.stats.Shadows stats) :
    s.Shadows { s' with stats } := h.counted shadows

/-- Both searches go on with the same open nodes and monitors. -/
theorem moved (h : s.Shadows s') (stack : List (Node α)) (monitor : Monitor Unit) :
    Search.Shadows { s with stack, monitor } { s' with stack, monitor } := by
  obtain ⟨stats, journal, rfl, shadows⟩ := h
  exact ⟨stats, journal, rfl, shadows⟩

/-- Both searches draw from the same engine. -/
theorem drawn (h : s.Shadows s') (engine : Random.Engine) :
    Search.Shadows { s with engine } { s' with engine } := by
  obtain ⟨stats, journal, rfl, shadows⟩ := h
  exact ⟨stats, journal, rfl, shadows⟩

variable (plan : Plan α)

/-- Both searches may show lines to the reader. -/
theorem display (h : s.Shadows s') (line line' : ReaderLine α) :
    (s.display plan line).Shadows (s'.display plan line') := by
  obtain ⟨stats, journal, rfl, shadows⟩ := h
  unfold Search.display
  split <;> split <;> exact ⟨stats, _, rfl, shadows⟩

variable [Scalar α]

/-- Both searches make the same point their incumbent. -/
theorem install (h : s.Shadows s') (values : Array α) :
    (s.install plan values).Shadows (s'.install plan values) := by
  obtain ⟨stats, journal, rfl, shadows⟩ := h
  exact ⟨stats.onSolution, _, rfl, shadows.map (f := Statistics.onSolution) fun _ _ => rfl⟩

/-- Both searches split a node in the same way. -/
theorem split (h : s.Shadows s') (f : Focus α) (split : Split α) :
    (plan.split s f split).Shadows (plan.split s' f split) := by
  obtain ⟨stats, journal, rfl, shadows⟩ := h
  have branched : s.stats.onBranched.Shadows stats.onBranched := shadows.map fun _ _ => rfl
  cases split with
  | onVariable v => exact ⟨stats.onBranched, _, rfl, branched⟩
  | onSum vs sum => exact ⟨stats.onBranched, _, rfl, branched⟩

/-- Both searches draw the same variable to split a node by. -/
theorem splitByRule (h : s.Shadows s') (f : Focus α) :
    (plan.splitByRule s f).Shadows (plan.splitByRule s' f) := by
  have same : s'.engine = s.engine := by
    obtain ⟨stats, journal, rfl, -⟩ := h
    rfl
  unfold Plan.splitByRule
  rw [same]
  cases plan.settings.rule.select f.candidates f.values plan.rank s.engine with
  | mk v? engine =>
    cases v? with
    | none => exact h.drawn engine
    | some v => exact (h.drawn engine).split plan f _

end Search.Shadows

/-! ### Decision points -/

namespace Decision

variable {α : Type} [Scalar α] {plan : Plan α} {s : Search α} {d : Decision α}

/-- A trial only counts unless it is accepted. -/
theorem tryAssignment_shadows (h : s.Shadows d.search) (assignment : List (Var × α)) :
    s.Shadows (d.tryAssignment plan assignment).2.search ∨ d.accepts plan assignment = true := by
  unfold accepts tryAssignment
  cases refusal? plan assignment with
  | some refusal => exact .inl h
  | none =>
    have tried : s.Shadows { d.search with stats := d.search.stats.onTrial } :=
      h.raised h.stats.tried
    simp only [probe]
    cases fixAll plan assignment d.focus.box with
    | none => exact .inl (tried.noted _)
    | some box =>
      simp only
      cases plan.relax box d.focus.node.rows with
      | error e => exact .inl tried
      | ok relaxed =>
        have solved := tried.raised (tried.stats.solved relaxed.iterations)
        simp only [judge]
        cases relaxed.result with
        | infeasible => exact .inl (solved.noted _)
        | unbounded => exact .inl (solved.noted _)
        | optimal objective values =>
          simp only
          split_ifs
          · exact .inl (solved.noted _)
          · exact .inl (solved.noted _)
          · exact .inr rfl

/-- Acts without an interrupt and without an accepted trial only count. -/
theorem perform_shadows {acts : List (Act α)} (h : s.Shadows d.search)
    (calm : Act.interrupt ∉ acts) (vain : (d.tally plan acts).accepted = 0) :
    s.Shadows (d.perform plan acts).search := by
  induction acts generalizing d with
  | nil => exact h
  | cons act acts ih =>
    cases act with
    | interrupt => exact absurd List.mem_cons_self calm
    | attempt assignment =>
      obtain ⟨here, later⟩ : (d.accepts plan assignment).toNat = 0 ∧
          ((d.tryAssignment plan assignment).2.tally plan acts).accepted = 0 :=
        Nat.add_eq_zero_iff.mp vain
      rcases tryAssignment_shadows h assignment with tried | accepted
      · exact ih tried (fun listed => calm (List.mem_cons_of_mem _ listed)) later
      · rw [accepted] at here
        cases here

end Decision

/-! ### The steps -/

/-- The plan without the callback. -/
def Plan.bare {α : Type} (plan : Plan α) : Plan α := { plan with hooks := none }

section Steps

variable {α : Type} [Scalar α] (plan : Plan α)

/-- Whether a search without the callback is where the search with it is. Where the search with the
callback asks for a decision, the monitors have let it go on, the node is worth it, and the other
search has split the node by the rule. -/
inductive Turn.Shadows : Turn α → Turn α → Prop
  | proceed {s s' : Search α} (h : s.Shadows s') : Shadows (.proceed s) (.proceed s')
  | ask {s : Search α} {d : Decision α} (h : s.Shadows d.search)
    {now : Duration} (going : d.search.commandAt now = .proceed)
    (useful : plan.problem.canImprove (Scalar.extend d.focus.bound) d.search.incumbent
      plan.tolerance = true) : Shadows (.proceed (plan.splitByRule s d.focus)) (.ask d)
  | ended {s s' : Search α} (h : s.Shadows s') (status : SolveStatus) (dual : Extended α) :
    Shadows (.ended status dual s) (.ended status dual s')
  | failed {s s' : Search α} (h : s.Shadows s') (cause : Failure (SolverError α)) :
    Shadows (.failed cause s) (.failed cause s')

namespace Plan

variable {plan} {s s' : Search α} {now : Duration}

/-- Both searches end in the same way. -/
theorem finish_shadows (h : s.Shadows s') (ending : Ending) :
    Turn.Shadows plan (plan.bare.finish s ending) (plan.finish s' ending) := by
  have exited := h.moved s.stack (s.monitor.after .exited)
  obtain ⟨stats, journal, rfl, -⟩ := h
  exact .ended ((exited.note _ _).display plan _ _) _ _

/-- Both searches stop in the same way. -/
theorem stopAt_shadows (h : s.Shadows s') (node : Node α) (status : SolveStatus) :
    Turn.Shadows plan (plan.bare.stopAt s node status) (plan.stopAt s' node status) := by
  have pushed := h.moved (node :: s.stack) s.monitor
  obtain ⟨stats, journal, rfl, -⟩ := h
  exact finish_shadows pushed _

/-- Where one search asks for a decision, the other one branches. -/
theorem askAt_shadows (h : s.Shadows s') {f : Focus α} (going : s'.commandAt now = .proceed)
    (useful : plan.problem.canImprove (Scalar.extend f.bound) s'.incumbent plan.tolerance = true)
    (point : DecisionPoint) :
    Turn.Shadows plan (.proceed (plan.splitByRule s f)) (Turn.askAt s' f point) :=
  .ask (d := { search := { s' with stats := s'.stats.onCallback }, focus := f, point })
    (h.raised h.stats.asked) going useful

/-- Where one search is behind the heuristic point of a node, the other one branches. -/
theorem offerBranching_shadows (h : s.Shadows s') {f : Focus α}
    (going : s'.commandAt now = .proceed)
    (useful : plan.problem.canImprove (Scalar.extend f.bound) s'.incumbent plan.tolerance = true) :
    Turn.Shadows plan (.proceed (plan.splitByRule s f)) (plan.offerBranching s' f) := by
  unfold offerBranching
  split
  · exact askAt_shadows h going useful _
  · exact .proceed (h.splitByRule plan f)

/-- Where one search goes on with a solved node, the other one branches. -/
theorem offer_shadows (h : s.Shadows s') {f : Focus α} (going : s'.commandAt now = .proceed)
    (useful : plan.problem.canImprove (Scalar.extend f.bound) s'.incumbent plan.tolerance = true) :
    Turn.Shadows plan (.proceed (plan.splitByRule s f)) (plan.offer s' f) := by
  unfold offer
  split
  · exact askAt_shadows h going useful _
  · exact offerBranching_shadows h going useful

/-- Both searches go on with the optimum of a relaxation. -/
theorem explore_shadows (h : s.Shadows s') (going : s'.commandAt now = .proceed) (node : Node α)
    (box : Box α) (bound : α) (values : Array α) :
    Turn.Shadows plan (plan.bare.explore s node box bound values)
      (plan.explore s' node box bound values) := by
  have same : s'.stack = s.stack := by
    obtain ⟨stats, journal, rfl, -⟩ := h
    rfl
  have noted := (h.note (.nodeSolved node.number node.depth bound)
    (.nodeSolved node.number node.depth bound)).display plan
      (.node node.number node.depth bound s.stack.length)
      (.node node.number node.depth bound s.stack.length)
  have shown : ((s'.note (.nodeSolved node.number node.depth bound)).display plan
      (.node node.number node.depth bound s.stack.length)).commandAt now = .proceed := by
    rw [← noted.commandAt_eq, ← going, ← h.commandAt_eq]
    unfold Search.display
    split <;> rfl
  unfold explore
  simp only [same]
  rw [show (s.note (.nodeSolved node.number node.depth bound)).display plan.bare
      (.node node.number node.depth bound s.stack.length) =
    (s.note (.nodeSolved node.number node.depth bound)).display plan
      (.node node.number node.depth bound s.stack.length) from rfl]
  generalize (s.note (.nodeSolved node.number node.depth bound)).display plan
    (.node node.number node.depth bound s.stack.length) = t at noted ⊢
  generalize (s'.note (.nodeSolved node.number node.depth bound)).display plan
    (.node node.number node.depth bound s.stack.length) = t' at noted shown ⊢
  have pruned := noted.counted (noted.stats.map (f := Statistics.onPrunedByBound) fun _ _ => rfl)
  have installed := noted.install plan values
  have offered (f : Focus α) (useful : plan.problem.canImprove (Scalar.extend f.bound)
      t'.incumbent plan.tolerance = true) :
      Turn.Shadows plan (.proceed (plan.splitByRule t f)) (plan.offer t' f) :=
    offer_shadows noted shown useful
  obtain ⟨stats, journal, rfl, -⟩ := noted
  show Turn.Shadows plan
    (if !plan.problem.canImprove (Scalar.extend bound) t.incumbent plan.tolerance then _
      else if (plan.problem.fractionalVars plan.tolerance values).isEmpty then _ else _)
    (if !plan.problem.canImprove (Scalar.extend bound) t.incumbent plan.tolerance then _
      else if (plan.problem.fractionalVars plan.tolerance values).isEmpty then _ else _)
  split_ifs with useless whole
  · exact .proceed pruned
  · exact .proceed installed
  · exact offered _ (by simpa using useless)

omit [Scalar α] in
/-- Both searches count a node whose relaxation is solved. -/
theorem visited_shadows {a b : Statistics α} (h : a.Shadows b) (pivots depth : Nat)
    (root : Option α) :
    (if depth = 0 then
        { (a.onRelaxation pivots).onExplored depth with rootObjective := root }
      else (a.onRelaxation pivots).onExplored depth).Shadows
    (if depth = 0 then
        { (b.onRelaxation pivots).onExplored depth with rootObjective := root }
      else (b.onRelaxation pivots).onExplored depth) := by
  have explored := (h.onRelaxation pivots).map (f := (·.onExplored depth)) fun _ _ => rfl
  split
  · exact explored.map (f := ({ · with rootObjective := root })) fun _ _ => rfl
  · exact explored

/-- Both searches solve the relaxation of a node. -/
theorem visit_shadows (h : s.Shadows s') (going : s'.commandAt now = .proceed) (node : Node α) :
    Turn.Shadows plan (plan.bare.visit s node) (plan.visit s' node) := by
  unfold visit
  simp only
  rw [show plan.bare.relax (node.box plan.bare.problem) node.rows =
    plan.relax (node.box plan.problem) node.rows from rfl]
  cases plan.relax (node.box plan.problem) node.rows with
  | error e => exact .failed h _
  | ok relaxed =>
    obtain ⟨result, pivots⟩ := relaxed
    have counted (root : Option α) := visited_shadows h.stats pivots node.depth root
    cases result with
    | infeasible =>
      have dropped := (counted none).map (f := Statistics.onPrunedInfeasible) fun _ _ => rfl
      exact .proceed ((h.counted dropped).note _ _)
    | unbounded => exact finish_shadows (h.counted (counted none)) _
    | optimal bound values =>
      exact explore_shadows (h.counted (counted (some bound))) going node _ bound values

/-- Both searches take the next open node. -/
theorem advance_shadows (h : s.Shadows s') :
    Turn.Shadows plan (plan.bare.advance s) (plan.advance s') := by
  obtain ⟨stack, lastNumber, stats, incumbent, monitor, interrupted, engine, journal⟩ := s
  obtain ⟨stats', journal', rfl, shadows⟩ := h
  unfold advance
  cases stack with
  | nil => exact finish_shadows ⟨stats', journal', rfl, shadows⟩ _
  | cons node rest =>
    have popped (monitor : Monitor Unit) : Search.Shadows
        ⟨rest, lastNumber, stats, incumbent, monitor, interrupted, engine, journal⟩
        ⟨rest, lastNumber, stats', incumbent, monitor, interrupted, engine, journal'⟩ :=
      ⟨stats', journal', rfl, shadows⟩
    show Turn.Shadows plan
      (if !plan.problem.canImprove node.parentBound incumbent plan.tolerance then _ else _)
      (if !plan.problem.canImprove node.parentBound incumbent plan.tolerance then _ else _)
    split
    · exact .proceed ((popped monitor).counted
        (shadows.map (f := Statistics.onPrunedByBound) fun _ _ => rfl))
    · have stepped := popped (monitor.after .stepped)
      simp only
      rw [stepped.nodesExplored_eq, stepped.commandAt_eq,
        show plan.bare.clock = plan.clock from rfl]
      cases going : Search.commandAt
        ⟨rest, lastNumber, stats', incumbent, monitor.after .stepped, interrupted, engine, journal'⟩
        (plan.clock.beforeNode stats'.nodesExplored)
      with
      | terminate reason => exact stopAt_shadows stepped node _
      | proceed => exact visit_shadows stepped going node

end Plan

end Steps

/-! ### Answers -/

/-- The choices that leave a decision to the solver. -/
def Choice.passives : List Choice := [.didNotRun, .didNotFind, .foundSolution]

/-- Whether a handler leaves a decision point to the solver: it makes a passive choice, does not ask
the search to stop, and has no trial accepted. No time limit has passed when it has made its choice. -/
structure Handler.QuietAt {α κ : Type} [Scalar α] (handler : Handler α κ)
    (acts : Plan α → Decision α → κ → List (Act α)) (plan : Plan α) (d : Decision α) (k : κ) :
    Prop where
  passive : ∃ choice ∈ Choice.passives, choice.isValidAt d.point = true ∧
    (handler plan d k).1 = .ok choice
  calm : Act.interrupt ∉ acts plan d k
  vain : (d.tally plan (acts plan d k)).accepted = 0
  inTime : d.search.commandAt (plan.clock.decided d.search.stats.nodesExplored d.point) ≠
    .terminate .timeLimit

/-- The number of decisions in a row that may still be asked for at a node. -/
def Turn.pending {α : Type} : Turn α → Nat
  | .ask d =>
    match d.point with
    | .heuristic => 2
    | .branching => 1
  | _ => 0

namespace Plan

variable {α κ : Type} [Scalar α] {plan : Plan α}

/-- Where a search goes on with a passive choice, the other one is already. -/
theorem answer_shadows {s : Search α} {d : Decision α} (h : s.Shadows d.search)
    (going : d.search.commandAt (plan.clock.decided d.search.stats.nodesExplored d.point) = .proceed)
    (useful : plan.problem.canImprove (Scalar.extend d.focus.bound) d.search.incumbent
      plan.tolerance = true) {choice : Choice} (passive : choice ∈ Choice.passives)
    (valid : choice.isValidAt d.point = true) :
    Turn.Shadows plan (.proceed (plan.splitByRule s d.focus)) (plan.answer d choice) ∧
      (plan.answer d choice).pending < (Turn.ask d).pending := by
  have stays : choice ≠ .interrupt := by
    rintro rfl
    simp [Choice.passives] at passive
  have none_named : plan.splitOf d.focus choice = .ok none := by
    simp only [Choice.passives, List.mem_cons, List.not_mem_nil, or_false] at passive
    rcases passive with rfl | rfl | rfl <;> rfl
  have settled : plan.answer d choice = match d.point with
      | .heuristic => plan.offerBranching d.search d.focus
      | .branching => .proceed (plan.splitByRule d.search d.focus) := by
    cases point : d.point <;> rw [point] at valid going <;>
      simp [answer, point, valid, stays, none_named, settle, going, useful]
  rw [settled, Turn.pending]
  cases d.point with
  | heuristic =>
    refine ⟨offerBranching_shadows h going useful, ?_⟩
    simp only [offerBranching]
    split
    · exact Nat.one_lt_two
    · exact Nat.two_pos
  | branching => exact ⟨.proceed (h.splitByRule plan d.focus), Nat.one_pos⟩

/-- A handler that leaves a decision to the solver brings the search to where the other one is. -/
theorem resolve_shadows {handler : Handler α κ} {acts : Plan α → Decision α → κ → List (Act α)}
    (performs : handler.Performs acts) {turn : Turn α} {d : Decision α} {k : κ}
    (quiet : handler.QuietAt acts plan d k) (h : Turn.Shadows plan turn (.ask d)) :
    Turn.Shadows plan turn (plan.resolve (handler plan d k).2.1 (handler plan d k).1) ∧
      (plan.resolve (handler plan d k).2.1 (handler plan d k).1).pending < (Turn.ask d).pending := by
  obtain ⟨choice, passive, valid, made⟩ := quiet.passive
  have same := (Handler.confined_iff.mpr ⟨acts, performs⟩ plan d k).samePoint
  have performed := performs plan d k
  rw [made]
  generalize (handler plan d k).2.1 = e at same performed
  cases h with
  | @ask s d h now going useful =>
    have still : s.Shadows e.search := by
      rw [performed]
      exact Decision.perform_shadows h quiet.calm quiet.vain
    replace going := Search.commandAt_of_inTime going quiet.inTime
    rw [← h.commandAt_eq, still.commandAt_eq, ← h.nodesExplored_eq, still.nodesExplored_eq,
      ← same.point] at going
    rw [← h.incumbent_eq, still.incumbent_eq, ← same.focus] at useful
    rw [← same.point] at valid
    have answered := answer_shadows still going useful passive valid
    rw [same.focus] at answered
    simp only [Turn.pending, same.point] at answered ⊢
    exact answered

end Plan

/-! ### Runs -/

/-- Both searches are over or neither is. -/
theorem Turn.Shadows.isOver_iff {α : Type} [Scalar α] {plan : Plan α} {turn turn' : Turn α}
    (h : Turn.Shadows plan turn turn') : turn.IsOver ↔ turn'.IsOver := by
  cases h <;> exact Iff.rfl

namespace Plan

variable {α κ : Type} [Scalar α]

/-- The decisions that a run comes to, each with what the handler remembers there. -/
def decisions (plan : Plan α) (handler : Handler α κ) : Nat → Turn α → κ → List (Decision α × κ)
  | 0, _, _ => []
  | turns + 1, turn, k =>
    match turn with
    | .proceed s => decisions plan handler turns (plan.advance s) k
    | .ask d =>
      let (reply, e, k') := handler plan d k
      (d, k) :: decisions plan handler turns (plan.resolve e reply) k'
    | _ => []

/-- Whether a handler leaves all decisions to the solver that a run comes to, however long it is. -/
def Undisturbed (plan : Plan α) (handler : Handler α κ)
    (acts : Plan α → Decision α → κ → List (Act α)) (turn : Turn α) (k : κ) : Prop :=
  ∀ turns, ∀ asked ∈ plan.decisions handler turns turn k, handler.QuietAt acts plan asked.1 asked.2

variable {plan : Plan α} {handler : Handler α κ} {acts : Plan α → Decision α → κ → List (Act α)}
  {turn turn' : Turn α} {k : κ}

/-- A search that is over after some turns comes to no further decisions. -/
theorem decisions_subset {turns : Nat} (ended : (plan.drive handler turns turn k).1.IsOver)
    (more : Nat) : plan.decisions handler more turn k ⊆ plan.decisions handler turns turn k := by
  induction more generalizing turns turn k with
  | zero => exact List.nil_subset _
  | succ more ih =>
    cases turn with
    | proceed s =>
      cases turns with
      | zero => exact ended.elim
      | succ turns => exact ih ended
    | ask d =>
      cases turns with
      | zero => exact ended.elim
      | succ turns => exact List.cons_subset_cons _ (ih ended)
    | ended status dual s => exact List.nil_subset _
    | failed cause s => exact List.nil_subset _

namespace Undisturbed

variable {s : Search α} {d : Decision α}

/-- The decisions behind the next node. -/
theorem advance (h : plan.Undisturbed handler acts (.proceed s) k) :
    plan.Undisturbed handler acts (plan.advance s) k := fun turns => h (turns + 1)

/-- The next decision. -/
theorem here (h : plan.Undisturbed handler acts (.ask d) k) : handler.QuietAt acts plan d k :=
  h 1 (d, k) List.mem_cons_self

/-- The decisions behind the next one. -/
theorem resolve (h : plan.Undisturbed handler acts (.ask d) k) :
    plan.Undisturbed handler acts (plan.resolve (handler plan d k).2.1 (handler plan d k).1)
      (handler plan d k).2.2 :=
  fun turns asked listed => h (turns + 1) asked (List.mem_cons_of_mem _ listed)

end Undisturbed

/-- Wherever the search with the callback comes, the search without it comes too. -/
theorem exists_bare (performs : handler.Performs acts)
    (quiet : plan.Undisturbed handler acts turn' k) (h : Turn.Shadows plan turn turn')
    (turns : Nat) : ∃ fewer ≤ turns, Turn.Shadows plan
      (plan.bare.drive Handler.passive fewer turn ()).1 (plan.drive handler turns turn' k).1 := by
  induction turns generalizing turn turn' k with
  | zero => exact ⟨0, Nat.le_refl 0, h⟩
  | succ turns ih =>
    cases h with
    | @proceed s s' h =>
      obtain ⟨fewer, le, shadows⟩ := ih quiet.advance (advance_shadows h)
      exact ⟨fewer + 1, Nat.succ_le_succ le, shadows⟩
    | @ask s d h now going useful =>
      have resolved := (resolve_shadows performs quiet.here (.ask h going useful)).1
      obtain ⟨fewer, le, shadows⟩ := ih quiet.resolve resolved
      exact ⟨fewer, Nat.le_succ_of_le le, shadows⟩
    | ended h status dual => exact ⟨0, Nat.zero_le _, .ended h status dual⟩
    | failed h cause => exact ⟨0, Nat.zero_le _, .failed h cause⟩

/-- The search with the callback gets past the decisions at a node. -/
theorem exists_proceed (performs : handler.Performs acts) {s : Search α}
    (quiet : plan.Undisturbed handler acts turn' k) (h : Turn.Shadows plan (.proceed s) turn') :
    ∃ turns s' k', plan.drive handler turns turn' k = (.proceed s', k') ∧ s.Shadows s' ∧
      plan.Undisturbed handler acts (.proceed s') k' := by
  induction pending : turn'.pending using Nat.strongRecOn generalizing turn' k with
  | ind n ih =>
    cases h with
    | @proceed _ s' h => exact ⟨0, s', k, rfl, h, quiet⟩
    | @ask s d h now going useful =>
      obtain ⟨resolved, fewer⟩ := resolve_shadows performs quiet.here (.ask h going useful)
      obtain ⟨turns, s', k', run, shadows, later⟩ := ih _ (pending ▸ fewer) quiet.resolve resolved rfl
      exact ⟨turns + 1, s', k', run, shadows, later⟩

/-- Wherever the search without the callback comes, the search with it comes too. -/
theorem exists_attended (performs : handler.Performs acts)
    (quiet : plan.Undisturbed handler acts turn' k) (h : Turn.Shadows plan turn turn')
    (turns : Nat) : ∃ more, Turn.Shadows plan
      (plan.bare.drive Handler.passive turns turn ()).1 (plan.drive handler more turn' k).1 := by
  induction turns generalizing turn turn' k with
  | zero => exact ⟨0, h⟩
  | succ turns ih =>
    cases turn with
    | proceed s =>
      obtain ⟨first, s', k', run, shadows, later⟩ := exists_proceed performs quiet h
      obtain ⟨more, there⟩ := ih later.advance (advance_shadows shadows)
      refine ⟨first + (more + 1), ?_⟩
      rw [drive_add run]
      exact there
    | ask d => nomatch h
    | ended status dual s =>
      have ended : (Turn.ended status dual s).IsOver := trivial
      rw [drive_of_isOver ended]
      exact ⟨0, h⟩
    | failed cause s =>
      have ended : (Turn.failed cause s).IsOver := trivial
      rw [drive_of_isOver ended]
      exact ⟨0, h⟩

end Plan

/-! ### Solves -/

/-- Whether a model agrees with another one in all but the callback and the counters that callbacks
raise, which are not larger. -/
structure Model.Shadows {α : Type} (m m' : Model α) : Prop where
  same : m' = { m with stats := m'.stats, hooks := m'.hooks }
  stats : m.stats.Shadows m'.stats

/-- Whether a solve without a callback leaves what one with a callback leaves. -/
structure SolveReport.Shadows {α κ μ : Type} (r : SolveReport α κ) (r' : SolveReport α μ) : Prop where
  model : r.model.Shadows r'.model
  result : r.result = r'.result

namespace Model

variable {α κ : Type} [Scalar α]

/-- Whether a solve of a model comes to its end, and what it leaves, however many turns it may take
from some number on. -/
def SolvesTo (m : Model α) (handler : Handler α κ) (memory : κ) (report : SolveReport α κ) : Prop :=
  ∃ enough, ∀ turns ≥ enough, m.solveWithin turns handler memory = report ∧
    ∀ plan turn, m.opening = .entered plan turn → (plan.drive handler turns turn memory).1.IsOver

/-- Whether a handler leaves all decisions of a solve to the solver. -/
def Undisturbed (m : Model α) (handler : Handler α κ)
    (acts : Plan α → Decision α → κ → List (Act α)) (memory : κ) : Prop :=
  ∀ plan turn, m.opening = .entered plan turn → plan.Undisturbed handler acts turn memory

variable {m : Model α} {hooks : Hooks} {plan : Plan α} {turn turn' : Turn α} {handler : Handler α κ}
  {memory : κ}

/-- A solve comes to one end. -/
theorem SolvesTo.unique {r r' : SolveReport α κ} (h : m.SolvesTo handler memory r)
    (h' : m.SolvesTo handler memory r') : r = r' := by
  obtain ⟨enough, ends⟩ := h
  obtain ⟨enough', ends'⟩ := h'
  have first := ends (max enough enough') (Nat.le_max_left _ _)
  have second := ends' (max enough enough') (Nat.le_max_right _ _)
  exact first.1.symm.trans second.1

/-- A solve that is over before it has searched comes to its end. -/
theorem solvesTo_of_over {result : Attempt (SolverError α) SolveStatus}
    (opened : m.opening = .over result) (handler : Handler α κ) (memory : κ) :
    m.SolvesTo handler memory ⟨m, result, memory, #[]⟩ := by
  refine ⟨0, fun turns _ => ⟨?_, fun plan turn entered => ?_⟩⟩
  · rw [solveWithin, opened]
  · cases opened.symm.trans entered

/-- A solve comes to its end if its search does. -/
theorem solvesTo_of_entered (opened : m.opening = .entered plan turn) {turns : Nat}
    (ended : (plan.drive handler turns turn memory).1.IsOver) :
    m.SolvesTo handler memory (m.solveWithin turns handler memory) := by
  refine ⟨turns, fun more enough => ?_⟩
  obtain ⟨rest, rfl⟩ := Nat.exists_eq_add_of_le enough
  have same : plan.drive handler (turns + rest) turn memory =
      plan.drive handler turns turn memory := by
    rw [Plan.drive_add rfl, Plan.drive_of_isOver ended]
  constructor
  · simp only [solveWithin, opened, same]
  · intro plan' turn' entered
    cases opened.symm.trans entered
    rwa [same]

/-- Both models are closed in the same way. -/
theorem close_shadows (m : Model α) (hooks : Hooks) (h : Turn.Shadows plan turn turn')
    (ended : turn.IsOver) : (m.close turn).1.Shadows ((m.hooked hooks).close turn').1 ∧
      (m.close turn).2 = ((m.hooked hooks).close turn').2 := by
  cases h with
  | proceed h => exact ended.elim
  | ask h going useful => exact ended.elim
  | ended h status dual =>
    obtain ⟨stats, journal, rfl, shadows⟩ := h
    exact ⟨⟨rfl, shadows⟩, rfl⟩
  | failed h cause =>
    obtain ⟨stats, journal, rfl, shadows⟩ := h
    cases cause with
    | error e => exact ⟨⟨rfl, shadows⟩, rfl⟩
    | crash c => exact ⟨⟨rfl, shadows⟩, rfl⟩

/-- Both solves begin in the same way. -/
theorem opening_shadows (unhooked : m.hooks = none) (inRange : m.stats.InRange) (hooks : Hooks) :
    (∃ result, m.opening = .over result ∧ (m.hooked hooks).opening = .over result) ∨
      ∃ plan turn, m.opening = .entered plan.bare turn ∧
        (m.hooked hooks).opening = .entered plan turn ∧ Turn.Shadows plan turn turn := by
  simp only [opening, hooked]
  cases m.stage with
  | solved => exact .inl ⟨_, rfl, rfl⟩
  | solving => exact .inl ⟨_, rfl, rfl⟩
  | problem =>
    cases Settings.read (α := α) m.registry with
    | error cause => exact .inl ⟨_, rfl, rfl⟩
    | ok settings =>
      rw [unhooked]
      let plan := Plan.ofSettings m.problem settings (some hooks) m.clock
      have counted : (Search.start plan m.stats m.incumbent m.interrupted).stats = m.stats := by
        unfold Search.start Search.display
        simp only
        split <;> rfl
      have started := Search.Shadows.refl (counted.symm ▸ inRange)
      exact .inr ⟨plan, _, rfl, rfl, .proceed started⟩

/-- Both solves leave the same if their searches end in the same way. -/
theorem solveWithin_shadows (opened : m.opening = .entered plan.bare turn)
    (opened' : (m.hooked hooks).opening = .entered plan turn) {turns turns' : Nat}
    (h : Turn.Shadows plan (plan.bare.drive Handler.passive turns turn ()).1
      (plan.drive handler turns' turn memory).1)
    (ended : (plan.bare.drive Handler.passive turns turn ()).1.IsOver) :
    (m.solveWithin turns Handler.passive ()).Shadows
      ((m.hooked hooks).solveWithin turns' handler memory) := by
  have closed := close_shadows m hooks h ended
  simp only [solveWithin, opened, opened']
  exact ⟨closed.1, closed.2⟩

/-- A callback that leaves all decisions to the solver, does not ask it to stop and has no trial
accepted changes nothing, where no time limit passes at its decisions: the solve with it comes to its
end if and only if the solve of the same model without it does, with the same result, and leaves the
same model but for the callback and larger numbers of relaxations, iterations, trials and calls. -/
theorem solve_undisturbed (unhooked : m.hooks = none) (inRange : m.stats.InRange) (hooks : Hooks)
    {acts : Plan α → Decision α → κ → List (Act α)} (performs : handler.Performs acts)
    (quiet : (m.hooked hooks).Undisturbed handler acts memory) :
    (∀ report', (m.hooked hooks).SolvesTo handler memory report' →
      ∃ report, m.SolvesTo Handler.passive () report ∧ report.Shadows report') ∧
    (∀ report, m.SolvesTo Handler.passive () report →
      ∃ report', (m.hooked hooks).SolvesTo handler memory report' ∧ report.Shadows report') := by
  rcases opening_shadows unhooked inRange hooks with
    ⟨result, opened, opened'⟩ | ⟨plan, turn, opened, opened', started⟩
  · have alone := solvesTo_of_over opened Handler.passive ()
    have attended := solvesTo_of_over opened' handler memory
    have same : m.Shadows (m.hooked hooks) := ⟨rfl, .refl inRange⟩
    constructor
    · intro report' ends
      obtain rfl := ends.unique attended
      exact ⟨_, alone, same, rfl⟩
    · intro report ends
      obtain rfl := ends.unique alone
      exact ⟨_, attended, same, rfl⟩
  · have undisturbed := quiet plan turn opened'
    constructor
    · rintro report' ⟨enough, ends⟩
      obtain ⟨reported, ended⟩ := ends enough (Nat.le_refl enough)
      obtain ⟨fewer, -, there⟩ := Plan.exists_bare performs undisturbed started enough
      have ended' := there.isOver_iff.mpr (ended plan turn opened')
      refine ⟨_, solvesTo_of_entered opened ended', ?_⟩
      rw [← reported]
      exact solveWithin_shadows opened opened' there ended'
    · rintro report ⟨enough, ends⟩
      obtain ⟨reported, ended⟩ := ends enough (Nat.le_refl enough)
      obtain ⟨more, there⟩ := Plan.exists_attended performs undisturbed started enough
      have ended' := ended plan.bare turn opened
      refine ⟨_, solvesTo_of_entered opened' (there.isOver_iff.mp ended'), ?_⟩
      rw [← reported]
      exact solveWithin_shadows opened opened' there ended'

end Model

/-! ### A callback that tries in vain -/

/-- Whether a run is over after some turns, comes to heuristic points only, and has no trial of an
assignment accepted at any of them. -/
def Plan.triesInVain (plan : Plan Rat) (assignment : List (Var × Rat)) (turns : Nat)
    (turn : Turn Rat) : Bool :=
  decide (plan.drive (Handler.trying assignment) turns turn ()).1.IsOver &&
    (plan.decisions (Handler.trying assignment) turns turn ()).all fun asked =>
      asked.1.point == .heuristic && (asked.1.tally plan [.attempt assignment]).accepted == 0 &&
        decide (asked.1.search.commandAt (plan.clock.decided asked.1.search.stats.nodesExplored
          asked.1.point) ≠ .terminate .timeLimit)

/-- Such a run is left to the solver. -/
theorem Plan.undisturbed_of_triesInVain {plan : Plan Rat} {assignment : List (Var × Rat)}
    {turns : Nat} {turn : Turn Rat} (h : plan.triesInVain assignment turns turn = true) :
    (plan.drive (Handler.trying assignment) turns turn ()).1.IsOver ∧
      plan.Undisturbed (Handler.trying assignment) (fun _ _ _ => [.attempt assignment]) turn () := by
  simp only [triesInVain, Bool.and_eq_true, decide_eq_true_eq, List.all_eq_true, beq_iff_eq] at h
  obtain ⟨ended, vain⟩ := h
  refine ⟨ended, fun more asked listed => ?_⟩
  obtain ⟨⟨point, rejected⟩, inTime⟩ := vain asked (decisions_subset ended more listed)
  refine ⟨⟨_, ?_, ?_, rfl⟩, by simp, rejected, inTime⟩
  · unfold Decision.heuristicChoice
    split <;> simp [Choice.passives]
  · rw [point]
    unfold Decision.heuristicChoice
    split <;> rfl

/-- Whether a solve of a model searches and tries an assignment in vain. -/
def Model.triesInVain (m : Model Rat) (assignment : List (Var × Rat)) (turns : Nat) : Bool :=
  match m.opening with
  | .over _ => false
  | .entered plan turn => plan.triesInVain assignment turns turn

/-- The solve of the pair with a callback that tries a value that is too large leaves what the solve
without it leaves. -/
theorem Model.pair_undisturbed :
    ∃ report report', (Model.ofProblem Problem.pair).SolvesTo Handler.passive () report ∧
      ((Model.ofProblem Problem.pair).hooked { heuristic := some {} }).SolvesTo
        (Handler.trying [(0, 4)]) () report' ∧
      report.Shadows report' ∧ report'.model.stats.trials = 8 := by
  have searched : ((Model.ofProblem Problem.pair).hooked { heuristic := some {} }).triesInVain
      [(0, 4)] 40 = true := by decide +kernel
  have tried : (((Model.ofProblem Problem.pair).hooked { heuristic := some {} }).solveWithin 40
      (Handler.trying [(0, 4)]) ()).model.stats.trials = 8 := by decide +kernel
  cases opened : ((Model.ofProblem Problem.pair).hooked { heuristic := some {} }).opening with
  | «over» result =>
    rw [Model.triesInVain, opened] at searched
    cases searched
  | entered plan turn =>
    rw [Model.triesInVain, opened] at searched
    obtain ⟨ended, undisturbed⟩ := Plan.undisturbed_of_triesInVain searched
    have inRange : (Model.ofProblem Problem.pair).stats.InRange := by constructor <;> decide
    have quiet : ((Model.ofProblem Problem.pair).hooked { heuristic := some {} }).Undisturbed
        (Handler.trying [(0, 4)]) (fun _ _ _ => [.attempt [(0, 4)]]) () := by
      intro plan' turn' opened'
      cases opened.symm.trans opened'
      exact undisturbed
    have attended := Model.solvesTo_of_entered opened ended
    obtain ⟨there, -⟩ := Model.solve_undisturbed rfl inRange { heuristic := some {} }
      (Handler.trying_performs [(0, 4)]) quiet
    obtain ⟨report, alone, shadows⟩ := there _ attended
    exact ⟨report, _, alone, attended, shadows, tried⟩

end Milp
