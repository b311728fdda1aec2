import Milp.Proofs.Search.Acts
import Milp.Proofs.Search.Improvement

/-!
# Every node is accounted for

A search begins with one node, and every branching exchanges one node for two. So at the end as many
nodes as there were branchings, and one more, have gone somewhere: they were dropped as infeasible
or for their bound, their optimum was installed as incumbent, they are still open, or the search has
found one of them to be unbounded. The counters of the search say how many nodes went which way, if
those incumbents are left out that trials of the callback have found (`Plan.nodes_conserved`).

The counters stop at the largest number, so the invariant (`Search.Balanced`) is about counts that do
not, and `Statistics.capped` is what the counters show of them. A node in hand is on no stack, so the
invariant says how many nodes are in hand. `Turn.Balanced` carries it over the steps of a search,
`Decision.perform_balanced` over what a callback does in between.
-/

namespace Milp

/-! ### Counts -/

namespace Statistics

variable {α : Type}

/-- What the counters show of counts that may be larger than any counter. -/
def capped (c : Statistics α) : Statistics α :=
  { c with
    nodesExplored := countUp 0 c.nodesExplored
    branchings := countUp 0 c.branchings
    prunedInfeasible := countUp 0 c.prunedInfeasible
    prunedByBound := countUp 0 c.prunedByBound
    solutionsFound := countUp 0 c.solutionsFound
    relaxationsSolved := countUp 0 c.relaxationsSolved }

/-- Whether the counts balance if so many nodes are left: every node that there was is left, was
dropped, or was installed, and every relaxation was that of a node or of a trial. -/
structure Balanced (c : Statistics α) (t : Tally) (left : Nat) : Prop where
  nodes : 1 + c.branchings + t.accepted =
    c.prunedInfeasible + c.prunedByBound + c.solutionsFound + left
  relaxations : c.relaxationsSolved = c.nodesExplored + t.solved

/-- Whether no count is larger than any counter. -/
structure Fits (c : Statistics α) : Prop where
  explored : c.nodesExplored < 2 ^ 64
  branchings : c.branchings < 2 ^ 64
  prunedInfeasible : c.prunedInfeasible < 2 ^ 64
  prunedByBound : c.prunedByBound < 2 ^ 64
  solutions : c.solutionsFound < 2 ^ 64
  relaxations : c.relaxationsSolved < 2 ^ 64

/-- Counts that fit are shown as they are. -/
theorem Fits.capped_eq {c : Statistics α} (h : c.Fits) : c.capped = c := by
  have shown {n : Nat} (small : n < 2 ^ 64) : countUp 0 n = n := countUp_of_le (Nat.le_of_lt_succ small)
  rw [capped, shown h.explored, shown h.branchings, shown h.prunedInfeasible, shown h.prunedByBound,
    shown h.solutions, shown h.relaxations]

/-- Counts fit if no counter has stopped. -/
theorem fits_of_capped {c : Statistics α} (h : ∀ n ∈ [c.capped.nodesExplored, c.capped.branchings,
    c.capped.prunedInfeasible, c.capped.prunedByBound, c.capped.solutionsFound,
    c.capped.relaxationsSolved], n < counterLimit) : c.Fits := by
  have below {n : Nat} (going : countUp 0 n < counterLimit) : n < 2 ^ 64 := by
    simp only [countUp, counterLimit] at going
    omega
  simp only [List.forall_mem_cons, List.not_mem_nil, false_implies, implies_true, and_true] at h
  obtain ⟨explored, branchings, infeasible, byBound, solutions, relaxations⟩ := h
  exact ⟨below explored, below branchings, below infeasible, below byBound, below solutions,
    below relaxations⟩

end Statistics

/-- Whether the counts behind the counters of a search balance, where so many nodes are neither on
the stack nor done with. -/
def Search.Balanced {α : Type} (s : Search α) (t : Tally) (inHand : Nat) : Prop :=
  ∃ c : Statistics α, s.stats = c.capped ∧ c.Balanced t (s.stack.length + inHand)

namespace Search.Balanced

variable {α : Type} {s s' : Search α} {t : Tally} {n m : Nat}

/-- Only the counters and the nodes that are left matter. -/
theorem moved (h : s.Balanced t n) (stats_eq : s'.stats = s.stats)
    (left_eq : s'.stack.length + m = s.stack.length + n) : s'.Balanced t m := by
  obtain ⟨c, shown, balanced⟩ := h
  exact ⟨c, stats_eq.trans shown, left_eq ▸ balanced⟩

/-- What is written into the journal does not matter. -/
theorem note (h : s.Balanced t n) (e : JournalEvent α) : (s.note e).Balanced t n := h.moved rfl rfl

/-- A decision is asked for. -/
theorem asked (h : s.Balanced t n) : Search.Balanced { s with stats := s.stats.onCallback } t n := by
  obtain ⟨c, shown, nodes, relaxations⟩ := h
  refine ⟨c.onCallback, ?_, nodes, relaxations⟩
  simp only [shown]
  rfl

/-- A trial begins. -/
theorem tried (h : s.Balanced t n) : Search.Balanced { s with stats := s.stats.onTrial } t n := by
  obtain ⟨c, shown, nodes, relaxations⟩ := h
  refine ⟨c.onTrial, ?_, nodes, relaxations⟩
  simp only [shown]
  rfl

/-- The relaxation of a trial is solved. -/
theorem solved (h : s.Balanced t n) (iterations : Nat) :
    Search.Balanced { s with stats := s.stats.onRelaxation iterations } (t + ⟨1, 0⟩) n := by
  obtain ⟨c, shown, nodes, relaxations⟩ := h
  refine ⟨{ c with
    relaxationsSolved := c.relaxationsSolved + 1
    iterations := countUp c.iterations iterations }, ?_, nodes, ?_⟩
  · simp only [shown, Statistics.onRelaxation, Statistics.capped, countUp_countUp]
  · show c.relaxationsSolved + 1 = c.nodesExplored + (t.solved + 1)
    omega

/-- The relaxation of a node is solved. -/
theorem explored (h : s.Balanced t n) (iterations depth : Nat) (root : Option α) :
    Search.Balanced { s with
      stats := { (s.stats.onRelaxation iterations).onExplored depth with
        rootObjective := root } } t n := by
  obtain ⟨c, shown, nodes, relaxations⟩ := h
  refine ⟨{ c with
    relaxationsSolved := c.relaxationsSolved + 1
    iterations := countUp c.iterations iterations
    nodesExplored := c.nodesExplored + 1
    maxDepth := max c.maxDepth depth
    rootObjective := root }, ?_, nodes, ?_⟩
  · simp only [shown, Statistics.onRelaxation, Statistics.onExplored, Statistics.capped,
      countUp_countUp]
  · show c.relaxationsSolved + 1 = c.nodesExplored + 1 + t.solved
    omega

/-- A node in hand is dropped for its bound. -/
theorem prunedByBound (h : s.Balanced t (n + 1)) :
    Search.Balanced { s with stats := s.stats.onPrunedByBound } t n := by
  obtain ⟨c, shown, nodes, relaxations⟩ := h
  refine ⟨{ c with prunedByBound := c.prunedByBound + 1 }, ?_, ?_, relaxations⟩
  · simp only [shown, Statistics.onPrunedByBound, Statistics.capped, countUp_countUp]
  · show 1 + c.branchings + t.accepted =
      c.prunedInfeasible + (c.prunedByBound + 1) + c.solutionsFound + (s.stack.length + n)
    omega

/-- A node in hand is dropped as infeasible. -/
theorem prunedInfeasible (h : s.Balanced t (n + 1)) :
    Search.Balanced { s with stats := s.stats.onPrunedInfeasible } t n := by
  obtain ⟨c, shown, nodes, relaxations⟩ := h
  refine ⟨{ c with prunedInfeasible := c.prunedInfeasible + 1 }, ?_, ?_, relaxations⟩
  · simp only [shown, Statistics.onPrunedInfeasible, Statistics.capped,
      countUp_countUp]
  · show 1 + c.branchings + t.accepted =
      c.prunedInfeasible + 1 + c.prunedByBound + c.solutionsFound + (s.stack.length + n)
    omega

variable [Scalar α] {plan : Plan α}

omit [Scalar α] in
/-- Lines for the reader do not matter. -/
theorem display (h : s.Balanced t n) (line : ReaderLine α) : (s.display plan line).Balanced t n := by
  unfold Search.display
  split
  · exact h.note _
  · exact h

/-- The optimum of the node in hand becomes the incumbent. -/
theorem installed (h : s.Balanced t (n + 1)) (values : Array α) :
    (s.install plan values).Balanced t n := by
  obtain ⟨c, shown, nodes, relaxations⟩ := h
  refine ⟨{ c with solutionsFound := c.solutionsFound + 1 }, ?_, ?_, relaxations⟩
  · simp only [Search.install, Search.note, shown, Statistics.onSolution, Statistics.capped,
      countUp_countUp]
  · show 1 + c.branchings + t.accepted =
      c.prunedInfeasible + c.prunedByBound + (c.solutionsFound + 1) + (s.stack.length + n)
    omega

/-- The optimum of a trial becomes the incumbent. -/
theorem accepted (h : s.Balanced t n) (values : Array α) :
    (s.install plan values).Balanced (t + ⟨0, 1⟩) n := by
  obtain ⟨c, shown, nodes, relaxations⟩ := h
  refine ⟨{ c with solutionsFound := c.solutionsFound + 1 }, ?_, ?_, relaxations⟩
  · simp only [Search.install, Search.note, shown, Statistics.onSolution, Statistics.capped,
      countUp_countUp]
  · show 1 + c.branchings + (t.accepted + 1) =
      c.prunedInfeasible + c.prunedByBound + (c.solutionsFound + 1) + (s.stack.length + n)
    omega

omit [Scalar α] in
/-- The node in hand is exchanged for two children. -/
theorem pushChildren (h : s.Balanced t (n + 1)) (down up : Node α) :
    (plan.pushChildren s down up).Balanced t n := by
  obtain ⟨c, shown, nodes, relaxations⟩ := h
  have two : (plan.pushChildren s down up).stack.length = s.stack.length + 2 := by
    unfold Plan.pushChildren
    cases plan.settings.childSelection <;> rfl
  refine ⟨{ c with branchings := c.branchings + 1 }, ?_, ?_, relaxations⟩
  · simp only [Plan.pushChildren, shown, Statistics.onBranched, Statistics.capped,
      countUp_countUp]
  · show 1 + (c.branchings + 1) + t.accepted = c.prunedInfeasible + c.prunedByBound +
      c.solutionsFound + ((plan.pushChildren s down up).stack.length + n)
    omega

/-- The node in hand is split. -/
theorem split (h : s.Balanced t (n + 1)) (f : Focus α) (split : Split α) :
    (plan.split s f split).Balanced t n := by
  cases split with
  | onVariable v => exact (h.pushChildren _ _).note _
  | onSum vs sum => exact (h.pushChildren _ _).note _

/-- The node in hand is split by the rule of the settings, which finds a variable for it. -/
theorem splitByRule (h : s.Balanced t (n + 1)) {f : Focus α} (fractional : f.candidates ≠ []) :
    (plan.splitByRule s f).Balanced t n := by
  obtain ⟨v, -, selected⟩ := BranchingRule.select_mem plan.settings.rule fractional f.values
    plan.rank s.engine
  unfold Plan.splitByRule
  simp only [selected]
  have drawn (engine : Random.Engine) : Search.Balanced { s with engine } t (n + 1) :=
    h.moved rfl rfl
  exact (drawn _).split f _

end Search.Balanced

/-! ### Decision points -/

namespace Tally

/-- Nothing is added to. -/
theorem zero_add (t : Tally) : {} + t = t := by
  show Tally.mk _ _ = t
  rw [Nat.zero_add, Nat.zero_add]

/-- Tallies are added in any order. -/
theorem add_assoc (s t u : Tally) : s + t + u = s + (t + u) := by
  show Tally.mk _ _ = Tally.mk _ _
  congr 1 <;> exact Nat.add_assoc _ _ _

end Tally

namespace Decision

variable {α : Type} [Scalar α] {plan : Plan α} {d : Decision α} {t : Tally} {n : Nat}

/-- A trial adds to the tally what it came to. -/
theorem tryAssignment_balanced (h : d.search.Balanced t n) (assignment : List (Var × α)) :
    (d.tryAssignment plan assignment).2.search.Balanced (t + d.trialTally plan assignment) n := by
  simp only [trialTally, solves, accepts, tryAssignment]
  cases refusal? plan assignment with
  | some refusal => exact h
  | none =>
    simp only [probe]
    cases fixAll plan assignment d.focus.box with
    | none => exact h.tried.note _
    | some box =>
      simp only
      cases plan.relax box d.focus.node.rows with
      | error e => exact h.tried
      | ok relaxed =>
        have solved := h.tried.solved relaxed.iterations
        simp only [judge]
        cases relaxed.result with
        | infeasible => exact solved.note _
        | unbounded => exact solved.note _
        | optimal objective values =>
          simp only
          split_ifs
          · exact solved.note _
          · exact solved.note _
          · exact (solved.accepted values).note _

/-- Acts add to the tally what they came to. -/
theorem perform_balanced (h : d.search.Balanced t n) (acts : List (Act α)) :
    (d.perform plan acts).search.Balanced (t + d.tally plan acts) n := by
  induction acts generalizing d t with
  | nil => exact h
  | cons act acts ih =>
    cases act with
    | attempt assignment =>
      have tried : (d.tryAssignment plan assignment).2.search.Balanced
          (t + d.trialTally plan assignment) n := tryAssignment_balanced h assignment
      rw [tally, ← Tally.add_assoc]
      exact ih tried
    | interrupt => exact ih (h.moved rfl rfl)

end Decision

/-! ### The steps -/

/-- Whether the counts balance where a search is. At a decision point a node is in hand that has
candidates. A search that has ended with a proof has no node left; one that is unbounded has a node
in hand. -/
def Turn.Balanced {α : Type} (t : Tally) : Turn α → Prop
  | .proceed s => s.Balanced t 0
  | .ask d => d.search.Balanced t 1 ∧ d.focus.candidates ≠ []
  | .ended status _ s =>
    s.Balanced t (if status = .unbounded then 1 else 0) ∧
      (status = .optimal ∨ status = .infeasible → s.stack = [])
  | .failed _ _ => True

namespace Plan

variable {α : Type} [Scalar α] {plan : Plan α} {s : Search α} {t : Tally}

/-- A search that has explored every node. -/
theorem finish_explored_balanced (h : s.Balanced t 0) (empty : s.stack = []) :
    (plan.finish s .explored).Balanced t := by
  have exited : Search.Balanced { s with monitor := s.monitor.after .exited } t 0 := h.moved rfl rfl
  unfold finish
  simp only [endStatus]
  split_ifs
  · exact ⟨(exited.note _).display _, fun _ => by simpa using empty⟩
  · exact ⟨(exited.note _).display _, fun _ => by simpa using empty⟩

/-- A search that has found a node to be unbounded. -/
theorem finish_unbounded_balanced (h : s.Balanced t 1) : (plan.finish s .unbounded).Balanced t := by
  have exited : Search.Balanced { s with monitor := s.monitor.after .exited } t 1 := h.moved rfl rfl
  exact ⟨(exited.note _).display _, by rintro (⟨⟨⟩⟩ | ⟨⟨⟩⟩)⟩

/-- A search that stops with a node in hand. -/
theorem stopAt_balanced (h : s.Balanced t 1) (node : Node α) {status : SolveStatus}
    (aborted : status.isAborted = true) : (plan.stopAt s node status).Balanced t := by
  have pushed : Search.Balanced { s with
      stack := node :: s.stack, monitor := s.monitor.after .exited } t 0 := h.moved rfl rfl
  have bounded : status ≠ .unbounded := by
    rintro rfl
    cases aborted
  refine ⟨?_, ?_⟩
  · show Search.Balanced _ t (if status = .unbounded then 1 else 0)
    rw [if_neg bounded]
    exact (pushed.note _).display _
  · rintro (eq | eq)
    · obtain rfl : status = .optimal := eq
      cases aborted
    · obtain rfl : status = .infeasible := eq
      cases aborted

/-- Every reason to stop aborts the search. -/
theorem isAborted_ofStop (reason : StopReason) : (SolveStatus.ofStop reason).isAborted = true := by
  cases reason <;> rfl

omit [Scalar α] in
/-- Waiting at a decision point of a node. -/
theorem askAt_balanced (h : s.Balanced t 1) {f : Focus α} (fractional : f.candidates ≠ [])
    (point : DecisionPoint) : (Turn.askAt s f point).Balanced t := ⟨h.asked, fractional⟩

/-- Going on behind the heuristic point. -/
theorem offerBranching_balanced (h : s.Balanced t 1) {f : Focus α} (fractional : f.candidates ≠ []) :
    (plan.offerBranching s f).Balanced t := by
  unfold offerBranching
  split
  · exact askAt_balanced h fractional _
  · exact h.splitByRule fractional

/-- Going on with a solved node. -/
theorem offer_balanced (h : s.Balanced t 1) {f : Focus α} (fractional : f.candidates ≠ []) :
    (plan.offer s f).Balanced t := by
  unfold offer
  split
  · exact askAt_balanced h fractional _
  · exact offerBranching_balanced h fractional

/-- Going on with the optimum of a node's relaxation. -/
theorem explore_balanced (h : s.Balanced t 1) (node : Node α) (box : Box α) (bound : α)
    (values : Array α) : (plan.explore s node box bound values).Balanced t := by
  have noted : Search.Balanced ((s.note (.nodeSolved node.number node.depth bound)).display plan
      (.node node.number node.depth bound s.stack.length)) t 1 := (h.note _).display _
  unfold explore
  simp only
  split_ifs with useless whole
  · exact noted.prunedByBound
  · exact noted.installed values
  · exact offer_balanced noted (by simpa using whole)

/-- Solving the relaxation of a node. -/
theorem visit_balanced (h : s.Balanced t 1) (node : Node α) : (plan.visit s node).Balanced t := by
  unfold visit
  simp only
  split
  · trivial
  next relaxed _ =>
    have counted (root : Option α) : Search.Balanced { s with
        stats := if node.depth = 0 then
            { (s.stats.onRelaxation relaxed.iterations).onExplored node.depth with
              rootObjective := root }
          else (s.stats.onRelaxation relaxed.iterations).onExplored node.depth } t 1 := by
      split
      · exact h.explored _ _ _
      · exact h.explored _ _ s.stats.rootObjective
    split
    · exact (counted _).prunedInfeasible.note _
    · exact finish_unbounded_balanced (counted _)
    · exact explore_balanced (counted _) _ _ _ _

/-- Taking the next open node. -/
theorem advance_balanced (h : s.Balanced t 0) : (plan.advance s).Balanced t := by
  unfold advance
  split
  next empty => exact finish_explored_balanced h empty
  next node rest stack_eq =>
    have popped (m : Monitor Unit) : Search.Balanced { s with stack := rest, monitor := m } t 1 :=
      h.moved rfl (by rw [stack_eq]; rfl)
    split
    · exact (popped s.monitor).prunedByBound
    · simp only
      split
      · exact stopAt_balanced (popped _) node (isAborted_ofStop _)
      · exact visit_balanced (popped _) node

/-- Going on from a decision point. -/
theorem resolve_balanced {d : Decision α} (h : d.search.Balanced t 1)
    (fractional : d.focus.candidates ≠ []) (reply : Attempt (SolverError α) Choice) :
    (plan.resolve d reply).Balanced t := by
  cases reply with
  | error cause => trivial
  | ok choice =>
    show (plan.answer d choice).Balanced t
    unfold answer
    split_ifs
    · trivial
    · exact stopAt_balanced h _ rfl
    · split
      · trivial
      · unfold settle
        simp only
        split
        · exact stopAt_balanced h _ (isAborted_ofStop _)
        · split_ifs
          · exact h.prunedByBound
          · split
            · exact offerBranching_balanced h fractional
            · split
              · exact h.split _ _
              · exact h.splitByRule fractional

/-- A whole run adds to the tally what the trials on the way came to. -/
theorem drive_balanced {κ : Type} {handler : Handler α κ}
    {acts : Plan α → Decision α → κ → List (Act α)} (performs : handler.Performs acts)
    (turns : Nat) {turn : Turn α} (k : κ) (h : turn.Balanced t) :
    (plan.drive handler turns turn k).1.Balanced (t + plan.tally handler acts turns turn k) := by
  induction turns generalizing turn t k with
  | zero => exact h
  | succ turns ih =>
    cases turn with
    | proceed s => exact ih k (advance_balanced h)
    | ask d =>
      obtain ⟨balanced, fractional⟩ := h
      have same : (handler plan d k).2.1.focus = d.focus :=
        (Handler.confined_iff.mpr ⟨acts, performs⟩ plan d k).samePoint.focus
      have performed : (handler plan d k).2.1.search.Balanced
          (t + d.tally plan (acts plan d k)) 1 := by
        rw [performs plan d k]
        exact Decision.perform_balanced balanced (acts plan d k)
      have resolved : (plan.resolve (handler plan d k).2.1 (handler plan d k).1).Balanced
          (t + d.tally plan (acts plan d k)) := resolve_balanced performed (same ▸ fractional) _
      rw [tally, ← Tally.add_assoc]
      exact ih _ resolved
    | ended status dual s => exact h
    | failed cause s => exact h

omit [Scalar α] in
/-- A search starts with the root and nothing counted. -/
theorem start_balanced (plan : Plan α) (incumbent : Option (Solution α)) (interrupted : Bool) :
    (Search.start plan {} incumbent interrupted).Balanced {} 0 := by
  unfold Search.start
  have begun (s : Search α) (stats_eq : s.stats = {}) (one : s.stack.length = 1) :
      s.Balanced {} 0 := ⟨{}, stats_eq, by rw [one]; exact ⟨rfl, rfl⟩⟩
  exact ((begun _ rfl rfl).note _).display _

/-- No node is lost and none is counted twice. When a search ends with a status, then one node more
than there were branchings was dropped as infeasible, dropped for its bound, installed other than by
a trial, is still open, or is the one that was found to be unbounded; none is open after a proof. Every
relaxation was that of an explored node or of a trial. The counters show this as long as they have
not stopped. -/
theorem nodes_conserved (plan : Plan α) {κ : Type} {handler : Handler α κ}
    (confined : handler.Confined) (incumbent : Option (Solution α)) (interrupted : Bool)
    (turns : Nat) {first last : κ} {status : SolveStatus} {dual : Extended α} {s : Search α}
    (run : plan.drive handler turns (.proceed (Search.start plan {} incumbent interrupted)) first =
      (.ended status dual s, last)) :
    (∃ acts, handler.Performs acts) ∧ ∀ acts, handler.Performs acts →
      let trials := plan.tally handler acts turns
        (.proceed (Search.start plan {} incumbent interrupted)) first
      let left := s.stack.length + if status = .unbounded then 1 else 0
      (∃ c : Statistics α, s.stats = c.capped ∧ c.Balanced trials left ∧
        (c.Fits → s.stats.Balanced trials left)) ∧
      (status = .optimal ∨ status = .infeasible → s.stack = []) := by
  refine ⟨Handler.confined_iff.mp confined, fun acts performs => ?_⟩
  have started : (Turn.proceed (Search.start plan {} incumbent interrupted)).Balanced {} :=
    start_balanced plan incumbent interrupted
  have balanced : (plan.drive handler turns
      (.proceed (Search.start plan {} incumbent interrupted)) first).1.Balanced
        ({} + plan.tally handler acts turns
          (.proceed (Search.start plan {} incumbent interrupted)) first) :=
    drive_balanced performs turns first started
  rw [run, Tally.zero_add] at balanced
  obtain ⟨⟨c, shown, counted⟩, empty⟩ := balanced
  exact ⟨⟨c, shown, counted, fun fits => by rwa [shown, fits.capped_eq]⟩, empty⟩

end Plan

/-- The search of the freight with a callback at each node and a limit of one second, of which each node
takes fifteen hundredths. -/
def Plan.attended : Plan Rat :=
  .ofSettings .freight { Settings.millionth with timeLimit := some ⟨10 ^ 9⟩ }
    (some ⟨false, some {}⟩) (.perNode (15 * 10 ^ 7))

/-- A callback tries the same load at every node until the search runs out of time with two nodes open.
The relaxation of two of these trials is solved, one of them is accepted, and the nodes and relaxations
are all accounted for. -/
theorem Plan.attended_conserved : ∃ s,
    Plan.attended.drive (Handler.trying [(0, 2), (1, 1)]) 60
      (.proceed (Search.start Plan.attended {} none false)) () =
        (.ended .timeLimit (.fin (209 / 10)) s, ()) ∧
    s.stack.length = 2 ∧ s.stats.Balanced ⟨2, 1⟩ 2 ∧ s.stats.branchings = 4 := by
  let start : Turn Rat := .proceed (Search.start Plan.attended {} none false)
  have shown : (Plan.attended.drive (Handler.trying [(0, 2), (1, 1)]) 60 start ()).1.endsWith
      .timeLimit (.fin (209 / 10)) = true := by decide +kernel
  have trials : Plan.attended.tally (Handler.trying [(0, 2), (1, 1)])
      (fun _ _ _ => [.attempt [(0, 2), (1, 1)]]) 60 start () = ⟨2, 1⟩ := by decide +kernel
  have counters : let s := (Plan.attended.drive (Handler.trying [(0, 2), (1, 1)]) 60 start ()).1.search
      [s.stack.length, s.stats.nodesExplored, s.stats.branchings, s.stats.prunedInfeasible,
        s.stats.prunedByBound, s.stats.solutionsFound, s.stats.relaxationsSolved] =
          [2, 7, 4, 1, 0, 3, 9] := by
    decide +kernel
  generalize run : Plan.attended.drive (Handler.trying [(0, 2), (1, 1)]) 60 start () = final
    at shown counters
  obtain ⟨turn, memory⟩ := final
  obtain ⟨s, rfl⟩ := Turn.exists_ended shown
  obtain ⟨opened, listed⟩ : s.stack.length = 2 ∧ [s.stats.nodesExplored, s.stats.branchings,
      s.stats.prunedInfeasible, s.stats.prunedByBound, s.stats.solutionsFound,
      s.stats.relaxationsSolved] = [7, 4, 1, 0, 3, 9] := List.cons.inj counters
  have performs := Handler.trying_performs (α := Rat) [(0, 2), (1, 1)]
  obtain ⟨-, conserved⟩ := Plan.nodes_conserved Plan.attended
    (Handler.confined_iff.mpr ⟨_, performs⟩) none false 60 run
  obtain ⟨⟨c, capped, -, balanced⟩, -⟩ := conserved _ performs
  have fits : c.Fits := by
    apply Statistics.fits_of_capped
    rw [← capped, listed]
    decide
  refine ⟨s, rfl, opened, ?_, ?_⟩
  · have left := balanced fits
    rw [trials, opened] at left
    exact left
  · injection listed with _ rest
    injection rest

end Milp
