import Milp.Model
import Milp.Proofs.Search.Unrounded

/-!
# The dual bound

The dual bound is folded over the bounds of the parents of the open nodes. In an exact search it is
valid at every decision point, and it never weakens from one to the next, because no child promises
more than its parent (`Plan.dualBound_valid`). At the end it is valid as well if the search was not
unbounded (`Model.dualBound_closed`); an unbounded search leaves the primal bound instead, which
promises too little (`Model.downhill_missed`).

`Focus.Bounded` is what is known of the bounds at a decision point, measured against an earlier dual
bound; `Turn.Bounded` restates it for every turn. The lemmas follow the steps of the search.
-/

namespace Milp

/-! ### Folding bounds over the open nodes -/

namespace Search

variable {s : Search Rat} {sense : Sense} {bound D : Extended Rat}

/-- What promises as much as a bound and as all open nodes promises as much as the weakest. -/
theorem promises_weakestBound (own : sense.Promises D bound)
    (nodes : ∀ n ∈ s.stack, sense.Promises D n.parentBound) :
    sense.Promises D (s.weakestBound sense bound) := by
  unfold weakestBound
  revert nodes
  induction s.stack with
  | nil =>
    intro _
    exact own
  | cons n rest ih =>
    intro nodes
    have folded := ih fun m hm => nodes m (List.mem_cons_of_mem n hm)
    exact folded.weaker (nodes n List.mem_cons_self)

/-- The weakest of defined bounds promises as much as each of them. -/
theorem weakestBound_promises (own : bound ≠ .undefined)
    (nodes : ∀ n ∈ s.stack, n.parentBound ≠ .undefined) :
    sense.Promises (s.weakestBound sense bound) bound ∧
      ∀ n ∈ s.stack, sense.Promises (s.weakestBound sense bound) n.parentBound := by
  unfold weakestBound
  revert nodes
  induction s.stack with
  | nil =>
    intro _
    exact ⟨.refl own, nofun⟩
  | cons n rest ih =>
    intro nodes
    obtain ⟨first, others⟩ := ih fun m hm => nodes m (List.mem_cons_of_mem n hm)
    obtain ⟨rest_le, own_le⟩ :=
      Sense.weaker_promises (s := sense) first.left_defined (nodes n List.mem_cons_self)
    refine ⟨rest_le.trans first, fun m hm => ?_⟩
    rcases List.mem_cons.mp hm with rfl | hm
    · exact own_le
    · exact rest_le.trans (others m hm)

end Search

namespace Problem

variable {p : Problem Rat} {incumbent : Option (Solution Rat)} {D : Extended Rat}

/-- The primal bound is defined. -/
theorem primalBound_defined (p : Problem Rat) (incumbent : Option (Solution Rat)) :
    p.primalBound incumbent ≠ .undefined := by
  cases incumbent with
  | none => rw [primalBound]; cases p.sense <;> exact nofun
  | some best => exact nofun

/-- Whether a bound is valid: no feasible point is better than it says. -/
def Valid (p : Problem Rat) (D : Extended Rat) : Prop :=
  ∀ x, p.isFeasible x 0 = true → p.sense.Promises D (.fin (p.objectiveValue x))

/-- A bound is valid if it promises as much as the incumbent and as the points of the open nodes. -/
theorem Covers.valid {nodes : List (Node Rat)} (covers : p.Covers incumbent nodes)
    (primal : p.sense.Promises D (p.primalBound incumbent))
    (open_ : ∀ n ∈ nodes, ∀ x, p.Admits (n.box p) n.rows x →
      p.sense.Promises D (.fin (p.objectiveValue x))) : p.Valid D := by
  intro x feasible
  rcases covers.covered x ((p.isFeasible_zero_iff x).mp feasible) with
    ⟨best, ⟨⟩, matched⟩ | ⟨n, hn, admits⟩
  · exact primal.trans ((p.sense.promises_fin _ _).mpr matched)
  · exact open_ n hn x admits

/-- A bound that promises as much as the parents of the nodes promises as much as their points. -/
theorem Covers.promises_of_parents {nodes : List (Node Rat)} (covers : p.Covers incumbent nodes)
    (parents : ∀ n ∈ nodes, p.sense.Promises D n.parentBound) :
    ∀ n ∈ nodes, ∀ x, p.Admits (n.box p) n.rows x →
      p.sense.Promises D (.fin (p.objectiveValue x)) :=
  fun n hn x admits => (parents n hn).trans ((covers.sound n hn).bounds x admits).promises

/-- A value that can improve promises as much as the incumbent. -/
theorem promises_of_canImprove {a : Rat}
    (improves : p.canImprove (Scalar.extend a) incumbent 0 = true) :
    p.sense.Promises (Scalar.extend a) (p.primalBound incumbent) := by
  cases incumbent with
  | none => exact Sense.promises_worst nofun
  | some best => exact Sense.promises_of_isBetter improves

end Problem

/-! ### The invariant -/

/-- What is known of the bounds where a node is in hand. None of the open nodes promises more than
`D`, and neither does the node in hand; its own bound is still ahead of the incumbent. -/
structure Focus.Bounded (plan : Plan Rat) (D : Extended Rat) (s : Search Rat) (f : Focus Rat) :
    Prop where
  stack : ∀ n ∈ s.stack, plan.problem.sense.Promises D n.parentBound
  inHand : plan.problem.sense.Promises D (Scalar.extend f.bound)
  parent : f.node.parentBound ≠ .undefined
  dual_eq : f.dualBound = s.weakestBound plan.problem.sense (Scalar.extend f.bound)
  ahead : plan.problem.sense.Promises (Scalar.extend f.bound) (plan.problem.primalBound s.incumbent)

/-- Whether nothing that is still to come at a turn promises more than `D`. At the end the dual bound
that is left promises as much as the primal bound and is valid, unless the search was unbounded. -/
def Turn.Bounded (plan : Plan Rat) (D : Extended Rat) : Turn Rat → Prop
  | .proceed s => ∀ n ∈ s.stack, plan.problem.sense.Promises D n.parentBound
  | .ask d => d.focus.Bounded plan D d.search
  | .ended status dual s =>
    plan.problem.sense.Promises dual (plan.problem.primalBound s.incumbent) ∧
      (status = .unbounded → dual = plan.problem.primalBound s.incumbent) ∧
        (status ≠ .unbounded → plan.problem.Valid dual)
  | .failed _ _ => True

namespace Focus.Bounded

variable {plan : Plan Rat} {D : Extended Rat} {s : Search Rat} {f : Focus Rat}

/-- The dual bound at a decision point promises as much as everything that is open there. -/
theorem weakest (h : f.Bounded plan D s) :
    plan.problem.sense.Promises f.dualBound (Scalar.extend f.bound) ∧
      ∀ n ∈ s.stack, plan.problem.sense.Promises f.dualBound n.parentBound := by
  rw [h.dual_eq]
  exact Search.weakestBound_promises nofun fun n hn => (h.stack n hn).right_defined

/-- An earlier bound promises as much as the dual bound. -/
theorem earlier (h : f.Bounded plan D s) : plan.problem.sense.Promises D f.dualBound := by
  rw [h.dual_eq]
  exact Search.promises_weakestBound h.inHand h.stack

/-- What comes later is measured against the dual bound. -/
theorem rebase (h : f.Bounded plan D s) : f.Bounded plan f.dualBound s where
  stack := h.weakest.2
  inHand := h.weakest.1
  parent := h.parent
  dual_eq := h.dual_eq
  ahead := h.ahead

/-- The dual bound at a decision point promises as much as the primal bound. -/
theorem promises_primal (h : f.Bounded plan D s) :
    plan.problem.sense.Promises f.dualBound (plan.problem.primalBound s.incumbent) :=
  h.weakest.1.trans h.ahead

/-- The dual bound at a decision point is valid. -/
theorem valid (h : f.Bounded plan D s) (sound : f.Sound plan.problem)
    (covers : plan.problem.Covers s.incumbent (f.node :: s.stack)) :
    plan.problem.Valid f.dualBound := by
  obtain ⟨own, others⟩ := h.weakest
  apply covers.valid h.promises_primal
  intro n hn x admits
  rcases List.mem_cons.mp hn with rfl | hn
  · have below := sound.unbeaten x (sound.box_eq ▸ admits)
    exact own.trans ((plan.problem.sense.promises_fin _ _).mpr below)
  · exact (others n hn).trans ((covers.sound n (List.mem_cons_of_mem _ hn)).bounds x admits).promises

/-- A split leaves children that promise no more than their parent. -/
theorem split (h : f.Bounded plan D s) (split : Split Rat) :
    (Turn.proceed (plan.split s f split)).Bounded plan D := by
  have pushed (s' : Search Rat) (same : s'.stack = s.stack) {down up : Node Rat}
      (hdown : down.parentBound = Scalar.extend f.bound)
      (hup : up.parentBound = Scalar.extend f.bound) :
      ∀ n ∈ (plan.pushChildren s' down up).stack,
        plan.problem.sense.Promises D n.parentBound := by
    obtain ⟨children, stack_eq, mem⟩ := plan.pushChildren_stack s' down up
    rw [stack_eq, same]
    intro n hn
    rcases List.mem_append.mp hn with hn | hn
    · rcases (mem n).mp hn with rfl | rfl
      · exact hdown ▸ h.inHand
      · exact hup ▸ h.inHand
    · exact h.stack n hn
  cases split with
  | onVariable v => exact pushed s rfl rfl rfl
  | onSum vs sum => exact pushed s rfl rfl rfl

/-- So does a split by the rule of the settings. -/
theorem splitByRule (h : f.Bounded plan D s) :
    (Turn.proceed (plan.splitByRule s f)).Bounded plan D := by
  unfold Plan.splitByRule
  simp only
  split
  · exact h.stack
  next v selected =>
    have drawn : f.Bounded plan D { s with
        engine := (plan.settings.rule.select f.candidates f.values plan.rank s.engine).2 } :=
      ⟨h.stack, h.inHand, h.parent, h.dual_eq, h.ahead⟩
    exact drawn.split (.onVariable v)

/-- Waiting at a decision point leaves the bounds as they are. -/
theorem askAt (h : f.Bounded plan D s) (point : DecisionPoint) :
    (Turn.askAt s f point).Bounded plan D := ⟨h.stack, h.inHand, h.parent, h.dual_eq, h.ahead⟩

/-- Going on behind the heuristic point. -/
theorem offerBranching (h : f.Bounded plan D s) : (plan.offerBranching s f).Bounded plan D := by
  unfold Plan.offerBranching
  split
  · exact h.askAt .branching
  · exact h.splitByRule

/-- Going on with a solved node. -/
theorem offer (h : f.Bounded plan D s) : (plan.offer s f).Bounded plan D := by
  unfold Plan.offer
  split
  · exact h.askAt .heuristic
  · exact h.offerBranching

end Focus.Bounded

namespace Plan

variable {plan : Plan Rat} {D : Extended Rat} {s : Search Rat}

/-! ### The end of a search -/

/-- Once every node is explored, the primal bound is valid. -/
theorem finish_explored_bounded (covers : plan.problem.Covers s.incumbent []) :
    (plan.finish s .explored).Bounded plan D := by
  have defined := plan.problem.primalBound_defined s.incumbent
  unfold finish
  simp only [Turn.Bounded, Search.display_incumbent, Search.note_incumbent, implies_true, true_and]
  refine ⟨.refl defined, fun _ => ?_⟩
  exact covers.valid (.refl defined) nofun

/-- An unbounded search leaves the primal bound. -/
theorem finish_unbounded_bounded (plan : Plan Rat) (D : Extended Rat) (s : Search Rat) :
    (plan.finish s .unbounded).Bounded plan D := by
  unfold finish
  simp only [Turn.Bounded, Search.display_incumbent, Search.note_incumbent, implies_true, true_and]
  exact ⟨.refl (plan.problem.primalBound_defined s.incumbent), fun h => absurd rfl h⟩

/-- A search that is stopped leaves a bound that promises as much as every open node, the one in hand
included. -/
theorem stopAt_bounded {node : Node Rat} (covers : plan.problem.Covers s.incumbent (node :: s.stack))
    (defined : ∀ n ∈ node :: s.stack, n.parentBound ≠ .undefined) {status : SolveStatus}
    (bounded : status ≠ .unbounded) : (plan.stopAt s node status).Bounded plan D := by
  have primal := plan.problem.primalBound_defined s.incumbent
  unfold stopAt finish
  simp only [Turn.Bounded, Search.display_incumbent, Search.note_incumbent]
  generalize stopped : ({ s with
    stack := node :: s.stack, monitor := s.monitor.after .exited } : Search Rat) = s'
  have stack_eq : s'.stack = node :: s.stack := by rw [← stopped]
  rw [← stack_eq] at covers defined
  obtain ⟨own, parents⟩ := Search.weakestBound_promises primal defined
  refine ⟨own, fun h => absurd h bounded, fun _ => ?_⟩
  exact covers.valid own (covers.promises_of_parents parents)

/-- No reason to stop is that the problem is unbounded. -/
theorem ofStop_ne_unbounded (reason : StopReason) : SolveStatus.ofStop reason ≠ .unbounded := by
  cases reason <;> exact nofun

/-! ### A step from an open node -/

/-- Going on with the optimum of a node's relaxation, which promises no more than the node's
parent. -/
theorem explore_bounded (zero : plan.tolerance = 0) {node : Node Rat} {box : Box Rat} {bound : Rat}
    {values : Array Rat} (sound : node.Sound plan.problem) (box_eq : box = node.box plan.problem)
    (answers : plan.problem.Answers box node.rows (.optimal bound values))
    (own : plan.problem.sense.Promises D node.parentBound)
    (h : (Turn.proceed s).Bounded plan D) :
    (plan.explore s node box bound values).Bounded plan D := by
  obtain ⟨admits, bound_eq, -⟩ := answers
  have within : plan.problem.sense.Promises node.parentBound (Scalar.extend bound) := by
    rw [bound_eq]
    exact (sound.bounds values (box_eq ▸ admits)).promises
  unfold explore
  simp only [zero]
  -- what is written into the journal does not matter
  generalize shown : (s.note (.nodeSolved node.number node.depth bound)).display plan
    (.node node.number node.depth bound s.stack.length) = s'
  have stack_eq : s'.stack = s.stack := by rw [← shown]; simp
  have open_ : ∀ n ∈ s'.stack, plan.problem.sense.Promises D n.parentBound := stack_eq ▸ h
  split_ifs with useless whole
  · exact open_
  · exact open_
  · have improves : plan.problem.canImprove (Scalar.extend bound) s'.incumbent 0 = true := by
      simpa using useless
    apply Focus.Bounded.offer
    exact ⟨open_, own.trans within, within.left_defined, rfl,
      Problem.promises_of_canImprove improves⟩

/-- Solving the relaxation of a node. -/
theorem visit_bounded (exact : plan.Exact) {node : Node Rat} (sound : node.Sound plan.problem)
    (own : plan.problem.sense.Promises D node.parentBound)
    (h : (Turn.proceed s).Bounded plan D) : (plan.visit s node).Bounded plan D := by
  unfold visit
  simp only
  split
  · trivial
  next relaxed answered =>
    have answers := exact.answers _ _ _ sound.subproblem answered
    split
    next => exact h
    next => exact finish_unbounded_bounded plan D _
    next bound values optimal =>
      rw [optimal] at answers
      apply explore_bounded exact.zero sound rfl answers own
      exact h

/-- Taking the next open node. -/
theorem advance_bounded (exact : plan.Exact) (covers : (Turn.proceed s).Sound plan.problem)
    (h : (Turn.proceed s).Bounded plan D) : (plan.advance s).Bounded plan D := by
  simp only [Turn.Sound] at covers
  simp only [Turn.Bounded] at h
  unfold advance
  split
  next empty =>
    rw [empty] at covers
    exact finish_explored_bounded covers
  next node rest nonempty =>
    rw [nonempty] at covers h
    obtain ⟨own, others⟩ := List.forall_mem_cons.mp h
    split
    · exact others
    · simp only
      split
      next reason _ =>
        apply stopAt_bounded covers _ (ofStop_ne_unbounded reason)
        exact fun n hn => (h n hn).right_defined
      next =>
        apply visit_bounded exact (covers.sound node List.mem_cons_self) own
        exact others

/-! ### A step from a decision point -/

/-- A stop at a decision point leaves the node in hand open. -/
theorem stop_bounded {d : Decision Rat} (sound : (Turn.ask d).Sound plan.problem)
    (h : (Turn.ask d).Bounded plan D) {status : SolveStatus} (bounded : status ≠ .unbounded) :
    (plan.stopAt d.search d.focus.node status).Bounded plan D := by
  apply stopAt_bounded sound.1 _ bounded
  intro n hn
  rcases List.mem_cons.mp hn with rfl | hn
  · exact Focus.Bounded.parent h
  · exact (Focus.Bounded.stack h n hn).right_defined

/-- Going on with the choice made at a decision point. -/
theorem answer_bounded (exact : plan.Exact) {d : Decision Rat}
    (sound : (Turn.ask d).Sound plan.problem) (h : (Turn.ask d).Bounded plan D) (choice : Choice) :
    (plan.answer d choice).Bounded plan D := by
  have bounded : d.focus.Bounded plan D d.search := h
  unfold answer
  split_ifs
  · trivial
  · exact stop_bounded sound h nofun
  · split
    · trivial
    next split? _ =>
      unfold settle
      simp only [exact.zero]
      split
      next reason _ => exact stop_bounded sound h (ofStop_ne_unbounded reason)
      next =>
        split
        · exact bounded.stack
        · split
          · exact bounded.offerBranching
          · split
            · exact bounded.split _
            · exact bounded.splitByRule

/-- A trial that is accepted finds a point of the node in hand, so the node's bound stays ahead of
the incumbent. -/
theorem reaches_bounded (exact : plan.Exact) {d e : Decision Rat}
    (sound : (Turn.ask d).Sound plan.problem) (h : (Turn.ask d).Bounded plan D)
    (reaches : d.Reaches plan e) : (Turn.ask e).Bounded plan D := by
  induction reaches with
  | refl => exact h
  | interrupt _ ih =>
    have bounded : Focus.Bounded plan D _ _ := ih
    exact ⟨bounded.stack, bounded.inHand, bounded.parent, bounded.dual_eq, bounded.ahead⟩
  | @trial e assignment reaches ih =>
    obtain ⟨covers, hf⟩ := reaches_sound exact sound reaches
    have bounded : e.focus.Bounded plan D e.search := ih
    have same := Decision.samePoint_tryAssignment plan e assignment
    simp only [Turn.Bounded, same.focus]
    refine ⟨same.stack ▸ bounded.stack, bounded.inHand, bounded.parent, ?_, ?_⟩
    · rw [bounded.dual_eq, Search.weakestBound, Search.weakestBound, same.stack]
    · rcases Decision.tryAssignment_incumbent plan e assignment with unchanged | ⟨values, found, new⟩
      · rw [unchanged]
        exact bounded.ahead
      · obtain ⟨admits, whole, -⟩ :=
          exact.admits_of_accepts (covers.sound _ List.mem_cons_self) hf found
        rw [new, Problem.roundedSolution_eq whole]
        exact (plan.problem.sense.promises_fin _ _).mpr (hf.unbeaten values admits)

/-! ### A whole run -/

/-- The start of a search. -/
theorem start_bounded (plan : Plan Rat) (stats : Statistics Rat) (interrupted : Bool) :
    (Turn.proceed (Search.start plan stats none interrupted)).Bounded plan
      plan.problem.sense.best := by
  intro n hn
  simp only [Search.start, Search.display_stack, Search.note_stack] at hn
  rw [List.mem_singleton.mp hn]
  have defined : plan.problem.sense.best ≠ (.undefined : Extended Rat) := by
    cases plan.problem.sense <;> exact nofun
  exact .refl defined

/-- A run keeps what is to come within the bound. -/
theorem drive_bounded (exact : plan.Exact) {κ : Type} {handler : Handler Rat κ}
    (confined : handler.Confined) (turns : Nat) {turn : Turn Rat} (k : κ)
    (sound : turn.Sound plan.problem) (h : turn.Bounded plan D) :
    (plan.drive handler turns turn k).1.Bounded plan D := by
  induction turns generalizing turn k with
  | zero => exact h
  | succ turns ih =>
    cases turn with
    | proceed s => exact ih k (advance_sound exact sound) (advance_bounded exact sound h)
    | ask d =>
      have reached := reaches_sound exact sound (confined plan d k)
      have bounded := reaches_bounded exact sound h (confined plan d k)
      simp only [drive]
      cases reply : (handler plan d k).1 with
      | ok choice =>
        exact ih _ (answer_sound exact reached choice) (answer_bounded exact reached bounded choice)
      | error cause => exact ih _ trivial trivial
    | ended status dual s => exact h
    | failed cause s => exact h

/-- The dual bound that is shown at a decision point of an exact search is valid and promises as much
as the primal bound, also after any trials that the callback makes there; and it promises as much as
the dual bound of every later decision point. -/
theorem dualBound_valid (exact : plan.Exact) {κ : Type} {handler : Handler Rat κ}
    (confined : handler.Confined) (stats : Statistics Rat) (interrupted : Bool) (turns : Nat)
    {first k : κ} {d : Decision Rat}
    (run : plan.drive handler turns (.proceed (Search.start plan stats none interrupted)) first =
      (.ask d, k)) :
    (∀ e, d.Reaches plan e →
      (∀ x, plan.problem.isFeasible x 0 = true → plan.problem.sense.Promises
        (e.snapshot plan).dualBound (.fin (plan.problem.objectiveValue x))) ∧
      plan.problem.sense.Promises (e.snapshot plan).dualBound (e.snapshot plan).primalBound) ∧
    ∀ more k' e, plan.drive handler more (.ask d) k = (.ask e, k') →
      plan.problem.sense.Promises (d.snapshot plan).dualBound (e.snapshot plan).dualBound := by
  have sound := drive_sound exact confined turns first (plan.start_sound stats interrupted)
  have bounded := drive_bounded exact confined turns first (plan.start_sound stats interrupted)
    (start_bounded plan stats interrupted)
  rw [run] at sound bounded
  refine ⟨fun e reaches => ?_, fun more k' e later => ?_⟩
  · obtain ⟨covers, hf⟩ := reaches_sound exact sound reaches
    have bounded : e.focus.Bounded plan _ e.search := reaches_bounded exact sound bounded reaches
    exact ⟨bounded.valid hf covers, bounded.promises_primal⟩
  · have rebased : (Turn.ask d).Bounded plan d.focus.dualBound := Focus.Bounded.rebase bounded
    have kept := drive_bounded exact confined more k sound rebased
    rw [later] at kept
    exact Focus.Bounded.earlier kept

end Plan

/-! ### Decision points of a search -/

/-- Maximise the value of a load under limits of weight and room. -/
def Problem.crate : Problem Rat where
  name := "crate"
  sense := .maximize
  vars := #[⟨"x", .integer, 5, 0, .fin 5⟩, ⟨"y", .integer, 4, 0, .fin 5⟩]
  constraints := #[⟨⟨[(0, 6), (1, 4)], .lessEqual, 23⟩, "weight"⟩,
    ⟨⟨[(0, 2), (1, 3)], .lessEqual, 12⟩, "room"⟩]

/-- The search of the problem that asks for every decision. -/
def Plan.crate : Plan Rat := .unrounded .crate Plan.halved.settings (some ⟨true, some {}⟩)

/-- Nothing is lost to rounding in this search. -/
theorem Plan.crate_exact : Plan.crate.Exact := by
  apply Plan.unrounded_exact
  decide

/-- Whether a search waits at a node with the given dual bound. -/
def Turn.waitsAt (number : Nat) (dual : Rat) : Turn Rat → Bool
  | .ask d => d.focus.node.number == number && d.focus.dualBound == .fin dual
  | _ => false

/-- A search that waits is at a decision point. -/
theorem Turn.exists_ask {number : Nat} {dual : Rat} {turn : Turn Rat}
    (h : turn.waitsAt number dual = true) :
    ∃ d, turn = .ask d ∧ d.focus.node.number = number ∧ d.focus.dualBound = .fin dual := by
  cases turn with
  | ask d =>
    rw [waitsAt, Bool.and_eq_true, beq_iff_eq, beq_iff_eq] at h
    exact ⟨d, rfl, h⟩
  | _ => cases h

/-- At node five the search promises `20.9`, which no feasible point beats; four decisions later
it promises `19.5`. -/
theorem Plan.crate_bounded : ∃ d e : Decision Rat,
    Plan.crate.drive Handler.passive 8 (.proceed (Search.start Plan.crate {} none false)) () =
      (.ask d, ()) ∧
    (d.snapshot Plan.crate).dualBound = .fin (209 / 10) ∧
    (∀ x, Problem.crate.isFeasible x 0 = true →
      ¬ Sense.maximize.Better (Problem.crate.objectiveValue x) (209 / 10)) ∧
    Plan.crate.drive Handler.passive 9 (.ask d) () = (.ask e, ()) ∧
    (e.snapshot Plan.crate).dualBound = .fin (39 / 2) ∧
    Sense.maximize.Promises (d.snapshot Plan.crate).dualBound (e.snapshot Plan.crate).dualBound := by
  have early : (Plan.crate.drive Handler.passive 8
      (.proceed (Search.start Plan.crate {} none false)) ()).1.waitsAt 5 (209 / 10) = true := by
    decide +kernel
  have late : (Plan.crate.drive Handler.passive 9 (Plan.crate.drive Handler.passive 8
      (.proceed (Search.start Plan.crate {} none false)) ()).1 ()).1.waitsAt 3 (39 / 2) = true := by
    decide +kernel
  generalize run : Plan.crate.drive Handler.passive 8
    (.proceed (Search.start Plan.crate {} none false)) () = waiting at early late
  obtain ⟨turn, memory⟩ := waiting
  obtain ⟨d, rfl, -, dual⟩ := Turn.exists_ask early
  generalize more : Plan.crate.drive Handler.passive 9 (.ask d) () = waiting at late
  obtain ⟨turn', memory'⟩ := waiting
  obtain ⟨e, rfl, -, dual'⟩ := Turn.exists_ask late
  obtain ⟨here, later⟩ := Plan.dualBound_valid Plan.crate_exact Handler.passive_confined {} false 8 run
  refine ⟨d, e, rfl, dual, fun x feasible => ?_, more, dual', later 9 () e more⟩
  have promised := (here d .refl).1 x feasible
  rw [show (d.snapshot Plan.crate).dualBound = .fin (209 / 10) from dual] at promised
  exact (Sense.promises_fin _ _ _).mp promised

/-! ### The end of a search -/

/-- The dual bound that an exact search leaves in its model promises as much as the primal bound. It
is valid for every status but that of an unbounded search, which leaves the primal bound. -/
theorem Model.dualBound_closed {plan : Plan Rat} (exact : plan.Exact) {κ : Type}
    {handler : Handler Rat κ} (confined : handler.Confined) (stats : Statistics Rat)
    (interrupted : Bool) (turns : Nat) {first last : κ} {status : SolveStatus}
    {dual : Extended Rat} {s : Search Rat}
    (run : plan.drive handler turns (.proceed (Search.start plan stats none interrupted)) first =
      (.ended status dual s, last)) {m : Model Rat} (same : m.problem = plan.problem) :
    let shown := (m.close (.ended status dual s)).1.snapshot
    m.problem.sense.Promises shown.dualBound shown.primalBound ∧
      (shown.status = .unbounded → shown.dualBound = shown.primalBound) ∧
      (shown.status ≠ .unbounded → ∀ x, m.problem.isFeasible x 0 = true →
        m.problem.sense.Promises shown.dualBound (.fin (m.problem.objectiveValue x))) := by
  have bounded := Plan.drive_bounded exact confined turns first (plan.start_sound stats interrupted)
    (Plan.start_bounded plan stats interrupted)
  rw [run] at bounded
  rw [same]
  simp only [close, snapshot, Turn.search, same]
  exact bounded

/-- Whether a search has ended with a status and a dual bound. -/
def Turn.endsWith (status : SolveStatus) (dual : Extended Rat) : Turn Rat → Bool
  | .ended status' dual' _ => status' == status && dual' == dual
  | _ => false

/-- A search that has ended has a last state. -/
theorem Turn.exists_ended {status : SolveStatus} {dual : Extended Rat} {turn : Turn Rat}
    (h : turn.endsWith status dual = true) : ∃ s, turn = .ended status dual s := by
  cases turn with
  | ended status' dual' s =>
    rw [endsWith, Bool.and_eq_true, beq_iff_eq, beq_iff_eq] at h
    obtain ⟨rfl, rfl⟩ := h
    exact ⟨s, rfl⟩
  | _ => cases h

/-- The search of the problem with a limit of one second, of which each node takes a quarter. -/
def Plan.limited : Plan Rat :=
  .unrounded .crate { Plan.halved.settings with timeLimit := some ⟨10 ^ 9⟩ } none
    (.perNode (10 ^ 9 / 4))

/-- The search runs out of time after four nodes, and leaves a valid bound in its model. -/
theorem Plan.limited_closed : ∃ s,
    Plan.limited.drive Handler.passive 20 (.proceed (Search.start Plan.limited {} none false)) () =
      (.ended .timeLimit (.fin (209 / 10)) s, ()) ∧ s.stack ≠ [] ∧
    ∀ x, Problem.crate.isFeasible x 0 = true → Sense.maximize.Promises
      ((Model.ofProblem Problem.crate).close
        (.ended .timeLimit (.fin (209 / 10)) s)).1.snapshot.dualBound
      (.fin (Problem.crate.objectiveValue x)) := by
  have shown : (Plan.limited.drive Handler.passive 20
      (.proceed (Search.start Plan.limited {} none false)) ()).1.endsWith .timeLimit
        (.fin (209 / 10)) = true := by
    decide +kernel
  have opened : (Plan.limited.drive Handler.passive 20
      (.proceed (Search.start Plan.limited {} none false)) ()).1.search.stack.isEmpty = false := by
    decide +kernel
  generalize run : Plan.limited.drive Handler.passive 20
    (.proceed (Search.start Plan.limited {} none false)) () = last at shown opened
  obtain ⟨turn, memory⟩ := last
  obtain ⟨s, rfl⟩ := Turn.exists_ended shown
  have exact : Plan.limited.Exact := Plan.unrounded_exact (by decide) _ _ _
  have same : (Model.ofProblem Problem.crate).problem = Plan.limited.problem := rfl
  obtain ⟨-, -, valid⟩ := Model.dualBound_closed exact Handler.passive_confined {} false 20 run same
  exact ⟨s, rfl, by simpa [Turn.search] using opened, valid nofun⟩

/-- Minimise the negative of a whole number. -/
def Problem.downhill : Problem Rat where
  name := "downhill"
  vars := #[⟨"x", .integer, -1, 0, .posInf⟩]

/-- The exact search of it. -/
def Plan.downhill : Plan Rat := .unrounded .downhill Plan.halved.settings none

/-- The search is unbounded and leaves a bound that a feasible point beats. -/
theorem Model.downhill_missed : Plan.downhill.Exact ∧ ∃ s,
    Plan.downhill.drive Handler.passive 5 (.proceed (Search.start Plan.downhill {} none false)) () =
      (.ended .unbounded .posInf s, ()) ∧
    Problem.downhill.isFeasible #[0] 0 = true ∧
    ¬ Sense.minimize.Promises
      ((Model.ofProblem Problem.downhill).close (.ended .unbounded .posInf s)).1.snapshot.dualBound
      (.fin (Problem.downhill.objectiveValue #[0])) := by
  refine ⟨Plan.unrounded_exact (by decide) _ _ _, ?_⟩
  have shown : (Plan.downhill.drive Handler.passive 5
      (.proceed (Search.start Plan.downhill {} none false)) ()).1.endsWith .unbounded .posInf =
        true := by
    decide +kernel
  generalize run : Plan.downhill.drive Handler.passive 5
    (.proceed (Search.start Plan.downhill {} none false)) () = last at shown
  obtain ⟨turn, memory⟩ := last
  obtain ⟨s, rfl⟩ := Turn.exists_ended shown
  refine ⟨s, rfl, by decide +kernel, ?_⟩
  exact Bool.false_ne_true

end Milp
