import Milp.Proofs.Episode.Calls
import Milp.Proofs.Episode.PrimalSearch
import Milp.Proofs.Search.Acts
import Milp.Proofs.Search.Limits
import Milp.Proofs.Search.Soundness

/-!
# Limits are exact

What limits say of a search holds of every episode of primal search (`PrimalSearchDynamics.order_upholds`):
after a trial the decision point is held only if no limit is met, so a trial finds at most the last
solution that the limit allows.

`Plan.limits_exact` puts together what is known of the limits of nodes and solutions.
-/

namespace Milp

variable {α : Type} [Scalar α] {settings : Settings α}

/-! ### The law of limits -/

/-- Whether counts are within the limits of settings. -/
def Settings.Permits (settings : Settings α) (explored found : Nat) : Prop :=
  (∀ n, settings.nodeLimit = some n → explored ≤ n) ∧
    ∀ l, settings.solutionLimit = some l → found ≤ l

/-- Whether a model is within the limits of settings, which it has if it is not solved yet. -/
structure Model.Permitted (settings : Settings α) (m : Model α) : Prop where
  counts : settings.Permits m.stats.nodesExplored m.stats.solutionsFound
  fresh : m.stage = .problem → m.stats.nodesExplored = 0 ∧ m.stats.solutionsFound = 0 ∧
    ∀ settings', Settings.read m.registry = .ok settings' → settings' = settings

/-- The law of the limits of settings. -/
def Law.limits (settings : Settings α) : Law α where
  turn plan turn := plan.settings = settings ∧ turn.Limited True plan
  model := Model.Permitted settings
  snapshot s := settings.Permits s.nodesExplored s.solutions

namespace Law

/-- A search at any turn is within the limits. -/
theorem limits_permits {plan : Plan α} {turn : Turn α} (h : (limits settings).turn plan turn) :
    settings.Permits turn.search.stats.nodesExplored turn.search.stats.solutionsFound := by
  obtain ⟨rfl, limited⟩ := h
  exact ⟨limited.withinNodes, limited.withinSolutions trivial⟩

/-- Any answer that leads on from within the limits. -/
theorem limits_resolve {plan : Plan α} {d : Decision α} (same : plan.settings = settings)
    (tracked : d.search.Tracked plan) (solutions : d.search.WithinSolutions plan)
    (reply : Attempt (SolverError α) Choice) : (limits settings).turn plan (plan.resolve d reply) :=
  ⟨same, Plan.resolve_limited tracked (fun _ => solutions) reply⟩

/-- The solver keeps to the limits. -/
theorem limits_kept (settings : Settings α) : (limits settings).Kept where
  opening {m plan turn} permitted entered := by
    obtain ⟨fresh, settings', read, rfl, rfl⟩ := Model.opening_entered entered
    obtain ⟨explored, found, same⟩ := permitted.fresh fresh
    exact ⟨same settings' read, Plan.start_limited _ explored found _ _⟩
  advance h := ⟨h.1, Plan.advance_limited h.2.1 h.2.2⟩
  leave h := limits_resolve h.1 h.2.2.1 h.2.2.2.within (.ok .didNotRun)
  interrupt h := limits_resolve h.1 h.2.2.1 h.2.2.2.within (.ok .interrupt)
  close {plan turn} h m := by
    have counts := limits_permits h
    cases turn with
    | proceed s => exact ⟨counts, nofun⟩
    | ask d => exact ⟨counts, nofun⟩
    | ended status dual s => exact ⟨counts, nofun⟩
    | failed cause s => cases cause <;> exact ⟨counts, nofun⟩
  hook h hooks := ⟨h.counts, h.fresh⟩
  decision h := limits_permits h
  atRest h := h.counts
  blank := ⟨fun n _ => Nat.zero_le n, fun l _ => Nat.zero_le l⟩

end Law

/-! ### Episodes of primal search -/

namespace PrimalSearchDynamics

variable {b : PrimalSearchDynamics} {s : EpisodeSession α}

/-- A trial keeps to the limits. The decision point is held only where the monitors let the search go
on. -/
theorem order_upholds (b : PrimalSearchDynamics) (a : PartialAssignment α) :
    (b.order a).Upholds (Law.limits settings) := by
  rintro action eq plan d k ⟨same, hooked, tracked, below⟩
  cases eq
  simp only
  -- the empty assignment is not tried at all
  generalize tried : (if a.vars.isEmpty = true then ((.ok none : Except (SolverError α) _), d)
    else ((d.tryAssignment plan (a.vars.zip a.values)).1.map some,
      (d.tryAssignment plan (a.vars.zip a.values)).2)) = trial
  have finds : d.search.Finds plan trial.2.search := by
    rw [← tried]
    split_ifs
    · exact .refl plan d.search
    · exact Decision.tryAssignment_finds plan d _
  have tracked' := finds.tracked tracked
  have within := finds.withinSolutions below
  cases trial.1 with
  | error e => exact ⟨same, tracked'.nodes, fun _ => within⟩
  | ok result =>
    simp only
    cases leaves : (b.isLastTrial || trial.2.isStopped plan) with
    | true => exact Law.limits_resolve same tracked' within (.ok trial.2.heuristicChoice)
    | false =>
      obtain ⟨timer, counts⟩ := tracked'.counted
      let now := plan.clock.deciding trial.2.search.stats.nodesExplored trial.2.point
        trial.2.search.stats.trials
      have proceeds : trial.2.search.commandAt now = .proceed := by
        have goesOn : trial.2.isStopped plan = false := (Bool.or_eq_false_iff.mp leaves).2
        have silent := (Bool.or_eq_false_iff.mp goesOn).2
        cases said : trial.2.search.commandAt now with
        | proceed => rfl
        | terminate reason =>
          rw [show trial.2.search.commandAt _ = .terminate reason from said] at silent
          cases silent
      obtain ⟨-, below'⟩ := Search.of_proceed counts proceeds
      exact ⟨same, hooked, tracked', below'⟩

/-- All episodes on a model that is not solved yet keep to the limits. -/
theorem comes_upholds {m : Model α} (h : m.Permitted settings)
    (comes : Dynamics.Comes m b s) : s.Upholds (Law.limits settings) :=
  comes.lasts onlyCalls (Session.lasting_upholds (Law.limits_kept settings)
    fun _ ⟨b, a, given⟩ => given ▸ order_upholds b a) h

end PrimalSearchDynamics

/-! ### Limits -/

/-- Limits are exact, in every search with whatever callback. No more nodes are explored than the limit
of nodes; where it ends a search, as many were explored, and an open node could still improve on the
incumbent. No more solutions are found than the limit of solutions, without a callback and in all episodes
of primal search. And where the flag is raised or that limit is met when a callback has made an admissible
choice, a search that is in no hurry ends with nothing more counted: with an interrupt if the flag is
raised or the choice was one, else because of the limit. -/
theorem Plan.limits_exact (plan : Plan α) {κ : Type} {handler : Handler α κ}
    (confined : handler.Confined) (incumbent : Option (Solution α)) (interrupted : Bool)
    (turns : Nat) (k : κ) :
    let start := Turn.proceed (Search.start plan {} incumbent interrupted)
    let run := plan.drive handler turns start k
    (∀ n, plan.settings.nodeLimit = some n → run.1.search.stats.nodesExplored ≤ n) ∧
    (∀ dual s, run.1 = .ended .nodeLimit dual s →
      (∃ n, plan.settings.nodeLimit = some n ∧ s.stats.nodesExplored = n) ∧
      ∃ node ∈ s.stack,
        plan.problem.canImprove node.parentBound s.incumbent plan.tolerance = true) ∧
    (∀ l, plan.settings.solutionLimit = some l →
      (plan.hooks = none → run.1.search.stats.solutionsFound ≤ l) ∧
      ∀ r, Settings.read r = .ok plan.settings → ∀ (b : PrimalSearchDynamics) s,
        Dynamics.Comes (Model.withRegistry plan.problem r plan.clock) b s →
          (∀ shown, s.snapshot = .ok shown → shown.solutions ≤ l) ∧
          ∀ m, s.model = .ok m → m.stats.solutionsFound ≤ l) ∧
    (plan.Unhurried → ∀ d k', run = (.ask d, k') → ∀ choice d' k'',
      handler plan d k' = (.ok choice, d', k'') → choice.Admissible plan d' →
      (d'.search.interrupted = true ∨
        ∃ l, plan.settings.solutionLimit = some l ∧ l ≤ d'.search.stats.solutionsFound) →
      ∃ dual s, s.stats = d'.search.stats ∧ ∀ more,
        plan.drive handler (turns + (more + 1)) start k = (.ended
          (if d'.search.interrupted ∨ choice = .interrupt then .userInterrupt else .solutionLimit)
          dual s, k'')) := by
  intro start run
  have begun (spared : Prop) : start.Limited spared plan :=
    start_limited plan rfl rfl incumbent interrupted
  have limited : run.1.Limited False plan := drive_limited confined nofun turns k (begun False)
  refine ⟨limited.withinNodes, fun dual s ended => ?_, fun l limit => ⟨fun alone => ?_, ?_⟩, ?_⟩
  · rw [ended] at limited
    exact limited.2.1 rfl
  · have spared : run.1.Limited (plan.hooks = none) plan :=
      drive_limited confined id turns k (begun _)
    exact spared.withinSolutions alone l limit
  · intro r read b s comes
    have fresh : (Model.withRegistry plan.problem r plan.clock).Permitted plan.settings :=
      ⟨⟨fun n _ => Nat.zero_le n, fun l _ => Nat.zero_le l⟩,
        fun _ => ⟨rfl, rfl, fun _ read' => Except.ok.inj (read'.symm.trans read)⟩⟩
    have upheld := PrimalSearchDynamics.comes_upholds fresh comes
    exact ⟨fun shown snapshot_eq => (upheld.snapshot (Law.limits_kept _) snapshot_eq).2 l limit,
      fun m model_eq => (upheld.model model_eq).counts.2 l limit⟩
  · intro unhurried d k' asked choice d' k'' answered admissible met
    rw [asked] at limited
    have tracked := (confined plan d k').tracked limited.2.1
    rw [answered] at tracked
    obtain ⟨dual, s, ended, stats_eq⟩ := answer_met tracked unhurried admissible met
    refine ⟨dual, s, stats_eq, fun more => ?_⟩
    rw [drive_add asked, drive, answered]
    show plan.drive handler more (plan.answer d' choice) k'' = _
    rw [ended]
    exact drive_of_isOver (by trivial) more

/-! ### A search with a limit of one -/

/-- The search of the halved problem that may explore one node and find one solution. -/
def Plan.rationed : Plan Rat :=
  { Plan.halved with
    settings := { Plan.halved.settings with nodeLimit := some 1, solutionLimit := some 1 } }

/-- Whether a search waits at a heuristic point where an assignment is the first solution, with no flag
raised. -/
def Turn.waitsToFind (plan : Plan Rat) (assignment : List (Var × Rat)) : Turn Rat → Bool
  | .ask d =>
    let e := (d.tryAssignment plan assignment).2
    decide (d.point = .heuristic) && decide (1 ≤ e.search.stats.solutionsFound) &&
      !e.search.interrupted
  | _ => false

/-- A search that waits so is at a decision point. -/
theorem Turn.exists_find {plan : Plan Rat} {assignment : List (Var × Rat)} {turn : Turn Rat}
    (h : turn.waitsToFind plan assignment = true) :
    ∃ d, turn = .ask d ∧ d.point = .heuristic ∧
      1 ≤ (d.tryAssignment plan assignment).2.search.stats.solutionsFound ∧
      (d.tryAssignment plan assignment).2.search.interrupted = false := by
  cases turn with
  | ask d =>
    simp only [waitsToFind, Bool.and_eq_true, decide_eq_true_iff, Bool.not_eq_true'] at h
    exact ⟨d, rfl, h.1.1, h.1.2, h.2⟩
  | _ => cases h

/-- Whether a search has ended at the limit of nodes. -/
def Turn.endsAtNodeLimit : Turn Rat → Bool
  | .ended status _ _ => decide (status = .nodeLimit)
  | _ => false

/-- A callback that tries one at the root meets the limit of solutions there. Without it, the search
stops with a child that could still improve. -/
theorem Plan.rationed_stops :
    let start := Turn.proceed (Search.start Plan.rationed {} none false)
    (∃ dual s, ∀ more, Plan.rationed.drive (Handler.trying [(0, 1)]) (1 + (more + 1)) start () =
      (.ended .solutionLimit dual s, ())) ∧
    ∃ dual s, (Plan.rationed.drive Handler.passive 4 start ()).1 = .ended .nodeLimit dual s ∧
      s.stats.nodesExplored = 1 ∧
      ∃ node ∈ s.stack, Problem.halved.canImprove node.parentBound s.incumbent 0 = true := by
  intro start
  constructor
  · have confined : (Handler.trying [((0 : Var), (1 : Rat))]).Confined :=
      Handler.confined_iff.mpr ⟨_, Handler.trying_performs _⟩
    obtain ⟨-, -, -, stops⟩ := Plan.limits_exact Plan.rationed confined none false 1 ()
    have waits : (Plan.rationed.drive (Handler.trying [(0, 1)]) 1 start ()).1.waitsToFind
        Plan.rationed [(0, 1)] = true := by decide +kernel
    obtain ⟨d, asked, point, found, quiet⟩ := Turn.exists_find waits
    let e := (d.tryAssignment Plan.rationed [(0, 1)]).2
    have point' : e.point = .heuristic :=
      (Decision.samePoint_tryAssignment Plan.rationed d [(0, 1)]).point.trans point
    obtain ⟨dual, s, -, ended⟩ := stops nofun d () (Prod.ext asked rfl) e.heuristicChoice e () rfl
      (PrimalSearchDynamics.heuristicChoice_admissible point') (.inr ⟨1, rfl, found⟩)
    have own : e.heuristicChoice ≠ .interrupt := by
      unfold Decision.heuristicChoice
      split <;> nofun
    have status : ¬ (e.search.interrupted = true ∨ e.heuristicChoice = .interrupt) := by
      rintro (raised | interrupt)
      · exact Bool.false_ne_true (quiet.symm.trans raised)
      · exact own interrupt
    rw [if_neg status] at ended
    exact ⟨dual, s, ended⟩
  · have ends : (Plan.rationed.drive Handler.passive 4 start ()).1.endsAtNodeLimit = true := by
      decide +kernel
    obtain ⟨-, exhausted, -⟩ :=
      Plan.limits_exact Plan.rationed Handler.passive_confined none false 4 ()
    cases last : (Plan.rationed.drive Handler.passive 4 start ()).1 with
    | ended status dual s =>
      rw [last] at ends
      obtain rfl : status = .nodeLimit := of_decide_eq_true ends
      obtain ⟨⟨n, limit, explored⟩, improvable⟩ := exhausted dual s last
      cases limit
      exact ⟨dual, s, rfl, explored, improvable⟩
    | _ =>
      rw [last] at ends
      cases ends

end Milp
