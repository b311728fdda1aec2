import Milp.Proofs.Episode.Arrival
import Milp.Proofs.Episode.Calls
import Milp.Proofs.Episode.Forgetting
import Milp.Proofs.Episode.Rejection
import Milp.Proofs.Search.Numbering

/-!
# Trials per node

An episode of primal search visits one heuristic point after the other, and at each of them it tries one
assignment after the other. `Visit` is the record of that: the decision as it was found, and the
assignments tried there. `PrimalSearchDynamics.Plays` follows an episode with the record of the visit it is
at and those of the visits before. A visit is over when the search has left its decision point.

The dynamics knows nothing of visits. It counts its trials, anew where the number of the node changes,
while the worker holds or goes on by the count that it was given with the order. That both come to the
same is `PrimalSearchDynamics.trials_per_node`. It rests on the numbers of nodes, no two of which are
equal, and on the flag of interrupts: a search that is asked to stop does not go on to another point.
-/

namespace Milp

variable {α : Type} [Scalar α]

/-! ### Visits -/

namespace PartialAssignment

/-- What comes of an assignment that is tried at a decision point, and the decision point after it. The
empty assignment is no probing trial. -/
def attempt (a : PartialAssignment α) (plan : Plan α) (d : Decision α) :
    Except (SolverError α) (Option TrialResult) × Decision α :=
  if a.vars.isEmpty then (.ok none, d)
  else
    let (result, d) := d.tryAssignment plan (a.vars.zip a.values)
    (result.map some, d)

variable (a : PartialAssignment α) (plan : Plan α) (d : Decision α)

/-- The result of a probing trial. -/
def result? : Option TrialResult := (a.attempt plan d).1.toOption.join

/-- Trials keep the decision point. -/
theorem samePoint_attempt : d.SamePoint (a.attempt plan d).2 := by
  unfold attempt
  split_ifs
  · exact .refl d
  · exact d.samePoint_tryAssignment plan _

variable {a plan d}

/-- They keep a search in order. -/
theorem attempt_orderly {past : List Nat} (h : d.search.Orderly past) :
    (a.attempt plan d).2.search.Orderly past := by
  unfold attempt
  split_ifs
  · exact h
  · exact Decision.tryAssignment_orderly h _

/-- The decision point keeps the result of the last probing trial. -/
theorem attempt_lastTrial {result : Option TrialResult} (fine : (a.attempt plan d).1 = .ok result) :
    (a.attempt plan d).2.lastTrial = result.or d.lastTrial := by
  unfold attempt at fine ⊢
  split_ifs at fine ⊢ with empty
  · cases fine
    rfl
  · unfold Decision.tryAssignment at fine ⊢
    cases refused : Decision.refusal? plan (a.vars.zip a.values) with
    | some refusal =>
      rw [refused] at fine
      cases fine
    | none =>
      rw [refused] at fine
      simp only at fine ⊢
      generalize Decision.probe { d with
        search := { d.search with stats := d.search.stats.onTrial } } plan
        (a.vars.zip a.values) = probed at fine ⊢
      obtain ⟨outcome, e⟩ := probed
      cases outcome with
      | error cause => cases fine
      | ok result =>
        cases fine
        rfl

end PartialAssignment

/-- A visit of a decision point: the decision as it was found, and the assignments tried there. -/
structure Visit (α : Type) where
  plan : Plan α
  first : Decision α
  tried : List (PartialAssignment α)

namespace Visit

/-- The number of its node. -/
def node (v : Visit α) : Nat := v.first.focus.node.number

/-- The visit with one more assignment tried. -/
def and (v : Visit α) (a : PartialAssignment α) : Visit α := { v with tried := v.tried ++ [a] }

/-- The decision as it is after the trials. -/
def now (v : Visit α) : Decision α := v.tried.foldl (fun d a => (a.attempt v.plan d).2) v.first

/-- The results of the probing trials among assignments that are tried one after the other. -/
def resultsFrom (plan : Plan α) : Decision α → List (PartialAssignment α) → List TrialResult
  | _, [] => []
  | d, a :: as => (a.result? plan d).toList ++ resultsFrom plan (a.attempt plan d).2 as

/-- The results of the probing trials of a visit. -/
def results (v : Visit α) : List TrialResult := resultsFrom v.plan v.first v.tried

variable (v : Visit α) (a : PartialAssignment α)

/-- One more trial. -/
@[simp]
theorem now_and : (v.and a).now = (a.attempt v.plan v.now).2 := List.foldl_concat ..

omit [Scalar α] in
/-- It counts. -/
theorem length_and : (v.and a).tried.length = v.tried.length + 1 := List.length_append

/-- Its result, if it has one, is the last. -/
theorem results_and : (v.and a).results = v.results ++ (a.result? v.plan v.now).toList := by
  have more (d : Decision α) (as : List (PartialAssignment α)) : resultsFrom v.plan d (as ++ [a]) =
      resultsFrom v.plan d as ++
        (a.result? v.plan (as.foldl (fun d a => (a.attempt v.plan d).2) d)).toList := by
    induction as generalizing d with
    | nil => exact List.append_nil _
    | cons first as ih =>
      rw [List.cons_append, resultsFrom, resultsFrom, ih, List.append_assoc]
      rfl
  exact more v.first v.tried

end Visit

/-! ### Orders -/

namespace PrimalSearchDynamics

/-- Where the search goes on with the order to try an assignment: it fails with the trial, it leaves the
decision point with what the trials have found after the last one or when it is asked to stop, or it is
held there. -/
theorem carried_order (b : PrimalSearchDynamics) (a : PartialAssignment α) (plan : Plan α)
    (d : Decision α) : ((b.order a).carried plan d ()).1 =
      match (a.attempt plan d).1 with
      | .error e => .failed (.error e) (a.attempt plan d).2.search
      | .ok _ =>
        if b.isLastTrial || (a.attempt plan d).2.isStopped plan then
          plan.answer (a.attempt plan d).2 (a.attempt plan d).2.heuristicChoice
        else .ask (a.attempt plan d).2 := by
  rw [order, Order.carried]
  simp only
  generalize tried : a.attempt plan d = trial
  unfold PartialAssignment.attempt at tried
  simp only [tried]
  obtain ⟨result, e⟩ := trial
  cases result with
  | error cause => rfl
  | ok result =>
    simp only
    split_ifs <;> rfl

variable {b : PrimalSearchDynamics} {s : EpisodeSession α} {m : Model α} {plan : Plan α}
  {d : Decision α} {a : PartialAssignment α}

/-- What a step at a node leads to once the solve was resumed. -/
def afterResume (b : PrimalSearchDynamics) (node : Nat) :
    Session.Outcome α Unit Bool → DynamicsResult PrimalSearchDynamics α (List Var)
  | (.error e, s, _) => (Attempt.fail e, b, s)
  | (.ok done, s, _) => b.afterTrial node s done

/-- The session is the one that the resumption has left. -/
theorem afterResume_session (b : PrimalSearchDynamics) (node : Nat) (o : Session.Outcome α Unit Bool) :
    (b.afterResume node o).2.2 = o.2.1 := by
  obtain ⟨result, s, k⟩ := o
  cases result with
  | error e => rfl
  | ok done => exact afterTrial_session b node s done

/-- Where the session stands at a decision, a step with an action that is accepted resumes the solve. -/
theorem step_of_stands (stands : s.Stands m plan d)
    (accepted : (b.step s a).1.isInvalidAction = false) :
    b.step s a = b.afterResume d.focus.node.number (s.resume (b.order a) ()) := by
  unfold step at accepted ⊢
  simp only [stands.waitsAt.isSuspended, stands.snapshot_eq, Bool.not_true, Bool.false_eq_true,
    if_false] at accepted ⊢
  split at accepted
  next => cases accepted
  next =>
    generalize s.resume (b.order a) () = o
    obtain ⟨result, s', k⟩ := o
    cases result <;> rfl

/-- After a trial the dynamics is at the decision where the session stands then. The result of the trial
counts if that is at the same node. -/
theorem afterTrial_of_stands (stands : s.Stands m plan d) (node : Nat) :
    b.afterTrial node s false =
      (.ok ⟨false, some d.focus.pseudoCandidates⟩,
        if (b.spend.track d.focus.node.number).lastNode = some node then
          { b.spend.track d.focus.node.number with lastResult := d.lastTrial }
        else b.spend.track d.focus.node.number, s) := by
  simp only [afterTrial, outcome, stands.snapshot_eq]
  rfl

end PrimalSearchDynamics

/-! ### Visits in a row -/

/-- Whether a search that leaves a decision comes to another one as the next. -/
def Plan.LeadsOn (plan : Plan α) (d e : Decision α) : Prop :=
  ∃ choice turns, plan.toDecision turns (plan.answer d choice) = .ask e

namespace Visit

/-- Whether a visit is at the first decision that a solve of a model comes to which asks for heuristics at
the depths of a schedule. -/
def Begins (m : Model α) (schedule : Schedule) (v : Visit α) : Prop :=
  ∃ turn turns, { m with hooks := some { heuristic := some schedule } }.opening = .entered v.plan turn ∧
    v.plan.toDecision turns turn = .ask v.first

/-- Whether visits, the last one first, are at the decisions that such a solve comes to one after the other,
with none passed by. -/
inductive Trail (m : Model α) (schedule : Schedule) : List (Visit α) → Prop
  | first {v : Visit α} (begins : v.Begins m schedule) : Trail m schedule [v]
  | next {v before : Visit α} {rest : List (Visit α)} (trail : Trail m schedule (before :: rest))
      (same : v.plan = before.plan) (leads : v.plan.LeadsOn before.now v.first) :
      Trail m schedule (v :: before :: rest)

/-- One more trial does not change where a visit is. -/
theorem Trail.and {m : Model α} {schedule : Schedule} {v : Visit α} {past : List (Visit α)}
    (h : Trail m schedule (v :: past)) (a : PartialAssignment α) :
    Trail m schedule (v.and a :: past) := by
  cases h with
  | first begins => exact .first begins
  | next trail same leads => exact .next trail same leads

end Visit

/-! ### What follows a trial -/

/-- What a step leads to that tries an assignment, with `limit` as the limit of trials. The episode ends if
the trial fails or the search is asked to stop. Else the decision point is held as long as trials are left,
and is left when there are none. -/
inductive Visit.Follows (v : Visit α) (a : PartialAssignment α) (limit : Int32) :
    DynamicsResult PrimalSearchDynamics α (List Var) → Prop
  | fails {b : PrimalSearchDynamics} {s : EpisodeSession α} {e : SolverError α}
      (failed : (a.attempt v.plan v.now).1 = .error e) (free : s.isSuspended = false) :
      Follows v a limit (Attempt.fail (.ofSolver e), b, s)
  | stops {b : PrimalSearchDynamics} {s : EpisodeSession α}
      (stopped : (v.and a).now.isStopped v.plan = true) (free : s.isSuspended = false) :
      Follows v a limit (.ok ⟨true, none⟩, b, s)
  | holds {b : PrimalSearchDynamics} {s : EpisodeSession α}
      (goesOn : (v.and a).now.isStopped v.plan = false)
      (more : limit < 0 ∨ v.tried.length + 1 < limit.toInt)
      (waits : s.WaitsAt v.plan (v.and a).now) :
      Follows v a limit (.ok ⟨false, some v.first.focus.pseudoCandidates⟩, b, s)
  | leaves {r : DynamicsResult PrimalSearchDynamics α (List Var)}
      (goesOn : (v.and a).now.isStopped v.plan = false) (last : v.tried.length + 1 = limit.toInt)
      (next : ∀ plan e, r.2.2.WaitsAt plan e → plan = v.plan ∧ v.plan.LeadsOn (v.and a).now e ∧
        e.focus.node.number ≠ v.node ∧ r.1 = .ok ⟨false, some e.focus.pseudoCandidates⟩) :
      Follows v a limit r

namespace PrimalSearchDynamics

/-! ### Episodes -/

/-- How episodes go on a model, with the visit that a dynamics is at and those before, the last one first.
An accepted action belongs to the visit. If the worker is at the same decision point then, with the trial
made, the visit goes on, and if the search has left it for another one, a new visit begins. -/
inductive Plays (m : Model α) :
    PrimalSearchDynamics → EpisodeSession α → List (Visit α) → Visit α → Prop
  | reset (b : PrimalSearchDynamics) {plan : Plan α} {d : Decision α}
      (waits : (b.reset (.idle m)).2.2.WaitsAt plan d) :
      Plays m (b.reset (.idle m)).2.1 (b.reset (.idle m)).2.2 [] ⟨plan, d, []⟩
  | held {b : PrimalSearchDynamics} {s : EpisodeSession α} {past : List (Visit α)} {v : Visit α}
      {a : PartialAssignment α} (plays : Plays m b s past v)
      (accepted : (b.step s a).1.isInvalidAction = false)
      (waits : (b.step s a).2.2.WaitsAt v.plan (v.and a).now) :
      Plays m (b.step s a).2.1 (b.step s a).2.2 past (v.and a)
  | left {b : PrimalSearchDynamics} {s : EpisodeSession α} {past : List (Visit α)} {v : Visit α}
      {a : PartialAssignment α} {d : Decision α} (plays : Plays m b s past v)
      (accepted : (b.step s a).1.isInvalidAction = false)
      (leads : v.plan.LeadsOn (v.and a).now d) (waits : (b.step s a).2.2.WaitsAt v.plan d) :
      Plays m (b.step s a).2.1 (b.step s a).2.2 (v.and a :: past) ⟨v.plan, d, []⟩

/-- Whether a dynamics and its session are at a visit. -/
structure Tracks (b : PrimalSearchDynamics) (s : EpisodeSession α) (past : List (Visit α))
    (v : Visit α) : Prop where
  stands : ∃ m, s.Stands m v.plan v.now
  behind : ∀ f, v.plan.asksAt f .branching = false
  focus : v.now.focus = v.first.focus
  point : v.now.point = .heuristic
  orderly : v.now.search.Orderly (v.node :: past.map Visit.node)
  lastTrial : v.now.lastTrial = v.results.getLast?
  lastNode : b.lastNode = some v.node
  lastResult : b.lastResult = v.results.getLast?
  spent : b.spent = min v.tried.length trialCounterLimit
  left : 0 ≤ b.trials → v.tried.length < b.trials.toInt
  exhausted : ∀ v' ∈ past, v'.tried.length = b.trials.toInt

/-- What a step leads to from a visit: what follows the trial, and where the worker waits then, the dynamics
is at the same visit still or at a new one. -/
structure Next (b : PrimalSearchDynamics) (past : List (Visit α)) (v : Visit α) (a : PartialAssignment α)
    (r : DynamicsResult PrimalSearchDynamics α (List Var)) : Prop where
  follows : v.Follows a b.trials r
  tracks : ∀ plan d, r.2.2.WaitsAt plan d → plan = v.plan ∧
    (v.tried.length + 1 ≠ b.trials.toInt ∧ d = (v.and a).now ∧ r.2.1.Tracks r.2.2 past (v.and a) ∨
      v.tried.length + 1 = b.trials.toInt ∧ v.plan.LeadsOn (v.and a).now d ∧
        r.2.1.Tracks r.2.2 (v.and a :: past) ⟨v.plan, d, []⟩)

/-- Where no solve is suspended, there is no visit any more. -/
theorem Next.of_free {b : PrimalSearchDynamics} {past : List (Visit α)} {v : Visit α}
    {a : PartialAssignment α} {r : DynamicsResult PrimalSearchDynamics α (List Var)}
    (follows : v.Follows a b.trials r) (free : r.2.2.isSuspended = false) : b.Next past v a r :=
  ⟨follows, fun _ _ waits => absurd waits (Session.not_waitsAt free _ _)⟩

/-- Where the number of the node is new, so is the visit. -/
theorem tracks_new {b : PrimalSearchDynamics} {s : EpisodeSession α} {past : List (Visit α)}
    {m : Model α} {plan : Plan α} {d : Decision α} (stands : s.Stands m plan d)
    (behind : ∀ f, plan.asksAt f .branching = false) (fresh : d.lastTrial = none)
    (asked : plan.asksAt d.focus d.point = true)
    (orderly : d.search.Orderly (d.focus.node.number :: past.map Visit.node))
    (other : b.lastNode ≠ some d.focus.node.number) (some_trials : b.trials ≠ 0)
    (exhausted : ∀ v ∈ past, v.tried.length = b.trials.toInt) :
    (b.track d.focus.node.number).Tracks s past ⟨plan, d, []⟩ := by
  have tracked : b.track d.focus.node.number =
      { b with spent := 0, lastResult := none, lastNode := some d.focus.node.number } := by
    rw [track, if_neg other]
  have point : d.point = .heuristic := by
    cases point : d.point with
    | heuristic => rfl
    | branching =>
      rw [point, behind] at asked
      cases asked
  rw [tracked]
  exact {
    stands := ⟨m, stands⟩
    behind
    focus := rfl
    point
    orderly
    lastTrial := fresh
    lastNode := rfl
    lastResult := rfl
    spent := rfl
    left := fun nonneg => by
      have positive : b.trials.toInt ≠ 0 := fun zero => some_trials (Int32.toInt_inj.mp zero)
      have := Int32.le_iff_toInt_le.mp nonneg
      change (0 : Int) ≤ b.trials.toInt at this
      change ((0 : Nat) : Int) < b.trials.toInt
      omega
    exhausted }

/-- A reset that leaves the worker at a decision begins the first visit. -/
theorem tracks_reset (b : PrimalSearchDynamics) {m : Model α} {plan : Plan α} {d : Decision α}
    (waits : (b.reset (.idle m)).2.2.WaitsAt plan d) :
    (⟨plan, d, []⟩ : Visit α).Begins m b.schedule ∧
      (b.reset (.idle m)).2.1.Tracks (b.reset (.idle m)).2.2 [] ⟨plan, d, []⟩ := by
  have enough : 3 ≤ patience := Nat.le_of_succ_le four_le_patience
  unfold reset at waits ⊢
  simp only at waits ⊢
  split_ifs at waits ⊢ with none_allowed
  · exact absurd waits (Session.not_waitsAt rfl plan d)
  · have arrival := Session.arrives_of_start m { heuristic := some b.schedule } () enough
    generalize (Session.idle m : EpisodeSession α).start { heuristic := some b.schedule } () = o
      at waits arrival ⊢
    obtain ⟨result, s, k⟩ := o
    have here : s.WaitsAt plan d := by
      cases result with
      | error e => exact waits
      | ok done =>
        simp only [outcome_session] at waits
        exact waits
    rcases arrival with ⟨plan', turn, entered, arrives⟩ | free
    · obtain ⟨rfl, goesOn, ⟨turns, asks⟩, stands⟩ := arrives.of_waitsAt here
      obtain rfl : result = .ok false := goesOn
      refine ⟨⟨turn, turns, entered, asks⟩, ?_⟩
      obtain ⟨-, settings, -, rfl, rfl⟩ := Model.opening_entered entered
      have begun : Turn.Orderly []
          (.proceed (Search.start
            (.ofSettings m.problem settings (some { heuristic := some b.schedule }) m.clock)
            m.stats m.incumbent m.interrupted)) := Plan.start_orderly _ _ _ _
      obtain ⟨orderly, fresh, asked⟩ := Plan.toDecision_fresh begun trivial asks
      simp only [outcome, stands.snapshot_eq, Bool.false_eq_true, if_false]
      have begins : ({ trials := b.trials, schedule := b.schedule } : PrimalSearchDynamics).lastNode ≠
          some d.focus.node.number := nofun
      exact tracks_new stands (fun _ => rfl) fresh asked orderly begins none_allowed
        (List.forall_mem_nil _)
    · exact absurd here (Session.not_waitsAt free plan d)

namespace Tracks

variable {b : PrimalSearchDynamics} {s : EpisodeSession α} {past : List (Visit α)} {v : Visit α}
  {a : PartialAssignment α}

/-- The dynamics counts all trials of the visit, so it knows which one is the last. -/
theorem isLastTrial_iff (h : b.Tracks s past v) :
    b.isLastTrial = true ↔ v.tried.length + 1 = b.trials.toInt := by
  have small := b.trials.toInt_lt
  have large : trialCounterLimit = 4294967295 := rfl
  have spent := h.spent
  have nonneg_iff : 0 ≤ b.trials ↔ 0 ≤ b.trials.toInt := Int32.le_iff_toInt_le
  unfold isLastTrial
  simp only [Bool.and_eq_true, decide_eq_true_iff]
  constructor
  · rintro ⟨nonneg, last⟩
    have left := h.left nonneg
    omega
  · intro last
    have nonneg := nonneg_iff.mpr (by omega)
    have left := h.left nonneg
    exact ⟨nonneg, by omega⟩

/-- The decision point after one more trial. -/
theorem samePoint (h : b.Tracks s past v) (a : PartialAssignment α) :
    (v.and a).now.focus = v.first.focus ∧ (v.and a).now.point = .heuristic := by
  have same := a.samePoint_attempt v.plan v.now
  rw [← v.now_and a] at same
  exact ⟨same.focus.trans h.focus, same.point.trans h.point⟩

/-- The search is still in order after one more trial. -/
theorem orderly_and (h : b.Tracks s past v) (a : PartialAssignment α) :
    (v.and a).now.search.Orderly (v.node :: past.map Visit.node) := by
  rw [v.now_and a]
  exact PartialAssignment.attempt_orderly h.orderly

/-- The decision that the search comes to from there is new, at a node of another number. -/
theorem fresh_of_leadsOn (h : b.Tracks s past v) {d : Decision α}
    (leads : v.plan.LeadsOn (v.and a).now d) :
    d.search.Orderly (d.focus.node.number :: v.node :: past.map Visit.node) ∧ d.lastTrial = none ∧
      v.plan.asksAt d.focus d.point = true := by
  obtain ⟨choice, turns, asks⟩ := leads
  obtain ⟨-, point⟩ := h.samePoint a
  exact Plan.toDecision_fresh (Plan.answer_orderly (h.orderly_and a) point (h.behind _) choice)
    (Plan.answer_fresh point (h.behind _) choice) asks

/-- So it does not come back to the decision that it has left. -/
theorem not_leadsOn_now (h : b.Tracks s past v) : ¬v.plan.LeadsOn (v.and a).now (v.and a).now := by
  intro leads
  obtain ⟨orderly, -⟩ := h.fresh_of_leadsOn leads
  rw [(h.samePoint a).1] at orderly
  exact orderly.notMem List.mem_cons_self

/-- The visit goes on where the decision point is held. -/
theorem held (h : b.Tracks s past v) {m : Model α} {s' : EpisodeSession α}
    {result : Option TrialResult} (fine : (a.attempt v.plan v.now).1 = .ok result)
    (stands : s'.Stands m v.plan (v.and a).now)
    (more : v.tried.length + 1 ≠ b.trials.toInt) :
    ∃ b' : PrimalSearchDynamics, b.afterTrial v.node s' false =
        (.ok ⟨false, some v.first.focus.pseudoCandidates⟩, b', s') ∧
      b'.Tracks s' past (v.and a) := by
  obtain ⟨focus, point⟩ := h.samePoint a
  have lastTrial : (v.and a).now.lastTrial = (v.and a).results.getLast? := by
    rw [v.now_and a, PartialAssignment.attempt_lastTrial fine, h.lastTrial, v.results_and a,
      List.getLast?_append, PartialAssignment.result?, fine]
    cases result <;> rfl
  have tracked : b.spend.track v.node = b.spend := if_pos h.lastNode
  have number : (v.and a).now.focus.node.number = v.node := by
    rw [focus]
    rfl
  rw [afterTrial_of_stands stands, number, tracked, if_pos (show b.spend.lastNode = _ from h.lastNode),
    focus]
  refine ⟨_, rfl, {
    stands := ⟨m, stands⟩
    behind := h.behind
    focus
    point
    orderly := h.orderly_and a
    lastTrial
    lastNode := h.lastNode
    lastResult := lastTrial
    spent := ?_
    left := fun nonneg => ?_
    exhausted := h.exhausted }⟩
  · have spent := h.spent
    have length_eq := v.length_and a
    change min (b.spent + 1) trialCounterLimit = _
    omega
  · have left := h.left nonneg
    have length_eq := v.length_and a
    change _ < b.trials.toInt
    omega

/-- A new visit begins where the search has left for another decision. -/
theorem left_for (h : b.Tracks s past v) {m : Model α} {s' : EpisodeSession α} {d : Decision α}
    (stands : s'.Stands m v.plan d) (fresh : d.lastTrial = none)
    (asked : v.plan.asksAt d.focus d.point = true)
    (orderly : d.search.Orderly (d.focus.node.number :: v.node :: past.map Visit.node))
    (last : v.tried.length + 1 = b.trials.toInt) :
    ∃ b' : PrimalSearchDynamics, b.afterTrial v.node s' false =
        (.ok ⟨false, some d.focus.pseudoCandidates⟩, b', s') ∧
      b'.Tracks s' (v.and a :: past) ⟨v.plan, d, []⟩ := by
  have distinct : d.focus.node.number ≠ v.node := fun same => orderly.notMem (by simp [same])
  have other : b.spend.lastNode ≠ some d.focus.node.number := fun same =>
    distinct (Option.some.inj (same.symm.trans h.lastNode))
  have some_trials : b.spend.trials ≠ 0 := fun none_allowed => by
    have zero : b.trials.toInt = 0 := congrArg Int32.toInt none_allowed
    omega
  have exhausted : ∀ v' ∈ v.and a :: past, v'.tried.length = b.spend.trials.toInt := by
    intro v' visited
    rcases List.mem_cons.mp visited with rfl | before
    · exact v.length_and a ▸ last
    · exact h.exhausted v' before
  have orderly' : d.search.Orderly (d.focus.node.number :: (v.and a :: past).map Visit.node) := orderly
  have tracks := tracks_new stands h.behind fresh asked orderly' other some_trials exhausted
  have tracked : (b.spend.track d.focus.node.number).lastNode ≠ some v.node := fun same =>
    distinct (Option.some.inj (tracks.lastNode.symm.trans same))
  rw [afterTrial_of_stands stands, if_neg tracked]
  exact ⟨_, rfl, tracks⟩

/-- What a step leads to whose trial has failed. -/
theorem next_of_failed {e : SolverError α} (failed : (a.attempt v.plan v.now).1 = .error e)
    {o : Session.Outcome α Unit Bool} {m : Model α} {x : Search α}
    (arrives : Session.Arrives m v.plan (.failed (.error e) x) o) :
    b.Next past v a (b.afterResume v.node o) := by
  cases arrives.of_settled (fun _ same => by cases same) with
  | failed m' k => exact .of_free (.fails failed rfl) rfl

/-- What a step leads to after which the search is asked to stop: it does. -/
theorem next_of_stopped (h : b.Tracks s past v) (stopped : (v.and a).now.isStopped v.plan = true)
    {o : Session.Outcome α Unit Bool} {m : Model α}
    (arrives : Session.Arrives m v.plan
      (v.plan.answer (v.and a).now (v.and a).now.heuristicChoice) o) :
    b.Next past v a (b.afterResume v.node o) := by
  obtain ⟨status, dual, x, ended⟩ :
      ∃ status dual x, v.plan.answer (v.and a).now (v.and a).now.heuristicChoice =
        .ended status dual x :=
    Decision.answer_stopped (h.orderly_and a) (h.samePoint a).2 stopped
  rw [ended] at arrives
  cases arrives.of_settled (fun _ same => by cases same) with
  | ended m' k => exact .of_free (.stops stopped rfl) rfl

/-- What a step leads to that holds the decision point. -/
theorem next_of_held (h : b.Tracks s past v) {result : Option TrialResult}
    (fine : (a.attempt v.plan v.now).1 = .ok result)
    (goesOn : (v.and a).now.isStopped v.plan = false) (more : v.tried.length + 1 ≠ b.trials.toInt)
    {o : Session.Outcome α Unit Bool} {m : Model α}
    (arrives : Session.Arrives m v.plan (.ask (v.and a).now) o) :
    b.Next past v a (b.afterResume v.node o) := by
  cases arrives.of_settled (fun _ same => by cases same) with
  | @asks d s' k stands =>
    obtain ⟨b', eq, tracks⟩ := h.held fine stands more
    rw [afterResume, eq]
    have left : b.trials < 0 ∨ v.tried.length + 1 < b.trials.toInt := by
      by_cases nonneg : 0 ≤ b.trials
      · have := h.left nonneg
        exact .inr (by omega)
      · exact .inl (Int32.not_le.mp nonneg)
    refine ⟨.holds goesOn left stands.waitsAt, fun plan d waits => ?_⟩
    obtain ⟨rfl, rfl⟩ := stands.waitsAt.unique waits
    exact ⟨rfl, .inl ⟨more, rfl, tracks⟩⟩

/-- What a step leads to after the last trial. -/
theorem next_of_left (h : b.Tracks s past v) (goesOn : (v.and a).now.isStopped v.plan = false)
    (last : v.tried.length + 1 = b.trials.toInt) {o : Session.Outcome α Unit Bool} {m : Model α}
    (arrives : Session.Arrives m v.plan
      (v.plan.answer (v.and a).now (v.and a).now.heuristicChoice) o) :
    b.Next past v a (b.afterResume v.node o) := by
  have comes {plan : Plan α} {d : Decision α}
      (waits : (b.afterResume v.node o).2.2.WaitsAt plan d) :
      plan = v.plan ∧ v.plan.LeadsOn (v.and a).now d ∧ d.focus.node.number ≠ v.node ∧
        ∃ b' : PrimalSearchDynamics, b.afterResume v.node o =
            (.ok ⟨false, some d.focus.pseudoCandidates⟩, b', o.2.1) ∧
          b'.Tracks o.2.1 (v.and a :: past) ⟨v.plan, d, []⟩ := by
    rw [afterResume_session] at waits
    obtain ⟨rfl, unfinished, ⟨turns, asks⟩, stands⟩ := arrives.of_waitsAt waits
    have leads : v.plan.LeadsOn (v.and a).now d := ⟨_, turns, asks⟩
    obtain ⟨orderly, fresh, asked⟩ := h.fresh_of_leadsOn leads
    obtain ⟨result, s', k⟩ := o
    obtain rfl : result = .ok false := unfinished
    exact ⟨rfl, leads, fun same => orderly.notMem (by simp [same]),
      h.left_for stands fresh asked orderly last⟩
  refine ⟨.leaves goesOn last fun plan d waits => ?_, fun plan d waits => ?_⟩
  · obtain ⟨same, leads, other, b', eq, -⟩ := comes waits
    exact ⟨same, leads, other, congrArg Prod.fst eq⟩
  · obtain ⟨same, leads, -, b', eq, tracks⟩ := comes waits
    rw [eq]
    exact ⟨same, .inr ⟨last, leads, tracks⟩⟩

/-- What a step leads to with an action that is accepted. -/
theorem step (h : b.Tracks s past v) (accepted : (b.step s a).1.isInvalidAction = false) :
    b.Next past v a (b.step s a) := by
  obtain ⟨m, stands⟩ := h.stands
  have number : v.now.focus.node.number = v.node := congrArg (·.node.number) h.focus
  have arrives := stands.resume (b.order a) () four_le_patience
  rw [carried_order] at arrives
  rw [step_of_stands stands accepted, number]
  cases tried : (a.attempt v.plan v.now).1 with
  | error e =>
    simp only [tried] at arrives
    exact next_of_failed tried arrives
  | ok result =>
    simp only [tried, ← v.now_and a] at arrives
    cases stopped : (v.and a).now.isStopped v.plan with
    | true =>
      simp only [stopped, Bool.or_true, if_true] at arrives
      exact h.next_of_stopped stopped arrives
    | false =>
      cases last : b.isLastTrial with
      | true =>
        simp only [stopped, last, Bool.or_false, if_true] at arrives
        exact h.next_of_left stopped (h.isLastTrial_iff.mp last) arrives
      | false =>
        simp only [stopped, last, Bool.or_false, Bool.false_eq_true, if_false] at arrives
        refine h.next_of_held tried stopped (fun eq => ?_) arrives
        rw [h.isLastTrial_iff.mpr eq] at last
        cases last

end Tracks

variable {b : PrimalSearchDynamics} {s : EpisodeSession α} {past : List (Visit α)} {v : Visit α}

/-- The schedule is the same in a whole episode. -/
theorem schedule_step (b : PrimalSearchDynamics) (s : EpisodeSession α) (a : PartialAssignment α) :
    (b.step s a).2.1.schedule = b.schedule :=
  congrArg Prod.snd (forgetful.step_options b s a)

/-- Throughout all episodes the dynamics and its session are at the visit, and the visits are at the
decisions that the solve comes to. -/
theorem Plays.tracks {m : Model α} (plays : Plays m b s past v) :
    Visit.Trail m b.schedule (v :: past) ∧ b.Tracks s past v := by
  induction plays with
  | reset b waits =>
    obtain ⟨begins, tracks⟩ := tracks_reset b waits
    have kept : (b.reset (.idle m)).2.1.schedule = b.schedule :=
      congrArg Prod.snd (forgetful.reset_options b (.idle m))
    rw [kept]
    exact ⟨.first begins, tracks⟩
  | held plays accepted waits ih =>
    obtain ⟨trail, before⟩ := ih
    obtain ⟨-, ⟨-, -, tracks⟩ | ⟨-, leads, -⟩⟩ := (before.step accepted).tracks _ _ waits
    · rw [schedule_step]
      exact ⟨trail.and _, tracks⟩
    · exact absurd leads before.not_leadsOn_now
  | left plays accepted leads waits ih =>
    obtain ⟨trail, before⟩ := ih
    obtain ⟨-, ⟨-, rfl, -⟩ | ⟨-, -, tracks⟩⟩ := (before.step accepted).tracks _ _ waits
    · exact absurd leads before.not_leadsOn_now
    · rw [schedule_step]
      exact ⟨.next (trail.and _) rfl leads, tracks⟩

/-- An episode that goes on after one more action is at the same visit, unless it was the last trial there:
then a new visit begins. -/
theorem Plays.goes_on {m : Model α} (plays : Plays m b s past v) {a : PartialAssignment α}
    (accepted : (b.step s a).1.isInvalidAction = false) {plan : Plan α} {d : Decision α}
    (waits : (b.step s a).2.2.WaitsAt plan d) :
    (v.tried.length + 1 ≠ b.trials.toInt ∧
      Plays m (b.step s a).2.1 (b.step s a).2.2 past (v.and a)) ∨
    (v.tried.length + 1 = b.trials.toInt ∧
      Plays m (b.step s a).2.1 (b.step s a).2.2 (v.and a :: past) ⟨v.plan, d, []⟩) := by
  obtain ⟨-, tracks⟩ := plays.tracks
  obtain ⟨rfl, ⟨more, rfl, -⟩ | ⟨last, leads, -⟩⟩ := (tracks.step accepted).tracks _ _ waits
  · exact .inl ⟨more, plays.held accepted waits⟩
  · exact .inr ⟨last, plays.left accepted leads waits⟩

/-- Trials per node, in all episodes on any model and for all accepted actions. Whenever an action is
awaited at a visit,

* the worker waits at its decision point, a heuristic one, after the trials made there; the visits of the
  episode are at the decision points that a search with the schedule comes to, with none passed by, at
  nodes of different numbers;
* the last result is that of the last probing trial there, and none if there was none;
* with a limit of at least one trial, as many are spent as assignments were tried there, and fewer than
  the limit; at every decision point that was left, as many were tried as the limit says;
* without a limit no decision point was left before;
* one more action ends the episode if its trial fails or the search is asked to stop. Else the decision
  point is held, if that was not the last trial, or the search goes on to another one, if it was.

`Plays.goes_on` follows the episode through such an action. -/
theorem trials_per_node {m : Model α} (plays : Plays m b s past v) :
    s.WaitsAt v.plan v.now ∧ v.now.point = .heuristic ∧ Visit.Trail m b.schedule (v :: past) ∧
    ((v :: past).map Visit.node).Nodup ∧ b.lastResult = v.results.getLast? ∧
    (∀ limit : Nat, 1 ≤ limit → b.trials.toInt = limit →
      b.spent = v.tried.length ∧ v.tried.length < limit ∧
      ∀ v' ∈ past, v'.tried.length = limit) ∧
    (b.trials = -1 → past = []) ∧
    ∀ a : PartialAssignment α, (b.step s a).1.isInvalidAction = false →
      v.Follows a b.trials (b.step s a) := by
  obtain ⟨trail, h⟩ := plays.tracks
  obtain ⟨m', stands⟩ := h.stands
  refine ⟨stands.waitsAt, h.point, trail, ?_, h.lastResult, fun limit positive limit_eq => ?_,
    fun unlimited => ?_, fun a accepted => (h.step accepted).follows⟩
  · exact (List.nodup_append.mp h.orderly.distinct).1
  · have nonneg : 0 ≤ b.trials := Int32.le_iff_toInt_le.mpr (by
      rw [limit_eq]
      exact Int.natCast_nonneg limit)
    have left := h.left nonneg
    have spent := h.spent
    have small := b.trials.toInt_lt
    have large : trialCounterLimit = 4294967295 := rfl
    refine ⟨by omega, by omega, fun v' visited => ?_⟩
    have exhausted := h.exhausted v' visited
    omega
  · cases past with
    | nil => rfl
    | cons v' rest =>
      have exhausted := h.exhausted v' List.mem_cons_self
      rw [unlimited] at exhausted
      change (v'.tried.length : Int) = -1 at exhausted
      omega

end PrimalSearchDynamics

/-! ### Two trials per node -/

/-- Whether the worker of a session waits for a decision. -/
def Session.isWaiting {κ : Type} : Session α κ → Bool
  | .controlled c _ => c.worker.phase == .waiting
  | _ => false

omit [Scalar α] in
/-- Then it waits for one at some decision point. -/
theorem Session.exists_waitsAt {κ : Type} {s : Session α κ} (waiting : s.isWaiting = true) :
    ∃ plan d, s.WaitsAt plan d := by
  cases s with
  | controlled c token =>
    have phase := eq_of_beq waiting
    cases worker_eq : c.worker with
    | waiting m plan d => exact ⟨plan, d, c, token, m, rfl, worker_eq⟩
    | _ =>
      rw [worker_eq] at phase
      cases phase
  | _ => cases waiting

namespace PrimalSearchDynamics

/-- Where an episode on the pair with two trials per node is after some actions. -/
def pairAfter (actions : List (PartialAssignment Rat)) : PrimalSearchDynamics × EpisodeSession Rat :=
  actions.foldl (fun come a => (come.1.step come.2 a).2)
    (reset { trials := 2, schedule := {} } (.idle (.ofProblem .pair))).2

/-- Whether the worker waits there, with two trials allowed and with the next action accepted. -/
def pairAwaits (actions : List (PartialAssignment Rat)) (a : PartialAssignment Rat) : Bool :=
  let (b, s) := pairAfter actions
  b.trials.toInt == 2 && s.isWaiting && !(b.step s a).1.isInvalidAction

/-- The second trial is the last one at the root, whether a value is tried or none. A new visit begins,
where nothing is spent yet. -/
theorem pair_trials : ∃ v root : Visit Rat,
    Plays (.ofProblem .pair) (pairAfter [⟨[0], [3]⟩, ⟨[], []⟩]).1
      (pairAfter [⟨[0], [3]⟩, ⟨[], []⟩]).2 [root] v ∧
    root.tried = [⟨[0], [3]⟩, ⟨[], []⟩] ∧ v.tried = [] ∧
    (pairAfter [⟨[0], [3]⟩, ⟨[], []⟩]).1.spent = 0 ∧ v.node ≠ root.node := by
  have awaited : pairAwaits [] ⟨[0], [3]⟩ ∧ pairAwaits [⟨[0], [3]⟩] ⟨[], []⟩ ∧
      pairAwaits [⟨[0], [3]⟩, ⟨[], []⟩] ⟨[], []⟩ := by decide +kernel
  simp only [pairAwaits, pairAfter, List.foldl_nil, List.foldl_cons, Bool.and_eq_true,
    Bool.not_eq_true', beq_iff_eq] at awaited ⊢
  obtain ⟨⟨⟨limit, waiting⟩, accepted⟩, ⟨⟨limit', waiting'⟩, accepted'⟩, ⟨⟨limit'', waiting''⟩, -⟩⟩ := awaited
  obtain ⟨plan, d, waits⟩ := Session.exists_waitsAt waiting
  obtain ⟨_, _, waits'⟩ := Session.exists_waitsAt waiting'
  obtain ⟨_, e, waits''⟩ := Session.exists_waitsAt waiting''
  have begun := Plays.reset _ waits
  rcases begun.goes_on accepted waits' with ⟨-, held⟩ | ⟨last, -⟩
  · rcases held.goes_on accepted' waits'' with ⟨more, -⟩ | ⟨-, left⟩
    · exact absurd limit'.symm more
    · obtain ⟨-, -, -, numbers, -, counts, -⟩ := trials_per_node left
      obtain ⟨spent, -, -⟩ := counts 2 (by decide) limit''
      refine ⟨_, _, left, rfl, rfl, spent, fun same => ?_⟩
      exact (List.nodup_cons.mp numbers).1 (same ▸ List.mem_cons_self)
  · cases last.trans limit

end PrimalSearchDynamics
end Milp
