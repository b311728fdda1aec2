import Mathlib.Data.List.Sort
import Milp.Proofs.Episode.Agreement
import Milp.Proofs.Episode.Calls
import Milp.Proofs.Search.Candidates

/-!
# What a dynamics offers

Unless an episode is done, a reset or a step offers variables of the node in hand: all candidates, all
pseudo-candidates, or some of them that are sampled. So what is known of the candidates of a node
(`Focus.Listed`) is known of what is offered, provided that the snapshot shows the node where the worker
waits (`Dynamics.Shows`), and that the sampling picks distinct positions and puts them in order again
(`BranchingDynamics.candidates_spec`).
-/

namespace Milp

open Scalar

/-! ### The law of the node in hand -/

section

variable {α : Type} [Scalar α] {p : Problem α}

/-- The law of solves of a problem: the node in hand is presented. -/
def Law.presented (p : Problem α) : Law α where
  turn plan turn := plan.problem = p ∧ turn.Presented plan
  model m := m.stage = .problem → m.problem = p
  snapshot _ := True

/-- The solver keeps to it. -/
theorem Law.presented_kept (p : Problem α) : (Law.presented p).Kept where
  opening {m plan turn} holds entered := by
    obtain ⟨fresh, settings, -, rfl, rfl⟩ := Model.opening_entered entered
    exact ⟨holds fresh, trivial⟩
  advance h := ⟨h.1, Plan.advance_presented _⟩
  leave h := ⟨h.1, Plan.answer_presented h.2 _⟩
  interrupt h := ⟨h.1, Plan.answer_presented h.2 _⟩
  close {plan turn} h m := by
    intro fresh
    cases turn with
    | failed cause s => cases cause <;> cases fresh
    | _ => cases fresh
  hook h _ := h
  decision _ := trivial
  atRest _ := trivial
  blank := trivial

/-- To leave a decision to the solver keeps to it. -/
theorem Order.leave_upholds_presented : (Order.leave : Order α Unit).Upholds (.presented p) := nofun

/-- So does to choose at once. -/
theorem Order.resolve_upholds_presented (choice : Choice) :
    (Order.resolve choice : Order α Unit).Upholds (.presented p) := by
  rintro action eq plan d k ⟨same, presented⟩
  cases eq
  exact ⟨same, Plan.answer_presented presented choice⟩

/-- And to try an assignment does, since trials leave the node in hand alone. -/
theorem PrimalSearchDynamics.order_upholds_presented (b : PrimalSearchDynamics)
    (a : PartialAssignment α) : (b.order a).Upholds (.presented p) := by
  rintro action eq plan d k ⟨same, presented⟩
  cases eq
  simp only
  -- the empty assignment is not tried at all
  generalize tried : (if a.vars.isEmpty = true then ((.ok none : Except (SolverError α) _), d)
    else ((d.tryAssignment plan (a.vars.zip a.values)).1.map some,
      (d.tryAssignment plan (a.vars.zip a.values)).2)) = trial
  have point : d.SamePoint trial.2 := by
    rw [← tried]
    split_ifs
    · exact .refl d
    · exact Decision.samePoint_tryAssignment plan d _
  have kept : trial.2.focus.Presented plan := point.focus ▸ presented
  cases trial.1 with
  | error e => exact ⟨same, trivial⟩
  | ok result =>
    simp only
    cases b.isLastTrial || trial.2.isStopped plan with
    | true => exact ⟨same, Plan.answer_presented kept _⟩
    | false => exact ⟨same, kept⟩

end

/-! ### What an outcome shows -/

namespace Dynamics

variable {α δ : Type} [Scalar α]

/-- Whether an outcome that is not done offers what is picked from a snapshot of a solve that is not
over. -/
def Shows (pick : δ → Snapshot α → List Var → Prop) (r : DynamicsResult δ α (List Var)) : Prop :=
  ∀ offered, r.1 = .ok ⟨false, offered⟩ → r.2.2.GoesOn ∧ ∃ shown set,
    r.2.2.snapshot = .ok shown ∧ offered = some set ∧ pick r.2.1 shown set

/-- What fails offers nothing. -/
theorem shows_fail (pick : δ → Snapshot α → List Var → Prop) (e : EpisodeError α) (b : δ)
    (s : EpisodeSession α) : Shows pick (Attempt.fail e, b, s) := nofun

/-- If all resets and steps of a dynamics do so, whatever its episodes yield does. -/
theorem Yields.shows {action : Type} [Dynamics α δ action (List Var)] {m : Model α}
    {pick : δ → Snapshot α → List Var → Prop}
    (reset : ∀ (b : δ) (s : EpisodeSession α), Shows pick (Dynamics.reset b s))
    (step : ∀ (b : δ) (s : EpisodeSession α) (a : action), Shows pick (Dynamics.step b s a))
    {r : DynamicsResult δ α (List Var)} (yields : Yields m r) : Shows pick r := by
  cases yields with
  | reset b => exact reset b _
  | step a _ => exact step _ _ a

end Dynamics

namespace BranchingDynamics

variable {α : Type} [Scalar α]

/-- What the dynamics picks: what its candidates are, apart from the state of its engine. -/
def Picks (b : BranchingDynamics) (shown : Snapshot α) (set : List Var) : Prop :=
  ∃ engine actionSet, ({ b with engine, actionSet }.candidates shown).1 = .ok set

/-- The sampling leaves the settings of the dynamics alone. -/
theorem candidates_settings (b : BranchingDynamics) (shown : Snapshot α) :
    ∃ engine, (b.candidates shown).2 = { b with engine } := by
  unfold candidates
  simp only
  split
  · exact ⟨b.engine, rfl⟩
  · split_ifs
    · split <;> exact ⟨_, rfl⟩
    · exact ⟨b.engine, rfl⟩

/-- Where the solve goes on, candidates are picked from the snapshot. -/
theorem outcome_shows (b : BranchingDynamics) {s : EpisodeSession α} {done : Bool}
    (goesOn : done = false → s.GoesOn) : Dynamics.Shows Picks (b.outcome s done) := by
  intro offered shows
  cases done with
  | true => cases shows
  | false =>
    unfold outcome at shows ⊢
    simp only [Bool.false_eq_true, if_false] at shows ⊢
    cases shown_eq : s.snapshot with
    | error e =>
      rw [shown_eq] at shows
      cases shows
    | ok shown =>
      rw [shown_eq] at shows
      obtain ⟨engine, settings⟩ := b.candidates_settings shown
      cases picked : b.candidates shown with
      | mk result b' =>
        rw [picked] at settings
        obtain rfl : b' = { b with engine } := settings
        cases result with
        | error e =>
          simp only [picked] at shows
          cases shows
        | ok set =>
          simp only [picked] at shows ⊢
          cases shows
          refine ⟨goesOn rfl, shown, set, shown_eq, rfl, b.engine, b.actionSet, ?_⟩
          exact congrArg Prod.fst picked

/-- So it is after a reset. -/
theorem reset_shows (b : BranchingDynamics) (s : EpisodeSession α) :
    Dynamics.Shows Picks (b.reset s) := by
  unfold reset
  simp only
  split
  · exact Dynamics.shows_fail _ _ _ _
  next done s' _ started =>
    exact outcome_shows _ fun unfinished => Session.start_goesOn (unfinished ▸ started)

/-- And after a step. -/
theorem step_shows (b : BranchingDynamics) (s : EpisodeSession α) (a : BranchAction) :
    Dynamics.Shows Picks (b.step s a) := by
  unfold step
  split_ifs
  · exact Dynamics.shows_fail _ _ _ _
  · split
    · exact Dynamics.shows_fail _ _ _ _
    next order _ =>
      split
      · exact Dynamics.shows_fail _ _ _ _
      next done s' _ resumed =>
        exact outcome_shows _ fun unfinished => Session.resume_goesOn (unfinished ▸ resumed)

/-- The candidates that are picked: as many as the limit allows, all of those that the snapshot lists,
and in the same order. -/
theorem candidates_spec (b : BranchingDynamics) {shown : Snapshot α} {set : List Var}
    (sizes : (b.weighted shown).2.length = (b.weighted shown).1.length)
    (ascending : (b.weighted shown).1.Pairwise (· < ·))
    (picked : (b.candidates shown).1 = .ok set) :
    set ⊆ (b.weighted shown).1 ∧ set.Pairwise (· < ·) ∧
      set.length = b.limit.elim (b.weighted shown).1.length (min · (b.weighted shown).1.length) := by
  unfold candidates at picked
  simp only at picked
  generalize (b.weighted shown).1 = all, (b.weighted shown).2 = weights at *
  split at picked
  next unlimited =>
    cases picked
    exact ⟨List.Subset.refl _, ascending, by rw [unlimited]; rfl⟩
  next k limited =>
    rw [limited, Option.elim_some]
    split_ifs at picked with more
    · -- the sampled positions are distinct, so sorting them puts them in ascending order
      cases chosen : Random.choose Random.exponentialScalar k weights b.engine with
      | mk result engine =>
        rw [chosen] at picked
        cases result with
        | error e => cases picked
        | ok positions =>
          cases picked
          have inside : ∀ i ∈ positions.mergeSort (· ≤ ·), i < all.length := fun i hi =>
            sizes ▸ Random.lt_of_mem_choose chosen (List.mem_mergeSort.mp hi)
          have found : (positions.mergeSort (· ≤ ·)).filterMap (all[·]?) =
              (positions.mergeSort (· ≤ ·)).map (all.getD · 0) := by
            rw [← List.filterMap_eq_map]
            refine List.filterMap_congr fun i hi => ?_
            simp [List.getElem?_eq_getElem (inside i hi)]
          have sorted : (positions.mergeSort (· ≤ ·)).Pairwise (· < ·) := by
            have ordered : (positions.mergeSort (· ≤ ·)).Pairwise (· ≤ ·) :=
              List.pairwise_mergeSort' (· ≤ ·) positions
            have distinct : (positions.mergeSort (· ≤ ·)).Nodup :=
              (List.mergeSort_perm positions _).nodup_iff.mpr (Random.nodup_of_choose chosen)
            exact (ordered.and distinct).imp fun h => lt_of_le_of_ne h.1 h.2
          refine ⟨fun v hv => ?_, ?_, ?_⟩
          · obtain ⟨i, -, at_i⟩ := List.mem_filterMap.mp hv
            exact List.mem_of_getElem? at_i
          · rw [found, List.pairwise_map]
            refine sorted.imp_of_mem fun {i j} hi hj less => ?_
            simpa [inside i hi, inside j hj] using
              List.pairwise_iff_getElem.mp ascending i j (inside i hi) (inside j hj) less
          · rw [found, List.length_map, List.length_mergeSort, Random.length_of_choose chosen,
              Nat.min_eq_left more.le]
    · cases picked
      exact ⟨List.Subset.refl _, ascending, (Nat.min_eq_right (not_lt.mp more)).symm⟩

end BranchingDynamics

namespace SumBranchingDynamics

variable {α : Type} [Scalar α]

/-- The dynamics picks all candidates of the snapshot. -/
def Picks (_ : SumBranchingDynamics α) (shown : Snapshot α) (set : List Var) : Prop :=
  set = shown.candidates

/-- Where the solve goes on, the candidates of the snapshot are offered. -/
theorem outcome_shows (b : SumBranchingDynamics α) {s : EpisodeSession α} {done : Bool}
    (goesOn : done = false → s.GoesOn) : Dynamics.Shows Picks (b.outcome s done) := by
  intro offered shows
  cases done with
  | true => cases shows
  | false =>
    unfold outcome at shows ⊢
    simp only [Bool.false_eq_true, if_false] at shows ⊢
    cases shown_eq : s.snapshot with
    | error e =>
      rw [shown_eq] at shows
      cases shows
    | ok shown =>
      simp only [shown_eq] at shows ⊢
      cases shows
      exact ⟨goesOn rfl, shown, _, rfl, rfl, rfl⟩

/-- So it is after a reset. -/
theorem reset_shows (b : SumBranchingDynamics α) (s : EpisodeSession α) :
    Dynamics.Shows Picks (b.reset s) := by
  unfold reset
  simp only
  split
  · exact Dynamics.shows_fail _ _ _ _
  · split
    · exact Dynamics.shows_fail _ _ _ _
    · split
      · exact Dynamics.shows_fail _ _ _ _
      next done s' _ started =>
        exact outcome_shows _ fun unfinished => Session.start_goesOn (unfinished ▸ started)

/-- And after a step. -/
theorem step_shows (b : SumBranchingDynamics α) (s : EpisodeSession α) (vars : List Var) :
    Dynamics.Shows Picks (b.step s vars) := by
  unfold step
  split_ifs
  · exact Dynamics.shows_fail _ _ _ _
  · split
    · exact Dynamics.shows_fail _ _ _ _
    · split
      · exact Dynamics.shows_fail _ _ _ _
      next done s' _ resumed =>
        exact outcome_shows _ fun unfinished => Session.resume_goesOn (unfinished ▸ resumed)

end SumBranchingDynamics

namespace PrimalSearchDynamics

variable {α : Type} [Scalar α]

/-- The dynamics picks all pseudo-candidates of the snapshot. -/
def Picks (_ : PrimalSearchDynamics) (shown : Snapshot α) (set : List Var) : Prop :=
  set = shown.pseudoCandidates

/-- Where the solve goes on, the pseudo-candidates of the snapshot are offered. -/
theorem outcome_shows (b : PrimalSearchDynamics) {s : EpisodeSession α} {done : Bool}
    (goesOn : done = false → s.GoesOn) : Dynamics.Shows Picks (b.outcome s done) := by
  intro offered shows
  cases done with
  | true => cases shows
  | false =>
    unfold outcome at shows ⊢
    simp only [Bool.false_eq_true, if_false] at shows ⊢
    cases shown_eq : s.snapshot with
    | error e =>
      rw [shown_eq] at shows
      cases shows
    | ok shown =>
      simp only [shown_eq] at shows ⊢
      cases shows
      exact ⟨goesOn rfl, shown, _, rfl, rfl, rfl⟩

/-- After a trial, too. -/
theorem afterTrial_shows (b : PrimalSearchDynamics) (node : Nat) {s : EpisodeSession α} {done : Bool}
    (goesOn : done = false → s.GoesOn) : Dynamics.Shows Picks (b.afterTrial node s done) := by
  unfold afterTrial
  split_ifs with ended
  · intro offered shows
    cases shows
  · split
    · exact Dynamics.shows_fail _ _ _ _
    · have shows : Dynamics.Shows Picks (b.spend.outcome s false) :=
        outcome_shows b.spend fun _ => goesOn (by simpa using ended)
      split
      next eq =>
        intro offered failed
        cases failed
      next eq =>
        rw [eq] at shows
        exact shows

/-- So it is after a reset. -/
theorem reset_shows (b : PrimalSearchDynamics) (s : EpisodeSession α) :
    Dynamics.Shows Picks (b.reset s) := by
  unfold reset
  simp only
  split_ifs
  · intro offered shows
    cases solved : s.solve.1 with
    | ok status =>
      rw [solved] at shows
      cases shows
    | error e =>
      rw [solved] at shows
      cases shows
  · split
    · exact Dynamics.shows_fail _ _ _ _
    next done s' _ started =>
      exact outcome_shows _ fun unfinished => Session.start_goesOn (unfinished ▸ started)

/-- And after a step. -/
theorem step_shows (b : PrimalSearchDynamics) (s : EpisodeSession α) (a : PartialAssignment α) :
    Dynamics.Shows Picks (b.step s a) := by
  unfold step
  split_ifs
  · exact Dynamics.shows_fail _ _ _ _
  · split
    · exact Dynamics.shows_fail _ _ _ _
    · split
      · exact Dynamics.shows_fail _ _ _ _
      · split
        · exact Dynamics.shows_fail _ _ _ _
        next done s' _ resumed =>
          exact afterTrial_shows _ _ fun unfinished => Session.resume_goesOn (unfinished ▸ resumed)

end PrimalSearchDynamics

/-! ### Action sets -/

section

variable {α δ : Type} [Scalar α] [Faithful α] {p : Problem α} {tol : α} {hooks : Hooks}

/-- What an outcome offers that is not done, if the session keeps to what is known of it. -/
theorem Dynamics.Shows.listed {pick : δ → Snapshot α → List Var → Prop}
    {r : DynamicsResult δ α (List Var)} (shows : Shows pick r) {offered : Option (List Var)}
    (goesOn : r.1 = .ok ⟨false, offered⟩) (unrefused : r.2.2.Unrefused hooks tol)
    (flagged : r.2.2.Flagged) (presented : r.2.2.Upholds (.presented p)) :
    r.2.2.IsRunning ∨ ∃ plan d set, r.2.2.WaitsAt plan d ∧ d.focus.Listed p tol ∧
      offered = some set ∧ pick r.2.1 (d.snapshot plan) set := by
  obtain ⟨unfinished, shown, set, shown_eq, offered_eq, picked⟩ := shows offered goesOn
  refine (unfinished.running_or_waits flagged).imp_right fun ⟨plan, d, waits⟩ => ?_
  obtain ⟨same, focus⟩ := presented.of_waitsAt waits
  obtain ⟨serves, branchable⟩ := unrefused.branchable waits
  obtain rfl := Except.ok.inj (shown_eq.symm.trans (unrefused.snapshot_of_waitsAt waits))
  have listed := branchable.focus.listed focus serves.moderate
  rw [same, serves.tolerance_eq] at listed
  exact ⟨plan, d, set, waits, listed, offered_eq, picked⟩

/-- All variables of a node that the dynamics of branching can offer. -/
def BranchingDynamics.full (b : BranchingDynamics) (f : Focus α) : List Var :=
  if b.pseudoCandidates then f.pseudoCandidates else f.candidates

omit [Faithful α] in
/-- What it picks where the candidates of the node are listed. -/
theorem BranchingDynamics.Picks.spec {b : BranchingDynamics} {plan : Plan α} {d : Decision α}
    {set : List Var} (picks : b.Picks (d.snapshot plan) set) (listed : d.focus.Listed p tol) :
    d.focus.Offers p tol (b.full d.focus) ∧ set ⊆ b.full d.focus ∧ set.Pairwise (· < ·) ∧
      set.length = b.limit.elim (b.full d.focus).length (min · (b.full d.focus).length) := by
  obtain ⟨engine, actionSet, picked⟩ := picks
  have full_eq : ({ b with engine, actionSet }.weighted (d.snapshot plan)).1 = b.full d.focus := by
    unfold weighted full
    simp only
    split_ifs <;> rfl
  have sizes : ({ b with engine, actionSet }.weighted (d.snapshot plan)).2.length =
      ({ b with engine, actionSet }.weighted (d.snapshot plan)).1.length := by
    unfold weighted
    simp only
    split_ifs <;> exact List.length_map _
  have offers : d.focus.Offers p tol (b.full d.focus) := by
    unfold full
    split_ifs
    · exact listed.pseudoCandidates
    · exact listed.candidates
  have spec := candidates_spec _ sizes (full_eq ▸ offers.ascending) picked
  rw [full_eq] at spec
  exact ⟨offers, spec⟩

end

namespace Model

/-- Action sets are well formed in all episodes on a problem that is built, with whatever settings. An
outcome that is not done, unless it was given up while the solver ran, comes of a decision point where
the worker waits. There the candidates are the integral variables with values that are not whole within
the tolerance, each of them a pseudo-candidate, and the pseudo-candidates the ones that are not fixed;
both are not empty and in ascending order. What is offered is

* by branching, all of the one or of the other, or as many of them as the limit says, in the same
  order; a limit of zero, which would leave nothing, cannot be set;
* by branching on sums, all candidates;
* by primal search, all pseudo-candidates. -/
theorem actions_wellFormed {m : Model Float} (built : m.problem.Built)
    (configured : m.registry.Configured) :
    ∃ tol, m.registry.read .real "numerics/feastol" = .ok tol ∧
      (∀ r : DynamicsResult BranchingDynamics Float (List Var), Dynamics.Yields m r →
        ∀ offered, r.1 = .ok ⟨false, offered⟩ → r.2.2.IsRunning ∨ ∃ plan d set,
          r.2.2.WaitsAt plan d ∧ d.focus.Listed m.problem tol ∧ offered = some set ∧
          set ⊆ r.2.1.full d.focus ∧
          set.length = r.2.1.limit.elim (r.2.1.full d.focus).length
            (min · (r.2.1.full d.focus).length) ∧
          (r.2.1.limit ≠ some 0 → d.focus.Offers m.problem tol set) ∧
          (r.2.1.pseudoCandidates = false → ∀ v ∈ set,
            isWhole (d.focus.values.getD v 0) tol = false)) ∧
      (∀ r : DynamicsResult (SumBranchingDynamics Float) Float (List Var), Dynamics.Yields m r →
        ∀ offered, r.1 = .ok ⟨false, offered⟩ → r.2.2.IsRunning ∨ ∃ plan d,
          r.2.2.WaitsAt plan d ∧ d.focus.Listed m.problem tol ∧
          offered = some d.focus.candidates) ∧
      ∀ r : DynamicsResult PrimalSearchDynamics Float (List Var), Dynamics.Yields m r →
        ∀ offered, r.1 = .ok ⟨false, offered⟩ → r.2.2.IsRunning ∨ ∃ plan d,
          r.2.2.WaitsAt plan d ∧ d.focus.Listed m.problem tol ∧
          offered = some d.focus.pseudoCandidates := by
  obtain ⟨tol, integral⟩ := exists_integral built configured
  obtain ⟨tol', read_eq, rfl⟩ := integral.tolerance
  have kept := Law.presented_kept m.problem
  have idle : (Session.idle m : EpisodeSession Float).Upholds (.presented m.problem) := fun _ => rfl
  refine ⟨tol', read_eq, fun r yields offered goesOn => ?_, fun r yields offered goesOn => ?_,
    fun r yields offered goesOn => ?_⟩
  · have shows := yields.shows BranchingDynamics.reset_shows BranchingDynamics.step_shows
    have presented := yields.lasts BranchingDynamics.onlyCalls
      (Session.lasting_upholds kept fun order given => by
        rcases given with rfl | ⟨v, rfl⟩
        · exact Order.leave_upholds_presented
        · exact Order.resolve_upholds_presented _) idle
    have flagged := yields.lasts BranchingDynamics.onlyCalls (Session.lasting_flagged _) trivial
    have agrees : BranchingDynamics.Agrees tol' r.2.1 r.2.2 :=
      yields.keeps (BranchingDynamics.reset_agrees integral) fun _ _ a h => h.step a
    refine (shows.listed goesOn agrees.session flagged presented).imp_right ?_
    rintro ⟨plan, d, set, waits, listed, offered_eq, picked⟩
    obtain ⟨offers, subset, ascending, length_eq⟩ := picked.spec listed
    refine ⟨plan, d, set, waits, listed, offered_eq, subset, length_eq, fun positive => ?_,
      fun plain v hv => ?_⟩
    · refine offers.some_of (fun none => ?_) ascending subset
      have some_full := List.length_pos_of_ne_nil offers.nonempty
      rw [none, List.length_nil] at length_eq
      cases limit : r.2.1.limit with
      | none =>
        rw [limit, Option.elim_none] at length_eq
        omega
      | some k =>
        rw [limit, Option.elim_some] at length_eq
        have : k ≠ 0 := fun zero => positive (zero ▸ limit)
        omega
    · have candidate := subset hv
      rw [BranchingDynamics.full, plain] at candidate
      exact ((listed.mem_candidates v).mp candidate).2
  · have shows := yields.shows SumBranchingDynamics.reset_shows SumBranchingDynamics.step_shows
    have presented := yields.lasts SumBranchingDynamics.onlyCalls
      (Session.lasting_upholds kept fun order ⟨vars, given⟩ =>
        given ▸ Order.resolve_upholds_presented _) idle
    have flagged := yields.lasts SumBranchingDynamics.onlyCalls (Session.lasting_flagged _) trivial
    have agrees : SumBranchingDynamics.Agrees tol' r.2.1 r.2.2 :=
      yields.keeps (SumBranchingDynamics.reset_agrees integral) fun _ _ a h => h.step a
    refine (shows.listed goesOn agrees.session flagged presented).imp_right ?_
    rintro ⟨plan, d, set, waits, listed, offered_eq, rfl⟩
    exact ⟨plan, d, waits, listed, offered_eq⟩
  · have shows := yields.shows PrimalSearchDynamics.reset_shows PrimalSearchDynamics.step_shows
    have presented := yields.lasts PrimalSearchDynamics.onlyCalls
      (Session.lasting_upholds kept fun order ⟨b, a, given⟩ =>
        given ▸ PrimalSearchDynamics.order_upholds_presented b a) idle
    have flagged := yields.lasts PrimalSearchDynamics.onlyCalls (Session.lasting_flagged _) trivial
    have agrees : PrimalSearchDynamics.Agrees tol' r.2.1 r.2.2 :=
      yields.keeps (PrimalSearchDynamics.reset_agrees integral) fun _ _ a h => h.step a
    refine (shows.listed goesOn agrees flagged presented).imp_right ?_
    rintro ⟨plan, d, set, waits, listed, offered_eq, rfl⟩
    exact ⟨plan, d, waits, listed, offered_eq⟩

end Model

/-! ### An episode of branching on one of the candidates -/

/-- Whether an outcome of the dynamics of branching offers a variable and leaves the turn to the
controller. -/
def BranchingDynamics.offersFirst :
    DynamicsResult BranchingDynamics Float (List Var) → Bool
  | (.ok ⟨false, some [0]⟩, b, .controlled c _) => b.limit == some 1 && !c.cell.workerActive
  | _ => false

/-- A reset on the problem offers its variable, which is integral and not fixed. -/
theorem Model.single_offers : Problem.single.Built ∧ defaultRegistry.Configured ∧
    ∃ (tol : Float) (r : DynamicsResult BranchingDynamics Float (List Var)) (plan : Plan Float)
      (d : Decision Float), Dynamics.Yields (.ofProblem .single) r ∧
      r.1 = .ok ⟨false, some [0]⟩ ∧ r.2.2.WaitsAt plan d ∧ d.focus.Listed Problem.single tol ∧
      d.focus.Offers Problem.single tol [0] := by
  have configured : (ofProblem Problem.single).registry.Configured := by
    simp only [ofProblem, withRegistry]
    exact .default
  obtain ⟨tol, -, branching, -, -⟩ := actions_wellFormed Problem.single_built configured
  have yields := Dynamics.Yields.reset (m := .ofProblem .single)
    ({ limit := some 1 } : BranchingDynamics)
  have offers : BranchingDynamics.offersFirst (Dynamics.reset
      ({ limit := some 1 } : BranchingDynamics) (Session.idle (.ofProblem .single))) = true := by
    decide +kernel
  generalize Dynamics.reset ({ limit := some 1 } : BranchingDynamics)
    (Session.idle (.ofProblem .single)) = r at yields offers
  obtain ⟨result, b, s⟩ := r
  unfold BranchingDynamics.offersFirst at offers
  split at offers
  next b' c token eq =>
    cases eq
    rw [Bool.and_eq_true, beq_iff_eq, Bool.not_eq_true'] at offers
    obtain ⟨limit, inactive⟩ := offers
    rcases branching _ yields (some [0]) rfl with ⟨c', token', eq, active⟩ |
      ⟨plan, d, set, waits, listed, offered, -, -, offers, -⟩
    · cases eq
      cases inactive.symm.trans active
    · cases offered
      exact ⟨Problem.single_built, .default, tol, _, plan, d, yields, rfl, waits, listed,
        offers (by rw [limit]; decide)⟩
  next => cases offers

end Milp
