import Milp.Episode.Branching
import Milp.Proofs.Episode.Refusal
import Milp.Proofs.Random.Range

/-!
# Candidates that are offered are not refused

The dynamics of branching offers candidates of the snapshot, all of them or some that are sampled.
They are those of the decision point where the worker waits, so each of them can be branched on
there (`BranchingDynamics.Agrees`). Sampling never fails, since the fractionalities of finite values
are weights; if it did, the candidates of an earlier node would remain on offer.
-/

namespace Milp.BranchingDynamics

open Scalar

variable {α : Type} [Scalar α]

/-- What the sampling of candidates fails at is no refusal. -/
theorem candidates_unrefused (b : BranchingDynamics) (shown : Snapshot α) {e : EpisodeError α}
    (failed : (b.candidates shown).1 = .error e) : ¬e.IsRefusal := by
  unfold candidates at failed
  simp only at failed
  split at failed
  · cases failed
  · split_ifs at failed
    · split at failed
      · cases failed
        exact fun refusal => refusal
      · cases failed

variable [Faithful α] {tol : α} {plan : Plan α} {d : Decision α} {b : BranchingDynamics}
  {s : EpisodeSession α}

/-- Whether the candidates that are offered can be branched on where the worker waits. -/
structure Agrees (tol : α) (b : BranchingDynamics) (s : EpisodeSession α) : Prop where
  session : s.Unrefused { branching := true } tol
  offered : ∀ plan d, s.WaitsAt plan d → ∀ v ∈ b.actionSet.getD [],
    plan.branchingRefusal? d.focus v = none

/-- The weights of the candidates are finite and not negative. -/
theorem weights_regular (h : d.Branchable plan) :
    ∀ w ∈ (b.weighted (d.snapshot plan)).2, isFinite w = true ∧ ¬w < 0 := by
  have regular (v : Var) := fractionality_spec (h.focus.finite v)
  intro w hw
  unfold weighted at hw
  split_ifs at hw
  · obtain ⟨v, -, rfl⟩ := List.mem_map.mp hw
    have finite := regular v
    simp only [Decision.snapshot] at finite ⊢
    rw [Array.getD_eq_getD_getElem?] at finite
    cases value : d.focus.values[v]? with
    | none => exact ⟨Faithful.finite_zero, by
        rw [Option.map_none, Option.getD_none, Faithful.lt_iff Faithful.finite_zero
          Faithful.finite_zero]
        exact lt_irrefl _⟩
    | some x =>
      rw [value] at finite
      exact finite
  · obtain ⟨v, -, rfl⟩ := List.mem_map.mp hw
    exact regular v

/-- Candidates are always offered, and each of them can be branched on. -/
theorem exists_candidates (h : d.Branchable plan) (b : BranchingDynamics) :
    ∃ set b', b.candidates (d.snapshot plan) = (.ok set, b') ∧
      ∀ v ∈ set, plan.branchingRefusal? d.focus v = none := by
  have all : ∀ v ∈ (b.weighted (d.snapshot plan)).1, plan.branchingRefusal? d.focus v = none := by
    unfold weighted
    split_ifs
    · exact h.focus.pseudoCandidates
    · exact h.focus.candidates
  have length_eq : (b.weighted (d.snapshot plan)).2.length =
      (b.weighted (d.snapshot plan)).1.length := by
    unfold weighted
    split_ifs <;> exact List.length_map _
  unfold candidates
  simp only
  split
  · exact ⟨_, _, rfl, all⟩
  next k limited =>
    split_ifs with more
    · obtain ⟨picked, engine, chosen⟩ := Random.exists_choose Random.exponentialScalar
        (length_eq ▸ more.le) (weights_regular h) b.engine
      rw [chosen]
      refine ⟨_, _, rfl, fun v hv => ?_⟩
      obtain ⟨i, -, at_i⟩ := List.mem_filterMap.mp hv
      exact all v (List.mem_of_getElem? at_i)
    · exact ⟨_, _, rfl, all⟩

/-- Once the solve has moved, candidates are offered of the decision point that it came to. -/
theorem outcome_agrees (h : s.Unrefused { branching := true } tol) (done : Bool)
    (ended : done = true → ∀ plan d, ¬s.WaitsAt plan d) :
    (b.outcome s done).Keeps (Agrees tol) := by
  unfold outcome
  cases done with
  | true =>
    exact ⟨Attempt.not_reportsRefusal_ok _, h, fun plan d waits => absurd waits (ended rfl plan d)⟩
  | false =>
    simp only [Bool.false_eq_true, if_false]
    split
    next e failed =>
      refine ⟨Attempt.not_reportsRefusal_fail (Session.snapshot_unrefused failed), h,
        fun plan d waits => ?_⟩
      cases failed.symm.trans (h.snapshot_of_waitsAt waits)
    next shown snapshot_eq =>
      have seen : ∀ plan d, s.WaitsAt plan d → ∃ set b', b.candidates shown = (.ok set, b') ∧
          ∀ v ∈ set, plan.branchingRefusal? d.focus v = none := by
        intro plan d waits
        obtain rfl := Except.ok.inj (snapshot_eq.symm.trans (h.snapshot_of_waitsAt waits))
        exact exists_candidates (h.branchable waits).2 b
      split
      next e b' failed =>
        refine ⟨Attempt.not_reportsRefusal_fail ?_, h, fun plan d waits => ?_⟩
        · exact b.candidates_unrefused shown (congrArg Prod.fst failed)
        · obtain ⟨set, b'', eq, -⟩ := seen plan d waits
          cases failed.symm.trans eq
      next set b' offered =>
        refine ⟨Attempt.not_reportsRefusal_ok _, h, fun plan d waits => ?_⟩
        obtain ⟨set', b'', eq, fine⟩ := seen plan d waits
        cases offered.symm.trans eq
        exact fine

/-- A reset on an idle model. -/
theorem reset_agrees {m : Model α} (h : m.Integral tol) (b : BranchingDynamics) :
    (b.reset (.idle m)).Keeps (Agrees tol) := by
  have started := Session.accepted_start h { branching := true } ()
  unfold reset
  simp only
  split
  next e s' _ eq =>
    rw [eq] at started
    refine ⟨Attempt.not_reportsRefusal_fail (started.error e rfl), started.session, ?_⟩
    exact fun plan d _ => by simp
  next done s' _ eq =>
    rw [eq] at started
    exact outcome_agrees started.session done fun ended => started.nobody (by simp [ended])

/-- A step. An action that is accepted is acceptable to the solver as well. -/
theorem Agrees.step (h : Agrees tol b s) (action : BranchAction) :
    (b.step s action).Keeps (Agrees tol) := by
  unfold BranchingDynamics.step
  split_ifs
  · exact ⟨Attempt.not_reportsRefusal_fail id, h⟩
  · split
    next e rejected =>
      refine ⟨Attempt.not_reportsRefusal_fail ?_, h⟩
      cases action with
      | bySolver => cases rejected
      | onVariable v =>
        rw [check] at rejected
        split_ifs at rejected
        cases rejected
        exact id
    next order accepted =>
      have resumed := h.session.resume order () fun plan d waits => by
        obtain ⟨serves, branchable⟩ := h.session.branchable waits
        cases action with
        | bySolver =>
          cases accepted
          exact Order.acceptable_leave plan d
        | onVariable v =>
          rw [check] at accepted
          split_ifs at accepted with listed
          cases accepted
          refine Order.acceptable_resolve ⟨?_, some (.onVariable v), ?_⟩
          · rw [branchable.point_eq_branching serves.hooks_eq]
            rfl
          · rw [Plan.splitOf, h.offered plan d waits v (by simpa using listed)]
      split
      next e s' _ eq =>
        rw [eq] at resumed
        exact ⟨Attempt.not_reportsRefusal_fail (resumed.error e rfl), resumed.session,
          fun plan d waits => absurd waits (resumed.nobody nofun plan d)⟩
      next done s' _ eq =>
        rw [eq] at resumed
        exact outcome_agrees resumed.session done fun ended => resumed.nobody (by simp [ended])

end Milp.BranchingDynamics
