import Milp.Proofs.Episode.Agreement

/-!
# Invalid actions are harmless

A dynamics judges an action by its own state and by what the solver shows, before it resumes the
solve. So an action that is not valid moves neither of them (`Dynamics.JudgesFirst`), whatever rule
of validity it breaks, and what is tried after it goes as if it had not been tried. In a whole row of
actions, the ones that are not valid can be left out (`Dynamics.JudgesFirst.play_valid`).

That nothing moved has to be read off the error alone. It can, since nothing that goes wrong once the
solve is resumed is reported as an invalid action.
-/

namespace Milp

/-! ### Errors -/

section

variable {α : Type}

/-- Whether an error says that an action is not valid. -/
def EpisodeError.isInvalidAction : EpisodeError α → Bool
  | .invalidAction _ => true
  | _ => false

/-- Whether a reset or a step fails because the action is not valid. -/
def Attempt.isInvalidAction {β : Type} : Attempt (EpisodeError α) β → Bool
  | .error (.error e) => e.isInvalidAction
  | _ => false

@[simp]
theorem Attempt.isInvalidAction_fail {β : Type} (e : EpisodeError α) :
    (Attempt.fail e : Attempt (EpisodeError α) β).isInvalidAction = e.isInvalidAction := rfl

/-- No error of the solver does. -/
theorem EpisodeError.isInvalidAction_ofSolver (e : SolverError α) :
    (ofSolver e).isInvalidAction = false := by
  cases e <;> rfl

/-- Nor does one of the channel. -/
theorem EpisodeError.isInvalidAction_ofControl (e : ControlError α) :
    (ofControl e).isInvalidAction = false := by
  cases e with
  | solver cause => exact isInvalidAction_ofSolver cause
  | _ => rfl

end

namespace Session

variable {α κ : Type} [Scalar α] {s : Session α κ} {e : EpisodeError α}

/-- A snapshot does not fail because of an action. -/
theorem isInvalidAction_snapshot (failed : s.snapshot = .error e) : e.isInvalidAction = false := by
  cases s with
  | idle m => cases failed
  | controlled c token =>
    rw [snapshot] at failed
    cases shown : c.state token with
    | ok shown' =>
      rw [shown] at failed
      cases failed
    | error cause =>
      rw [shown] at failed
      cases failed
      exact EpisodeError.isInvalidAction_ofControl cause
  | vacant =>
    cases failed
    rfl

/-- Neither does a wait for the next decision. -/
theorem isInvalidAction_settle {c : Channel α κ} {waited : Except (ControlError α) Token} {k : κ}
    (failed : (settle c waited k).1 = .error e) : e.isInvalidAction = false := by
  unfold settle at failed
  simp only at failed
  split at failed
  · cases failed
  · split at failed
    · cases failed
    · cases failed
      exact EpisodeError.isInvalidAction_ofControl _
  · cases failed
    exact EpisodeError.isInvalidAction_ofControl _

/-- Nor does the solve once it is resumed. -/
theorem isInvalidAction_resume {order : Order α κ} {k : κ} {steps : Nat}
    (failed : (s.resume order k steps).1 = .error e) : e.isInvalidAction = false := by
  cases s with
  | controlled c token =>
    unfold resume at failed
    simp only at failed
    split at failed
    · cases failed
      exact EpisodeError.isInvalidAction_ofControl _
    · exact isInvalidAction_settle failed
  | idle m =>
    cases failed
    rfl
  | vacant =>
    cases failed
    rfl

end Session

/-! ### Rows of actions -/

namespace Dynamics

section

variable {α δ action β : Type} [Dynamics α δ action β]

/-- What steps with a row of actions lead to one after the other, and the dynamics and the session
after them. -/
def play : List action → δ → EpisodeSession α →
    List (Attempt (EpisodeError α) (DynamicsOutcome β)) × δ × EpisodeSession α
  | [], b, s => ([], b, s)
  | a :: rest, b, s =>
    let (result, b, s) := Dynamics.step b s a
    let (results, last) := play rest b s
    (result :: results, last)

/-- The actions of a row that are valid where they are taken. -/
def valid : List action → δ → EpisodeSession α → List action
  | [], _, _ => []
  | a :: rest, b, s =>
    let (result, b, s) := Dynamics.step b s a
    if result.isInvalidAction then valid rest b s else a :: valid rest b s

variable (α δ) in
/-- Whether a dynamics judges an action before it does anything: if it calls one invalid, then the
solve is suspended, and the dynamics and the session, with the decision point and all that is shown of
it, are what they were. -/
def JudgesFirst : Prop :=
  ∀ (b : δ) (s : EpisodeSession α) (a : action), (Dynamics.step b s a).1.isInvalidAction = true →
    s.isSuspended = true ∧ (Dynamics.step b s a).2 = (b, s)

namespace JudgesFirst

/-- After an invalid action everything goes as without it. -/
theorem play_after (h : JudgesFirst α δ) {b : δ} {s : EpisodeSession α} {a : action}
    (invalid : (Dynamics.step b s a).1.isInvalidAction = true) (rest : List action) :
    play rest (Dynamics.step b s a).2.1 (Dynamics.step b s a).2.2 = play rest b s := by
  rw [(h b s a invalid).2]

/-- The invalid actions of a row can be left out. -/
theorem play_valid (h : JudgesFirst α δ) (as : List action) (b : δ) (s : EpisodeSession α) :
    play (valid as b s) b s =
      ((play as b s).1.filter fun result => !result.isInvalidAction, (play as b s).2) := by
  induction as generalizing b s with
  | nil => rfl
  | cons a rest ih =>
    cases judged : (Dynamics.step b s a).1.isInvalidAction with
    | true =>
      have leaves_out : valid (a :: rest) b s =
          valid rest (Dynamics.step b s a).2.1 (Dynamics.step b s a).2.2 := if_pos judged
      rw [leaves_out, (h b s a judged).2, ih, play]
      simp only
      rw [List.filter_cons_of_neg (by simp [judged]), h.play_after judged]
    | false =>
      have keeps : valid (a :: rest) b s =
          a :: valid rest (Dynamics.step b s a).2.1 (Dynamics.step b s a).2.2 :=
        if_neg (Bool.eq_false_iff.mp judged)
      rw [keeps, play, play]
      simp only [ih]
      rw [List.filter_cons_of_pos (by simp [judged])]

end JudgesFirst

variable (α δ) in
/-- Whether invalid actions do no harm in the episodes of a dynamics. Any actions after one that is
rejected have the results, and lead to the dynamics and the session, that they would have had and led
to without it. The actions of a row that are not rejected do not need the others. -/
structure Unharmed : Prop where
  judgesFirst : JudgesFirst α δ
  after : ∀ (b : δ) (s : EpisodeSession α) (a : action),
    (Dynamics.step b s a).1.isInvalidAction = true → ∀ rest : List action,
      play rest (Dynamics.step b s a).2.1 (Dynamics.step b s a).2.2 = play rest b s
  among : ∀ (as : List action) (b : δ) (s : EpisodeSession α),
    play (valid as b s) b s =
      ((play as b s).1.filter fun result => !result.isInvalidAction, (play as b s).2)

/-- No action does harm to a dynamics that judges it first. -/
theorem JudgesFirst.unharmed (h : JudgesFirst α δ) : Unharmed α δ where
  judgesFirst := h
  after _ _ _ := h.play_after
  among := h.play_valid

end

end Dynamics

/-! ### The dynamics -/

section

variable {α : Type} [Scalar α]

namespace BranchingDynamics

/-- Sampling does not fail because of an action. -/
theorem isInvalidAction_candidates {b : BranchingDynamics} {shown : Snapshot α} {e : EpisodeError α}
    (failed : (b.candidates shown).1 = .error e) : e.isInvalidAction = false := by
  unfold candidates at failed
  simp only at failed
  split at failed
  · cases failed
  · split_ifs at failed
    · split at failed
      · cases failed
        rfl
      · cases failed

/-- Nor does anything else once the solve has moved. -/
theorem isInvalidAction_outcome (b : BranchingDynamics) (s : EpisodeSession α) (done : Bool) :
    (b.outcome s done).1.isInvalidAction = false := by
  unfold outcome
  split_ifs
  · rfl
  · split
    next failed => exact Session.isInvalidAction_snapshot failed
    next shown _ =>
      split
      next failed => exact isInvalidAction_candidates (congrArg Prod.fst failed)
      next => rfl

/-- The candidate is looked up before the solve is resumed. -/
theorem judgesFirst : Dynamics.JudgesFirst α BranchingDynamics := by
  intro b s a invalid
  change (b.step s a).1.isInvalidAction = true at invalid
  change _ ∧ (b.step s a).2 = (b, s)
  cases suspended : s.isSuspended with
  | false =>
    rw [step, suspended] at invalid
    cases invalid
  | true =>
    refine ⟨rfl, ?_⟩
    unfold step at invalid ⊢
    simp only [suspended, Bool.not_true, Bool.false_eq_true, if_false] at invalid ⊢
    split at invalid
    next => rfl
    next order _ =>
      split at invalid
      next failed =>
        have valid := Session.isInvalidAction_resume (congrArg Prod.fst failed)
        simp [valid] at invalid
      next =>
        simp [isInvalidAction_outcome] at invalid

end BranchingDynamics

namespace SumBranchingDynamics

/-- Nothing fails because of an action once the solve has moved. -/
theorem isInvalidAction_outcome (b : SumBranchingDynamics α) (s : EpisodeSession α) (done : Bool) :
    (b.outcome s done).1.isInvalidAction = false := by
  unfold outcome
  split_ifs
  · rfl
  · split
    next failed => exact Session.isInvalidAction_snapshot failed
    next => rfl

/-- The sum is judged before the solve is resumed. -/
theorem judgesFirst : Dynamics.JudgesFirst α (SumBranchingDynamics α) := by
  intro b s a invalid
  change (b.step s a).1.isInvalidAction = true at invalid
  change _ ∧ (b.step s a).2 = (b, s)
  cases suspended : s.isSuspended with
  | false =>
    rw [step, suspended] at invalid
    cases invalid
  | true =>
    refine ⟨rfl, ?_⟩
    unfold step at invalid ⊢
    simp only [suspended, Bool.not_true, Bool.false_eq_true, if_false] at invalid ⊢
    split at invalid
    next => rfl
    next =>
      split at invalid
      next failed =>
        have valid := Session.isInvalidAction_resume (congrArg Prod.fst failed)
        simp [valid] at invalid
      next =>
        simp [isInvalidAction_outcome] at invalid

end SumBranchingDynamics

namespace PrimalSearchDynamics

/-- Nothing fails because of an action once the solve has moved. -/
theorem isInvalidAction_outcome (b : PrimalSearchDynamics) (s : EpisodeSession α) (done : Bool) :
    (b.outcome s done).1.isInvalidAction = false := by
  unfold outcome
  split_ifs
  · rfl
  · split
    next failed => exact Session.isInvalidAction_snapshot failed
    next => rfl

/-- Not after a trial either. -/
theorem isInvalidAction_afterTrial (b : PrimalSearchDynamics) (node : Nat) (s : EpisodeSession α)
    (done : Bool) : (b.afterTrial node s done).1.isInvalidAction = false := by
  unfold afterTrial
  split_ifs
  · exact isInvalidAction_outcome _ _ _
  · split
    next failed => exact Session.isInvalidAction_snapshot failed
    next =>
      split
      next failed =>
        have valid := isInvalidAction_outcome b.spend s false
        rw [failed] at valid
        exact valid
      next => rfl

/-- The assignment is judged by the number of variables before the solve is resumed. -/
theorem judgesFirst : Dynamics.JudgesFirst α PrimalSearchDynamics := by
  intro b s a invalid
  change (b.step s a).1.isInvalidAction = true at invalid
  change _ ∧ (b.step s a).2 = (b, s)
  cases suspended : s.isSuspended with
  | false =>
    rw [step, suspended] at invalid
    cases invalid
  | true =>
    refine ⟨rfl, ?_⟩
    unfold step at invalid ⊢
    simp only [suspended, Bool.not_true, Bool.false_eq_true, if_false] at invalid ⊢
    split at invalid
    next failed => rfl
    next shown _ =>
      split at invalid
      next => rfl
      next =>
        split at invalid
        next failed =>
          have valid := Session.isInvalidAction_resume (congrArg Prod.fst failed)
          simp [valid] at invalid
        next =>
          simp [isInvalidAction_afterTrial] at invalid

end PrimalSearchDynamics

/-- Invalid actions are harmless in all episodes, in whatever state the dynamics and the session are. A
candidate that is not offered, a set of variables without a fractional sum and an assignment that
makes no sense are rejected with the solve suspended where it was and nothing changed. Whatever
follows goes as if they had not been tried. -/
theorem Dynamics.invalidAction_harmless :
    Dynamics.Unharmed α BranchingDynamics ∧ Dynamics.Unharmed α (SumBranchingDynamics α) ∧
      Dynamics.Unharmed α PrimalSearchDynamics :=
  ⟨BranchingDynamics.judgesFirst.unharmed, SumBranchingDynamics.judgesFirst.unharmed,
    PrimalSearchDynamics.judgesFirst.unharmed⟩

end

/-- At the first decision on the problem, a variable that does not exist, the empty sum and an assignment
without a value for its variable are invalid. They leave the solve suspended and change nothing. -/
theorem Dynamics.single_invalidAction_harmless :
    (∃ (b : BranchingDynamics) (s : EpisodeSession Float), Dynamics.Comes (.ofProblem .single) b s ∧
      (Dynamics.step b s (.onVariable 1)).1.isInvalidAction = true ∧
      s.isSuspended = true ∧ (Dynamics.step b s (.onVariable 1)).2 = (b, s)) ∧
    (∃ (b : SumBranchingDynamics Float) (s : EpisodeSession Float),
      Dynamics.Comes (.ofProblem .single) b s ∧
      (Dynamics.step b s []).1.isInvalidAction = true ∧
      s.isSuspended = true ∧ (Dynamics.step b s []).2 = (b, s)) ∧
    (∃ (b : PrimalSearchDynamics) (s : EpisodeSession Float),
      Dynamics.Comes (.ofProblem .single) b s ∧
      (Dynamics.step b s ⟨[0], []⟩).1.isInvalidAction = true ∧
      s.isSuspended = true ∧ (Dynamics.step b s ⟨[0], []⟩).2 = (b, s)) := by
  obtain ⟨branching, sums, primal⟩ := invalidAction_harmless (α := Float)
  refine ⟨⟨_, _, .reset {}, ?invalid, branching.judgesFirst _ _ _ ?invalid⟩,
    ⟨_, _, .reset .initial, ?invalidSum, sums.judgesFirst _ _ _ ?invalidSum⟩,
    ⟨_, _, .reset { trials := 2, schedule := {} }, ?invalidTrial,
      primal.judgesFirst _ _ _ ?invalidTrial⟩⟩
  all_goals decide +kernel

end Milp
