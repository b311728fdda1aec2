import Milp.Proofs.Episode.Ownership

/-!
# A model comes back at rest

A model whose solve is over, and which comes back from a channel or from a session, is at rest: it
can be copied and solved. This holds of each way for the solve to end, before the search or in it,
with a status or with an error (`Model.handed_back_at_rest`). The one exception is a crash in the
search, as that of an action at a decision point: it is caught by the worker and reported, but the
model remains in the middle of its solve (`Session.pair_left_solving`).
-/

namespace Milp

variable {α κ : Type}

/-- Whether a call tells of a crash: one that the worker has caught, or its own. -/
def Session.Answer.tellsCrash : Session.Answer α → Bool
  | .moved (.error (.solver (.panicked _))) | .solved (.error (.crash _)) => true
  | _ => false

variable [Scalar α]

/-- What the worker hands back after a failure that is no crash is at rest. -/
theorem Model.Left.atRest_of_calm {m₁ m : Model α} {cause : Failure (SolverError α)}
    (left : m₁.Left (.error cause) m) (idle : m₁.stage ≠ .solving)
    (calm : Session.Answer.tellsCrash (.moved (.error (.ofSolver (.ofFailure cause)))) = false) :
    m.AtRest := by
  apply left.atRest idle
  rintro c ⟨⟩
  cases calm

namespace Session

variable {m₀ m₁ : Model α} {s : Session α κ} {k k₀ : κ} {answers : List (Answer α)}

/-- A call that tells of no crash leaves a model at rest, if it was. -/
theorem Does.rests {steps : Nat} {call : Call α κ} {a : Answer α} {s' : Session α κ} {k' : κ}
    (does : s.Does m₁ steps call k (a, s', k')) (holds : s.Holds m₁) (idle : m₁.stage ≠ .solving)
    (calm : a.tellsCrash = false) : ∃ m₂, s'.Holds m₂ ∧ m₂.stage ≠ .solving := by
  cases does with
  | refused => exact ⟨m₁, holds, idle⟩
  | shows => exact ⟨m₁, holds, idle⟩
  | moves awaited settled =>
    cases settled with
    | suspended _ _ holds' => exact ⟨m₁, holds', idle⟩
    | ended _ _ left => exact ⟨_, .idle, (left.atRest idle (by simp)).stage_ne⟩
    | failed _ _ left => exact ⟨_, .idle, (left.atRest_of_calm idle calm).stage_ne⟩
  | solves =>
    refine ⟨_, .idle, Model.solveAlone_stage_ne idle ?_⟩
    intro c crashed
    rw [crashed] at calm
    cases calm

/-- After calls that tell of no crash a session holds a model at rest, or is at the solve of one. -/
theorem Comes.rests (run : Comes m₀ k₀ answers s k) (idle : m₀.stage ≠ .solving)
    (calm : ∀ a ∈ answers, a.tellsCrash = false) : ∃ m₁, s.Holds m₁ ∧ m₁.stage ≠ .solving := by
  induction run with
  | begin => exact ⟨m₀, .idle, idle⟩
  | call steps call _ returns ih =>
    obtain ⟨m₁, holds, idle₁⟩ := ih fun a mem => calm a (List.mem_append_left _ mem)
    exact (holds.does returns).rests holds idle₁
      (calm _ (List.mem_append_right _ (List.mem_singleton_self _)))

end Session

/-- A model whose solve is over comes back at rest, unless the search crashed. Take any model that
is not in the middle of a solve.

* However the worker of a channel and its controller take their steps: what was handed back is what
  some result of the solve has left of the model. Where the solve was over before it has searched,
  that is the model as it was; where it has searched, the model is solved, with the status of the
  result, or with an unknown one if the search failed. It remains in the middle of the solve if and
  only if the search crashed, and else it is at rest.
* Whatever the calls on a session are, if none of them tells of a crash: a model that is idle in it
  is at rest, and so is the one that comes back at its end. What ends a solve in between leaves of
  the model that was solved what the result of the solve says. -/
theorem Model.handed_back_at_rest {m₀ : Model α} (idle : m₀.stage ≠ .solving) :
    (∀ (id : Nat) (hooks : Hooks) (memory : κ) (s : System α κ),
      Relation.ReflTransGen System.Step (System.start id m₀ hooks memory) s →
      ∀ m, s.HandedBack m → ∃ result, .concluded (SolverError.ofResult? result) ∈ s.log ∧
        m₀.Left result m ∧
        (m.stage = .solving ↔ m₀.Searches ∧ ∃ c, result = .error (.crash c)) ∧
        ((∀ c, result ≠ .error (.crash c)) → m.AtRest)) ∧
    ∀ (k₀ : κ) (answers : List (Session.Answer α)) (s : Session α κ) (k : κ),
      Session.Comes m₀ k₀ answers s k → (∀ a ∈ answers, a.tellsCrash = false) →
      (∀ m, s = .idle m → m.AtRest) ∧
      (∃ m k', s.close k = (some m, k') ∧ m.AtRest) ∧
      ∃ m₁, s.Holds m₁ ∧ m₁.stage ≠ .solving ∧
        ∀ steps call, s.Returns steps call k → ∀ result s' k',
          s.perform steps call k = (.moved result, s', k') →
          (Session.Answer.moved result).OutOfSequence ∨
            ∃ c, Session.Settled m₁ c (result, s', k') := by
  constructor
  · intro id hooks memory s steps m back
    obtain ⟨result, concluded, left⟩ := (System.handsOver_of_steps steps).left m back
    exact ⟨result, concluded, left, left.stage_eq_solving_iff idle, left.atRest idle⟩
  · intro k₀ answers s k run calm
    obtain ⟨m₁, holds, idle₁⟩ := run.rests idle calm
    refine ⟨?_, ?_, m₁, holds, idle₁, ?_⟩
    · rintro m rfl
      cases holds
      exact atRest idle₁
    · obtain ⟨m, k', closes, ⟨-, rfl⟩ | ⟨-, status, left⟩⟩ := holds.close k
      · exact ⟨m, k', closes, atRest idle₁⟩
      · exact ⟨m, k', closes, left.atRest idle₁ (by simp)⟩
    · intro steps call returns result s' k' made
      have does := holds.does returns
      rw [made] at does
      cases does with
      | refused misstep out => exact .inl ⟨misstep, out⟩
      | shows fine unmoved =>
        rcases result with e | done
        · cases fine
        · cases unmoved
      | moves awaited settled => exact .inr ⟨_, settled⟩

namespace Session

/-- The session of the pair gives its model back at rest when it is ended at its first decision, and
whatever is handed back on a channel is what a result of the solve has left of the model. -/
theorem pair_handed_back : (Model.ofProblem .pair : Model Rat).stage ≠ .solving ∧
    (∃ m k', pairStarted.2.1.close pairStarted.2.2 = (some m, k') ∧ m.AtRest) ∧
    ∀ s m, Relation.ReflTransGen System.Step System.pair s → s.HandedBack m →
      ∃ result, .concluded (SolverError.ofResult? result) ∈ s.log ∧
        (Model.ofProblem .pair).Left result m := by
  have idle : (Model.ofProblem .pair : Model Rat).stage ≠ .solving := by
    simp [Model.ofProblem, Model.withRegistry]
  have calm : pairStarted.1.tellsCrash = false := by decide +kernel
  obtain ⟨channels, sessions⟩ := Model.handed_back_at_rest (κ := Unit) idle
  obtain ⟨-, closes, -⟩ := sessions () _ _ _ pair_comes (by simpa using calm)
  refine ⟨idle, closes, ?_⟩
  intro s m steps back
  obtain ⟨result, concluded, left, -⟩ := channels 1 { branching := true } () s steps m back
  exact ⟨result, concluded, left⟩

/-- After a crash at its first decision the model of the pair is idle and is still in the middle of
its solve, so that it can neither be copied nor solved. -/
theorem pair_left_solving : ∃ answers m k,
    Comes (.ofProblem .pair) () answers (.idle m : Session Rat Unit) k ∧ m.stage = .solving ∧
      m.copyProblem = .error (.invalidStage .solving .copyProblem) ∧
      m.solveAlone.2 = Attempt.fail (.invalidStage .solving .startSolve) := by
  have comes := pair_comes.call 100 _ pair_crashes
  have left : (pairCrashed.2.1.model.toOption.any (·.stage == .solving)) = true := by decide +kernel
  unfold pairCrashed at left
  generalize pairStarted.2.1.perform 100 (.resume (.crash "boom")) pairStarted.2.2 = crashed
    at comes left
  rcases crashed with ⟨a, ⟨m⟩ | _ | _, k⟩
  · have solving : m.stage = .solving := by simpa [Session.model, Except.toOption] using left
    refine ⟨_, m, k, comes, solving, ?_, ?_⟩
    · simp [Model.copyProblem, solving]
    · simp [Model.solveAlone, Model.solve, Model.opening, solving]
  · cases left
  · cases left

end Session
end Milp
