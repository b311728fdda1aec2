import Milp.Proofs.Search.Opening

/-!
# What a solve leaves of its model

A solve is over before it has searched, and the model is what it was, or it searches, and the stage
of the model afterwards tells how the search ended (`Model.Closed`): after a status and after an
error the model is solved, after a crash it remains in the middle of the solve.

A model that is not in the middle of a solve is at rest (`Model.atRest`): it can be copied and it
can be solved. That nothing but the stage of a model makes a solve report a misplaced call is shown
for the settings (`Settings.read_ofSettings`), for a turn of the search (`Plan.advance_placed`,
`Plan.answer_placed`) and for the whole of it (`Plan.drive_placed`).
-/

namespace Milp

variable {α : Type}

/-! ### Kinds of failures -/

/-- Whether an attempt fails because a model is at the wrong stage. -/
def Attempt.IsMisplaced {β : Type} (x : Attempt (SolverError α) β) : Prop :=
  ∃ stage operation, x = Attempt.fail (.invalidStage stage operation)

/-- Whether a failure can come from settings that cannot be read. -/
def Failure.OfSettings : Failure (SolverError α) → Prop
  | .error (.param _) | .error (.invalidSetting ..) | .crash _ => True
  | .error _ => False

/-- Whether an attempt fails, if at all, because of settings that cannot be read. -/
def Attempt.FailsBySettings {β : Type} (x : Attempt (SolverError α) β) : Prop :=
  ∀ cause, x = .error cause → cause.OfSettings

/-- Attempts in a row fail by settings if each of them does. -/
theorem Attempt.FailsBySettings.bind {β γ : Type} {x : Attempt (SolverError α) β}
    {f : β → Attempt (SolverError α) γ} (hx : x.FailsBySettings)
    (hf : ∀ b, (f b).FailsBySettings) : (x >>= f).FailsBySettings := by
  rcases x with cause | b
  · rintro _ ⟨⟩
    exact hx cause rfl
  · exact hf b

namespace Settings

/-- A parameter that cannot be read is a setting. -/
theorem content_ofSettings (r : Registry) (t : ParamType) (name : String) :
    (content (α := α) r t name).FailsBySettings := by
  intro cause failed
  unfold content at failed
  split at failed <;> cases failed
  trivial

/-- A character that stands for nothing is a setting. -/
theorem selected_ofSettings {β : Type} (r : Registry) (name : String)
    (ofChar? : Char → Option β) : (selected (α := α) r name ofChar?).FailsBySettings := by
  refine .bind (content_ofSettings r .char name) fun c cause failed => ?_
  split at failed <;> cases failed
  trivial

/-- A time limit that is out of range is a setting. -/
theorem timeLimit?_ofSettings (seconds : Float) :
    (timeLimit? (α := α) seconds).FailsBySettings := by
  intro cause failed
  unfold timeLimit? at failed
  split at failed
  · split at failed <;> cases failed
    trivial
  · cases failed

/-- Reading the settings fails at one of them. -/
theorem read_ofSettings [Scalar α] (r : Registry) : (read (α := α) r).FailsBySettings := by
  unfold read
  iterate 3 refine .bind (content_ofSettings _ _ _) fun _ => ?_
  iterate 2 refine .bind (selected_ofSettings _ _ _) fun _ => ?_
  refine .bind (timeLimit?_ofSettings _) fun _ => ?_
  iterate 8 refine .bind (content_ofSettings _ _ _) fun _ => ?_
  rintro cause ⟨⟩

end Settings

/-! ### Searches -/

/-- Whether a turn has not failed because a model is at the wrong stage. -/
def Turn.Placed : Turn α → Prop
  | .failed (.error (.invalidStage ..)) _ => False
  | _ => True

namespace Plan

variable [Scalar α] (plan : Plan α)

/-- Whoever offers a branching has not failed. -/
theorem offerBranching_placed (s : Search α) (f : Focus α) : (plan.offerBranching s f).Placed := by
  unfold offerBranching
  split <;> trivial

/-- So has whoever offers the first decision at a node. -/
theorem offer_placed (s : Search α) (f : Focus α) : (plan.offer s f).Placed := by
  unfold offer
  split
  · trivial
  · exact plan.offerBranching_placed s f

/-- A search does not fail because of a stage at a node that has an optimum. -/
theorem explore_placed (s : Search α) (node : Node α) (box : Box α) (bound : α)
    (values : Array α) : (plan.explore s node box bound values).Placed := by
  unfold explore
  simp only
  split
  · trivial
  · split
    · trivial
    · exact plan.offer_placed _ _

/-- A search does not fail because of a stage at any node. -/
theorem visit_placed (s : Search α) (node : Node α) : (plan.visit s node).Placed := by
  unfold visit
  simp only
  split
  · trivial
  · split
    · trivial
    · trivial
    · exact plan.explore_placed _ _ _ _ _

/-- A search does not fail because of a stage where it goes on by itself. -/
theorem advance_placed (s : Search α) : (plan.advance s).Placed := by
  unfold advance
  split
  · trivial
  · split
    · trivial
    · simp only
      split
      · trivial
      · exact plan.visit_placed _ _

/-- What a choice names is refused for other reasons. -/
theorem splitOf_placed (f : Focus α) (choice : Choice) (stage : Stage)
    (operation : StageOperation) : plan.splitOf f choice ≠ .error (.invalidStage stage operation) := by
  have sums : ∀ (vs seen : List Var) (sum : α),
      plan.branchingSum f seen vs sum ≠ .error (.invalidStage stage operation) := by
    intro vs
    induction vs with
    | nil => simp [branchingSum]
    | cons v vs ih =>
      intro seen sum
      unfold branchingSum
      split
      · simp
      · split_ifs
        · simp
        · exact ih _ _
  intro failed
  unfold splitOf at failed
  split at failed
  · split at failed <;> cases failed
  · cases failed
  next vs _ =>
    cases summed : plan.branchingSum f [] vs 0 with
    | error e =>
      simp only [summed, bind, Except.bind] at failed
      cases failed
      exact sums vs [] 0 summed
    | ok sum =>
      simp only [summed, bind, Except.bind] at failed
      split_ifs at failed <;> cases failed
  · cases failed

/-- A search does not fail because of a stage where it goes on with a choice. -/
theorem answer_placed (d : Decision α) (choice : Choice) : (plan.answer d choice).Placed := by
  unfold answer
  split_ifs
  · trivial
  · trivial
  · split
    next e failed =>
      cases e with
      | invalidStage stage operation =>
        exact absurd failed (plan.splitOf_placed d.focus choice stage operation)
      | _ => trivial
    next split? _ =>
      unfold settle
      simp only
      split
      · trivial
      · split_ifs
        · trivial
        · split
          · exact plan.offerBranching_placed _ _
          · split <;> trivial

/-- A search fails because of a stage at a decision point only if its handler says so. -/
theorem resolve_placed (d : Decision α) {reply : Attempt (SolverError α) Choice}
    (allowed : ¬reply.IsMisplaced) : (plan.resolve d reply).Placed := by
  match reply with
  | .ok choice => exact plan.answer_placed d choice
  | .error (.crash c) => trivial
  | .error (.error e) =>
    cases e with
    | invalidStage stage operation => exact absurd ⟨stage, operation, rfl⟩ allowed
    | _ => trivial

/-- A search fails because of a stage only if its handler says so. -/
theorem drive_placed {κ : Type} {handler : Handler α κ}
    (replies : ∀ plan d k, ¬(handler plan d k).1.IsMisplaced) (turns : Nat) {turn : Turn α}
    (h : turn.Placed) (k : κ) : (plan.drive handler turns turn k).1.Placed := by
  induction turns generalizing turn k with
  | zero => exact h
  | succ turns ih =>
    match turn with
    | .proceed s => exact ih (plan.advance_placed s) k
    | .ask d =>
      have allowed := replies plan d k
      unfold drive
      simp only
      generalize handler plan d k = made at allowed ⊢
      exact ih (plan.resolve_placed made.2.1 allowed) made.2.2
    | .ended .. => exact h
    | .failed .. => exact h

end Plan

/-! ### Models -/

namespace Model

variable [Scalar α] {m m₀ : Model α} {result : Attempt (SolverError α) SolveStatus}

/-- Whether a model is at rest: it can be copied, and no solve of it will be refused for its stage,
unless the handler of the solve says so itself. -/
structure AtRest (m : Model α) : Prop where
  stage_ne : m.stage ≠ .solving
  copies : ∃ copy, m.copyProblem = .ok copy
  solves : ∀ {κ : Type} (handler : Handler α κ) (k : κ),
    (∀ plan d k, ¬(handler plan d k).1.IsMisplaced) → ¬(m.solve handler k).result.IsMisplaced

/-- How the stage of a model tells how its search ended. -/
def Closed (m : Model α) : Attempt (SolverError α) SolveStatus → Prop
  | .ok status => m.stage = .solved ∧ m.status = status
  | .error (.error _) => m.stage = .solved ∧ m.status = .unknown
  | .error (.crash _) => m.stage = .solving

omit [Scalar α] in
/-- The stage of a model that is closed tells how its search ended. -/
theorem closed_close (m : Model α) (turn : Turn α) : (m.close turn).1.Closed (m.close turn).2 := by
  rcases turn with _ | _ | _ | ⟨_ | _, _⟩
  · rfl
  · rfl
  · exact ⟨rfl, rfl⟩
  · exact ⟨rfl, rfl⟩
  · rfl

/-- Whether a model has the problem and the parameters of another one. -/
structure SameInput (m m' : Model α) : Prop where
  problem_eq : m'.problem = m.problem
  registry_eq : m'.registry = m.registry

omit [Scalar α] in
/-- A model has its own problem and parameters. -/
theorem SameInput.refl (m : Model α) : m.SameInput m := ⟨rfl, rfl⟩

omit [Scalar α] in
/-- The problem and the parameters remain the same from one model to the next. -/
theorem SameInput.trans {m m' m'' : Model α} (h : m.SameInput m') (h' : m'.SameInput m'') :
    m.SameInput m'' :=
  ⟨h'.problem_eq.trans h.problem_eq, h'.registry_eq.trans h.registry_eq⟩

omit [Scalar α] in
/-- The problem and the parameters of a model remain the same when it is closed. -/
theorem sameInput_close (m : Model α) (turn : Turn α) : m.SameInput (m.close turn).1 := by
  rcases turn with _ | _ | _ | ⟨_ | _, _⟩ <;> exact ⟨rfl, rfl⟩

omit [Scalar α] in
/-- A model that is closed reports a misplaced call only if the search has failed by one. -/
theorem close_placed (m : Model α) {turn : Turn α} (h : turn.Placed) :
    ¬(m.close turn).2.IsMisplaced := by
  rintro ⟨stage, operation, eq⟩
  rcases turn with _ | _ | _ | ⟨e | c, s⟩ <;> cases eq
  exact h

/-- A model that is not in the middle of a solve is at rest. -/
theorem atRest (idle : m.stage ≠ .solving) : m.AtRest where
  stage_ne := idle
  copies := ⟨_, if_neg idle⟩
  solves handler k replies := by
    unfold solve
    split
    next result ended =>
      unfold opening at ended
      split at ended
      · cases ended
        rintro ⟨stage, operation, ⟨⟩⟩
      next solving => exact absurd solving idle
      · split at ended
        next cause unread =>
          cases ended
          rintro ⟨stage, operation, eq⟩
          cases eq
          exact (Settings.read_ofSettings m.registry _ unread)
        next => cases ended
    next plan turn entered =>
      obtain ⟨-, settings, -, rfl, rfl⟩ := opening_entered entered
      have placed : (Turn.proceed (Search.start (.ofSettings m.problem settings m.hooks m.clock)
          m.stats m.incumbent m.interrupted)).Placed := trivial
      exact m.close_placed (Plan.drive_placed _ replies patience placed k)

/-- The problem and the parameters of a model remain the same when it is solved. -/
theorem sameInput_solveAlone (m : Model α) : m.SameInput m.solveAlone.1 := by
  unfold solveAlone solve
  simp only
  split
  · exact .refl m
  · exact m.sameInput_close _

/-- A solve without a handler that does not crash leaves a model that is not in the middle of it. -/
theorem solveAlone_stage_ne (idle : m.stage ≠ .solving)
    (returned : ∀ c, m.solveAlone.2 ≠ .error (.crash c)) : m.solveAlone.1.stage ≠ .solving := by
  unfold solveAlone solve at returned ⊢
  simp only at returned ⊢
  split at returned
  · exact idle
  next plan turn entered =>
    simp only at returned ⊢
    generalize plan.drive Handler.passive patience turn () = driven at returned ⊢
    have closed := m.closed_close driven.1
    intro solving
    rcases result_eq : (m.close driven.1).2 with ⟨e | c⟩ | status
    · rw [result_eq] at closed
      cases solving.symm.trans closed.1
    · exact returned c result_eq
    · rw [result_eq] at closed
      cases solving.symm.trans closed.1

/-! ### Handing a model over -/

/-- How a solve with a callback can be over before it has searched. -/
inductive Unsearched (m : Model α) : Attempt (SolverError α) SolveStatus → Prop
  /-- Another callback is there already. -/
  | installed (installed : m.hooks.isSome = true) : Unsearched m (Attempt.fail .callbackInstalled)
  /-- The model is solved already. -/
  | solved (bare : m.hooks = none) (solved : m.stage = .solved) : Unsearched m (.ok m.status)
  /-- Another solve is in progress. -/
  | misplaced (bare : m.hooks = none) (solving : m.stage = .solving) :
    Unsearched m (Attempt.fail (.invalidStage .solving .startSolve))
  /-- The settings are rejected. -/
  | rejected {cause : Failure (SolverError α)} (bare : m.hooks = none) (fresh : m.stage = .problem)
    (rejected : Settings.read (α := α) m.registry = .error cause) (ofSettings : cause.OfSettings) :
    Unsearched m (.error cause)

/-- Whether a solve with a callback gets to search. -/
structure Searches (m : Model α) : Prop where
  bare : m.hooks = none
  fresh : m.stage = .problem
  accepted : ∃ settings : Settings α, Settings.read m.registry = .ok settings

/-- What a solve of the model `m₀` with a callback leaves of it, without the callback. -/
inductive Left (m₀ : Model α) (result : Attempt (SolverError α) SolveStatus) (m : Model α) : Prop
  /-- The solve was over before it has searched. -/
  | unsearched (ended : m₀.Unsearched result) (same : m = m₀.uninstall)
  /-- The solve has searched. -/
  | searched (searches : m₀.Searches) (same : m₀.SameInput m) (bare : m.hooks = none)
    (closed : m.Closed result)

/-- Where a solve with a callback is over at once, it was over before it has searched. -/
theorem unsearched_of_over (bare : m.hooks = none) {hooks : Hooks}
    (ended : opening { m with hooks := some hooks } = .over result) : m.Unsearched result := by
  unfold opening at ended
  simp only at ended
  split at ended
  next solved =>
    cases ended
    exact .solved bare solved
  next solving =>
    cases ended
    exact .misplaced bare solving
  next fresh =>
    split at ended <;> cases ended
    next rejected => exact .rejected bare fresh rejected (Settings.read_ofSettings _ _ rejected)

/-- Where a search is entered, the solve gets to search. -/
theorem searches_of_entered (bare : m.hooks = none) {hooks : Hooks} {plan : Plan α} {turn : Turn α}
    (entered : opening { m with hooks := some hooks } = .entered plan turn) : m.Searches := by
  obtain ⟨fresh, settings, accepted, -⟩ := opening_entered entered
  exact ⟨bare, fresh, settings, accepted⟩

namespace Left

variable (h : m₀.Left result m)

include h

/-- A model that is handed over has the problem and the parameters that it had. -/
theorem sameInput : m₀.SameInput m := by
  rcases h with ⟨-, rfl⟩ | ⟨-, same, -, -⟩
  · exact ⟨rfl, rfl⟩
  · exact same

/-- A model that is handed over has no callback. -/
theorem bare : m.hooks = none := by
  rcases h with ⟨-, rfl⟩ | ⟨-, -, bare, -⟩
  · rfl
  · exact bare

/-- A model is left in the middle of its solve by a crash of the search and by nothing else. -/
theorem stage_eq_solving_iff (idle : m₀.stage ≠ .solving) :
    m.stage = .solving ↔ m₀.Searches ∧ ∃ c, result = .error (.crash c) := by
  rcases h with ⟨ended, rfl⟩ | ⟨searches, -, -, closed⟩
  · constructor
    · intro solving
      exact absurd solving idle
    · rintro ⟨searches, c, rfl⟩
      -- the settings were rejected and accepted
      rcases ended with _ | _ | _ | ⟨-, -, rejected, -⟩
      obtain ⟨settings, accepted⟩ := searches.accepted
      cases rejected.symm.trans accepted
  · rcases result with ⟨e | c⟩ | status
    · refine ⟨fun solving => ?_, fun ⟨_, c, eq⟩ => nomatch eq⟩
      cases solving.symm.trans closed.1
    · exact ⟨fun _ => ⟨searches, c, rfl⟩, fun _ => closed⟩
    · refine ⟨fun solving => ?_, fun ⟨_, c, eq⟩ => nomatch eq⟩
      cases solving.symm.trans closed.1

/-- A model is at rest when its solve is over, unless the search crashed. -/
theorem atRest (idle : m₀.stage ≠ .solving) (returned : ∀ c, result ≠ .error (.crash c)) :
    m.AtRest := by
  apply Model.atRest
  rw [Ne, h.stage_eq_solving_iff idle]
  rintro ⟨-, c, crashed⟩
  exact returned c crashed

end Left

end Model
end Milp
