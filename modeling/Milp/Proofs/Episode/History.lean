import Milp.Episode.Environment

/-!
# The history of an environment

The owner of an environment reseeds it, begins episodes and steps them on (`Environment.Comes`),
and any of these calls may fail or crash. One relation says all that a call can do
(`Environment.Lands`): it fails and poisons the environment, it crashes, or it arrives at a
transition. In every case the options of the dynamics, the functions and the parameters stay what
they are (`Environment.Kept`).
-/

namespace Milp

variable {α δ action β : Type}

/-! ### What an episode leaves of the functions -/

namespace Observer

/-- An observer that restarts twice has restarted. -/
@[simp] theorem restart_restart (o : Observer) : o.restart.restart = o.restart := by
  induction o with
  | both first second ih₁ ih₂ => simp [restart, ih₁, ih₂]
  | _ => rfl

/-- What an observer has seen is gone when it restarts. -/
@[simp] theorem restart_observe (s : Snapshot α) (done : Bool) (o : Observer) :
    (o.observe s done).2.restart = o.restart := by
  induction o with
  | both first second ih₁ ih₂ => simp [observe, restart, ih₁, ih₂]
  | _ => rfl

end Observer

namespace Reward

/-- A reward function that restarts twice has restarted. -/
@[simp] theorem restart_restart (r : Reward) : r.restart.restart = r.restart := by
  cases r <;> rfl

/-- What a reward function has counted is gone when it restarts. -/
@[simp] theorem restart_next (s : Snapshot α) (r : Reward) : (r.next s).restart = r.restart := by
  cases r <;> rfl

end Reward

namespace Extraction

/-- An extraction that restarts twice has restarted. -/
@[simp] theorem restart_restart (x : Extraction) : x.restart.restart = x.restart := by
  simp [restart]

/-- What a transition leaves in an extraction is gone when it restarts. -/
@[simp] theorem restart_transition (x : Extraction) (s : Snapshot α)
    (outcome : DynamicsOutcome β) : (x.transition s outcome).2.restart = x.restart := by
  simp [restart, transition]

end Extraction

/-- Where the operations of a dynamics lead it. -/
inductive Dynamics.Leads (α : Type) [Dynamics α δ action β] (d : δ) : δ → Prop
  | refl : Leads α d d
  | randomize {d' : δ} (leads : Leads α d d') (m : Model α) (g : Random.Engine) :
      Leads α d (Dynamics.randomize d' m g).2.1
  | reset {d' : δ} (leads : Leads α d d') (s : EpisodeSession α) :
      Leads α d (Dynamics.reset d' s).2.1
  | step {d' : δ} (leads : Leads α d d') (s : EpisodeSession α) (a : action) :
      Leads α d (Dynamics.step d' s a).2.1

namespace Environment

/-! ### Calls -/

/-- A call that gives a transition: a reset on what was loaded as a model, or a step. -/
inductive Call (α action : Type) where
  | reset (loaded : Attempt (EpisodeError α) (Model α))
  | step (a : action)

/-- The seed after a call. A reset that was given a model moves it on by one. -/
def seedAfter (e : Environment α δ) : Call α action → UInt64
  | .reset (.ok _) => e.seed + 1
  | _ => e.seed

variable [Dynamics α δ action β] {e e' : Environment α δ} {seed : UInt64}

/-- What a call never touches: the functions but for what they remember, the parameters, and of the
dynamics what its operations leave. The seed is the one given. -/
structure Kept (e : Environment α δ) (seed : UInt64) (e' : Environment α δ) : Prop where
  seed_eq : e'.seed = seed
  params_eq : e'.params = e.params
  restart_eq : e'.extraction.restart = e.extraction.restart
  leads : Dynamics.Leads α e.dynamics e'.dynamics

namespace Kept

/-- The phase, the session and what the functions remember may change. -/
theorem update (kept : e.Kept seed e') {x : Extraction}
    (restart_eq : x.restart = e'.extraction.restart) (phase : Phase)
    (session : Option (EpisodeSession α)) :
    e.Kept seed { e' with extraction := x, phase, session } :=
  ⟨kept.seed_eq, kept.params_eq, restart_eq.trans kept.restart_eq, kept.leads⟩

/-- The termination of an environment stays. -/
theorem termination_eq (kept : e.Kept seed e') :
    e'.extraction.termination = e.extraction.termination := by
  have eq := congrArg Extraction.termination kept.restart_eq
  exact eq

end Kept

variable [Scalar α]

/-- Makes a call. -/
def perform (e : Environment α δ) : Call α action → Result α δ β
  | .reset loaded => e.resetOn loaded
  | .step a => e.step a

/-- Where seeds and calls lead to from an environment, with what the calls gave back. -/
inductive Comes (e₀ : Environment α δ) :
    List (Attempt (EpisodeError α) (Transition α β)) → Environment α δ → Prop
  | begin : Comes e₀ [] e₀
  | seed {answers : List (Attempt (EpisodeError α) (Transition α β))} {e : Environment α δ}
      (comes : Comes e₀ answers e) (seed : UInt64) : Comes e₀ answers (e.reseed seed)
  | call {answers : List (Attempt (EpisodeError α) (Transition α β))} {e : Environment α δ}
      (comes : Comes e₀ answers e) (call : Call α action) :
      Comes e₀ (answers ++ [(e.perform call).1]) (e.perform call).2

/-! ### What a call can do -/

/-- What the dynamics makes of a call, if it gets to it and succeeds: its outcome, and the session
after it. -/
inductive Reaches (e : Environment α δ) :
    Call α action → DynamicsOutcome β → EpisodeSession α → Prop
  | reset {m m₁ m₂ : Model α} {d d' : δ} {g : Random.Engine} {outcome : DynamicsOutcome β}
      {session : EpisodeSession α} (set : m.setParams e.params.entries = (m₁, .ok ()))
      (randomized : Dynamics.randomize e.dynamics m₁ (Random.Engine.ofSeed (e.seed + 1)) =
        (.ok (), d, m₂, g))
      (started : Dynamics.reset d (Session.idle m₂) = (.ok outcome, d', session)) :
      Reaches e (.reset (.ok m)) outcome session
  | step {s session : EpisodeSession α} {a : action} {d' : δ} {outcome : DynamicsOutcome β}
      (awaiting : e.phase = .awaitingAction) (held : e.session = some s)
      (stepped : Dynamics.step e.dynamics s a = (.ok outcome, d', session)) :
      Reaches e (.step a) outcome session

/-- What a call can do. It fails and poisons the environment; it crashes; or the dynamics and its
session are shown in a transition, which is over if the dynamics or the termination says so. -/
inductive Lands (e : Environment α δ) (call : Call α action) : Result α δ β → Prop
  | fails {cause : EpisodeError α} {e' : Environment α δ} (kept : e.Kept (e.seedAfter call) e')
      (poisoned : e'.phase = .poisoned) (ended : e'.session = none) :
      Lands e call (.error (.error cause), e')
  | crashes {c : Crash} {e' : Environment α δ} (kept : e.Kept (e.seedAfter call) e') :
      Lands e call (.error (.crash c), e')
  | arrives {t : Transition α β} {e' : Environment α δ} {outcome : DynamicsOutcome β}
      {session : EpisodeSession α} {s : Snapshot α} (kept : e.Kept (e.seedAfter call) e')
      (reached : e.Reaches call outcome session) (shown : session.snapshot = .ok s)
      (done_eq : t.done = (e.extraction.termination.ends s || outcome.done))
      (actions_eq : t.actions = if t.done then none else outcome.actions)
      (phase_eq : e'.phase = if t.done then .terminal else .awaitingAction)
      (session_eq : e'.session = some session) : Lands e call (.ok t, e')

variable {call : Call α action}

/-- A call that poisons fails. -/
theorem lands_poison (kept : e.Kept (e.seedAfter call) e') (cause : EpisodeError α) :
    e.Lands call (e'.poison cause) :=
  .fails (kept.update rfl .poisoned none) rfl rfl

/-- Going on after the dynamics poisons, crashes or arrives. -/
theorem lands_arrive {r : DynamicsResult δ α β}
    (kept : e.Kept (e.seedAfter call) { e' with dynamics := r.2.1 })
    (reached : ∀ outcome, r.1 = .ok outcome → e.Reaches call outcome r.2.2) :
    e.Lands call (e'.arrive r) := by
  rcases r with ⟨⟨cause | c⟩ | outcome, d, session⟩
  · exact lands_poison kept cause
  · exact .crashes (kept.update rfl e'.phase none)
  · rcases shown : session.snapshot with cause | s
    · simp only [arrive, shown]
      exact lands_poison kept cause
    · have termination_eq : e'.extraction.termination = e.extraction.termination :=
        kept.termination_eq
      simp only [arrive, shown]
      refine .arrives (kept.update (Extraction.restart_transition ..) _ _) (reached outcome rfl) shown
        ?_ rfl rfl rfl
      simp only [Extraction.transition, termination_eq]

/-- What a reset on a model can do. -/
theorem lands_reset (e : Environment α δ) (m : Model α) :
    e.Lands (.reset (.ok m)) (e.reset m) := by
  have leads : Dynamics.Leads α e.dynamics e.dynamics := .refl
  simp only [reset]
  rcases set : m.setParams e.params.entries with ⟨m₁, cause | ⟨⟩⟩
  · apply lands_poison
    exact ⟨rfl, rfl, rfl, leads⟩
  · have leads := leads.randomize m₁ (Random.Engine.ofSeed (e.seed + 1))
    rcases randomized : Dynamics.randomize e.dynamics m₁ (Random.Engine.ofSeed (e.seed + 1))
      with ⟨cause | ⟨⟩, d, m₂, g⟩ <;> simp only [randomized] at leads ⊢
    · apply lands_poison
      exact ⟨rfl, rfl, rfl, leads⟩
    · apply lands_arrive
      · exact ⟨rfl, rfl, Extraction.restart_restart _, leads.reset _⟩
      · intro outcome ok
        exact .reset set randomized (Prod.ext ok rfl)

/-- What a step can do. -/
theorem lands_step (e : Environment α δ) (a : action) : e.Lands (.step a) (e.step a) := by
  have leads : Dynamics.Leads α e.dynamics e.dynamics := .refl
  unfold step
  split
  case h_1 s awaiting held =>
    apply lands_arrive
    · exact ⟨rfl, rfl, rfl, leads.step s a⟩
    · intro outcome ok
      exact .step awaiting held (Prod.ext ok rfl)
  case h_2 =>
    apply lands_poison
    exact ⟨rfl, rfl, rfl, leads⟩

/-- A call does nothing else. -/
theorem lands (e : Environment α δ) (call : Call α action) : e.Lands call (e.perform call) := by
  have kept : e.Kept e.seed e := ⟨rfl, rfl, rfl, .refl⟩
  rcases call with ⟨⟨cause | c⟩ | m⟩ | a
  · exact lands_poison kept cause
  · exact .crashes kept
  · exact lands_reset e m
  · exact lands_step e a

/-- What every call keeps. -/
theorem Lands.kept {result : Result α δ β} (lands : e.Lands call result) :
    e.Kept (e.seedAfter call) result.2 := by
  cases lands with
  | fails kept => exact kept
  | crashes kept => exact kept
  | arrives kept => exact kept

end Environment
end Milp
