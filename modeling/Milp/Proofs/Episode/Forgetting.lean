import Mathlib.Data.List.Forall2
import Milp.Episode.Branching
import Milp.Episode.PrimalSearch
import Milp.Episode.SumBranching
import Milp.Proofs.Control.Calls
import Milp.Proofs.Episode.History

/-!
# Episodes forget what came before

Two environments are alike if they differ in nothing but what their past has left: the memory of
the dynamics and of the functions, the seed, the phase and the session (`Environment.Alike`). A
dynamics is forgetful if a reset leaves nothing of its memory but the options
(`Dynamics.Forgetful`), and all that are provided are. So a reset makes alike environments of one
seed equal, or poisons both of them (`Environment.reset_agrees`), and from there on no call can tell
them apart (`Environment.run_agrees`).
-/

namespace Milp

variable {α δ ο action β ε σ : Type}

/-- Two results of an operation, each with the state after it, agree: they are one and the same, or
the operation has failed twice for one cause. -/
inductive Attempt.Agree : Attempt ε β × σ → Attempt ε β × σ → Prop
  | ok (b : β) (s : σ) : Agree (.ok b, s) (.ok b, s)
  | error (cause : Failure ε) (s s' : σ) : Agree (.error cause, s) (.error cause, s')

/-- A result agrees with itself. -/
theorem Attempt.Agree.refl (r : Attempt ε β × σ) : Agree r r := by
  rcases r with ⟨cause | b, s⟩
  · exact .error cause s s
  · exact .ok b s

namespace Dynamics

section

variable [Dynamics α δ action β]

/-- Two results of randomising a model agree: it has failed twice for one cause, or the models are
equal and the dynamics cannot be told apart by resets. -/
inductive Prepared : Except (EpisodeError α) Unit × δ × Model α × Random.Engine →
    Except (EpisodeError α) Unit × δ × Model α × Random.Engine → Prop
  | ok {d d' : δ} (m : Model α) (g : Random.Engine)
      (agree : ∀ s : EpisodeSession α, Attempt.Agree (Dynamics.reset d s) (Dynamics.reset d' s)) :
      Prepared (.ok (), d, m, g) (.ok (), d', m, g)
  | error (cause : EpisodeError α) (d d' : δ) (m m' : Model α) (g g' : Random.Engine) :
      Prepared (.error cause, d, m, g) (.error cause, d', m', g')

/-- A dynamics whose options stay, and which begins an episode with nothing else. -/
structure Forgetful (α : Type) [Dynamics α δ action β] (options : δ → ο) : Prop where
  randomize_options : ∀ (d : δ) (m : Model α) (g : Random.Engine),
    options (Dynamics.randomize d m g).2.1 = options d
  reset_options : ∀ (d : δ) (s : EpisodeSession α), options (Dynamics.reset d s).2.1 = options d
  step_options : ∀ (d : δ) (s : EpisodeSession α) (a : action),
    options (Dynamics.step d s a).2.1 = options d
  prepared : ∀ {d d' : δ}, options d = options d' → ∀ (m : Model α) (g : Random.Engine),
    Prepared (Dynamics.randomize d m g) (Dynamics.randomize d' m g)

/-- The options stay wherever the operations lead. -/
theorem Leads.options_eq {options : δ → ο} (forgetful : Forgetful α options) {d d' : δ}
    (leads : Leads α d d') : options d' = options d := by
  induction leads with
  | refl => rfl
  | randomize _ m g ih => exact (forgetful.randomize_options _ m g).trans ih
  | reset _ s ih => exact (forgetful.reset_options _ s).trans ih
  | step _ s a ih => exact (forgetful.step_options _ s a).trans ih

/-- Dynamics that take nothing from the engine and cannot be told apart by resets. -/
theorem prepared_alone {d d' : δ}
    (agree : ∀ s : EpisodeSession α, Attempt.Agree (Dynamics.reset d s) (Dynamics.reset d' s))
    (m : Model α) (g : Random.Engine) :
    Prepared (randomizeAlone d m g) (randomizeAlone d' m g) := by
  unfold randomizeAlone
  rcases randomizeModel m g with ⟨cause | ⟨⟩, m, g⟩
  · exact .error ..
  · exact .ok _ _ agree

end

end Dynamics

/-! ### The provided dynamics are forgetful -/

section

variable [Scalar α]

namespace BranchingDynamics

/-- What a dynamics of branching is made with. -/
def options (b : BranchingDynamics) : Bool × Option Nat := (b.pseudoCandidates, b.limit)

/-- Sampling candidates keeps the options. -/
theorem options_candidates (b : BranchingDynamics) (s : Snapshot α) :
    (b.candidates s).2.options = b.options := by
  simp only [candidates]
  split
  · rfl
  · split
    · split <;> rfl
    · rfl

/-- Offering candidates keeps the options. -/
theorem options_outcome (b : BranchingDynamics) (session : EpisodeSession α) (done : Bool) :
    (b.outcome session done).2.1.options = b.options := by
  unfold outcome
  split
  · rfl
  · split
    · rfl
    · rename_i s _
      have kept := options_candidates b s
      split
      all_goals
        rename_i eq
        rw [eq] at kept
        exact kept

/-- Branching forgets. -/
theorem forgetful : Dynamics.Forgetful α options where
  randomize_options b m g := by
    have kept (randomized : Except (EpisodeError α) Unit × Model α × Random.Engine) :
        (b.seedSampling randomized).2.1.options = b.options := by
      rcases randomized with ⟨cause | ⟨⟩, m, g⟩ <;> rfl
    exact kept _
  reset_options b s := by
    simp only [Dynamics.reset, reset]
    split
    · rfl
    · exact options_outcome ..
  step_options b s a := by
    simp only [Dynamics.step, step]
    split
    · rfl
    · split
      · rfl
      · split
        · rfl
        · exact options_outcome ..
  prepared {b b'} eq m g := by
    obtain ⟨pseudo_eq, limit_eq⟩ := Prod.mk.inj eq
    have prepared (randomized : Except (EpisodeError α) Unit × Model α × Random.Engine) :
        Dynamics.Prepared (b.seedSampling randomized) (b'.seedSampling randomized) := by
      rcases randomized with ⟨cause | ⟨⟩, m, g⟩
      · exact .error ..
      · refine .ok _ _ fun s => ?_
        simp only [Dynamics.reset, reset, pseudo_eq, limit_eq]
        exact .refl _
    exact prepared _

end BranchingDynamics

namespace SumBranchingDynamics

/-- What is offered depends on nothing but the tolerance. -/
theorem outcome_forgets {b b' : SumBranchingDynamics α} (tolerance_eq : b.tolerance = b'.tolerance)
    (session : EpisodeSession α) (done : Bool) :
    Attempt.Agree (b.outcome session done) (b'.outcome session done) := by
  unfold outcome
  split
  · rw [tolerance_eq]
    exact .refl _
  · split
    · exact .error ..
    · rw [tolerance_eq]
      exact .refl _

/-- Branching on sums has no options, and forgets all the rest. -/
theorem forgetful : Dynamics.Forgetful α fun _ : SumBranchingDynamics α => () where
  randomize_options _ _ _ := rfl
  reset_options _ _ := rfl
  step_options _ _ _ := rfl
  prepared {b b'} _ := Dynamics.prepared_alone fun s => by
    simp only [Dynamics.reset, reset]
    split
    · exact .error ..
    · split
      · exact .error ..
      · split
        · exact .error ..
        · apply outcome_forgets
          rfl

end SumBranchingDynamics

namespace PrimalSearchDynamics

/-- What a dynamics of primal search is made with. -/
def options (b : PrimalSearchDynamics) : Int32 × Schedule := (b.trials, b.schedule)

/-- Going to a node keeps the options. -/
theorem options_track (b : PrimalSearchDynamics) (node : Nat) :
    (b.track node).options = b.options := by
  unfold track
  split <;> rfl

/-- Offering variables keeps the options. -/
theorem options_outcome (b : PrimalSearchDynamics) (session : EpisodeSession α) (done : Bool) :
    (b.outcome session done).2.1.options = b.options := by
  unfold outcome
  split
  · rfl
  · split
    · rfl
    · exact options_track ..

/-- The end of a trial keeps the options. -/
theorem options_afterTrial (b : PrimalSearchDynamics) (node : Nat) (session : EpisodeSession α)
    (done : Bool) : (b.afterTrial node session done).2.1.options = b.options := by
  have kept (done : Bool) := options_outcome b.spend session done
  unfold afterTrial
  split
  · exact kept true
  · split
    · rfl
    · split
      all_goals
        rename_i eq
        have kept := kept false
        rw [eq] at kept
      · exact kept
      · split <;> exact kept

/-- Primal search forgets. -/
theorem forgetful : Dynamics.Forgetful α options where
  randomize_options _ _ _ := rfl
  reset_options b s := by
    simp only [Dynamics.reset, reset]
    split
    · rfl
    · split
      · rfl
      · exact options_outcome ..
  step_options b s a := by
    simp only [Dynamics.step, step]
    split
    · rfl
    · split
      · rfl
      · split
        · rfl
        · split
          · rfl
          · exact options_afterTrial ..
  prepared {b b'} eq := Dynamics.prepared_alone fun s => by
    obtain ⟨trials_eq, schedule_eq⟩ := Prod.mk.inj eq
    simp only [Dynamics.reset, reset, trials_eq, schedule_eq]
    exact .refl _

end PrimalSearchDynamics

namespace ConfiguringDynamics

/-- Configuring has nothing to forget. -/
theorem forgetful : Dynamics.Forgetful α fun _ : ConfiguringDynamics => () where
  randomize_options _ _ _ := rfl
  reset_options _ _ := rfl
  step_options _ _ _ := rfl
  prepared _ := Dynamics.prepared_alone fun _ => .refl _

end ConfiguringDynamics

end

/-! ### Two environments -/

namespace Environment

section

variable [Dynamics α δ action β] {options : δ → ο} {e e' : Environment α δ}

/-- Two environments were made with the same options, functions and parameters. -/
structure Alike (options : δ → ο) (e e' : Environment α δ) : Prop where
  options_eq : options e.dynamics = options e'.dynamics
  restart_eq : e.extraction.restart = e'.extraction.restart
  params_eq : e.params = e'.params

namespace Alike

/-- An environment is like itself. -/
theorem refl (options : δ → ο) (e : Environment α δ) : e.Alike options e := ⟨rfl, rfl, rfl⟩

/-- Alikeness goes both ways. -/
theorem symm (alike : e.Alike options e') : e'.Alike options e :=
  ⟨alike.options_eq.symm, alike.restart_eq.symm, alike.params_eq.symm⟩

/-- Alikeness passes on. -/
theorem trans {e'' : Environment α δ} (alike : e.Alike options e') (alike' : e'.Alike options e'') :
    e.Alike options e'' :=
  ⟨alike.options_eq.trans alike'.options_eq, alike.restart_eq.trans alike'.restart_eq,
    alike.params_eq.trans alike'.params_eq⟩

/-- A seed does not matter to what an environment is like. -/
theorem reseed (alike : e.Alike options e') (seed : UInt64) : (e.reseed seed).Alike options e' :=
  ⟨alike.options_eq, alike.restart_eq, alike.params_eq⟩

end Alike

/-- An environment is like what it was before a call. -/
theorem Kept.alike (forgetful : Dynamics.Forgetful α options) {seed : UInt64}
    (kept : e.Kept seed e') : e'.Alike options e :=
  ⟨kept.leads.options_eq forgetful, kept.restart_eq, kept.params_eq⟩

end

variable [Scalar α] [Dynamics α δ action β] {options : δ → ο} {e e' e₀ e₀' : Environment α δ}

/-- An environment is like what it was made as, whatever has happened. -/
theorem Comes.alike (forgetful : Dynamics.Forgetful α options)
    {answers : List (Attempt (EpisodeError α) (Transition α β))} (comes : e₀.Comes answers e) :
    e.Alike options e₀ := by
  induction comes with
  | begin => exact .refl options e₀
  | seed _ seed ih => exact ih.reseed seed
  | call _ call ih => exact ((lands _ call).kept.alike forgetful).trans ih

/-- Environments that go on from agreeing results of their dynamics agree. -/
theorem arrive_agrees {r r' : DynamicsResult δ α β} (agree : Attempt.Agree r r')
    (extraction_eq : e.extraction = e'.extraction) (params_eq : e.params = e'.params)
    (seed_eq : e.seed = e'.seed) : Attempt.Agree (e.arrive r) (e'.arrive r') := by
  cases agree with
  | error cause s s' =>
    rcases cause with cause | c
    · exact .error ..
    · exact .error ..
  | ok outcome s =>
    rcases shown : s.2.snapshot with cause | snapshot
    · simp only [arrive, shown]
      exact .error ..
    · simp only [arrive, shown, extraction_eq, params_eq, seed_eq]
      exact .refl _

/-- Alike environments of one seed agree on a reset. -/
theorem reset_agrees (forgetful : Dynamics.Forgetful α options) (alike : e.Alike options e')
    (seed_eq : e.seed = e'.seed) (m : Model α) : Attempt.Agree (e.reset m) (e'.reset m) := by
  simp only [reset, alike.params_eq, seed_eq]
  rcases m.setParams e'.params.entries with ⟨m₁, cause | ⟨⟩⟩
  · exact .error ..
  · have prepared := forgetful.prepared alike.options_eq m₁ (Random.Engine.ofSeed (e'.seed + 1))
    simp only
    generalize Dynamics.randomize e.dynamics m₁ (Random.Engine.ofSeed (e'.seed + 1)) = r,
      Dynamics.randomize e'.dynamics m₁ (Random.Engine.ofSeed (e'.seed + 1)) = r' at prepared ⊢
    cases prepared with
    | error => exact .error ..
    | ok m₂ g agree => exact arrive_agrees (agree _) alike.restart_eq rfl rfl

/-- Two environments that no call can tell apart: alike ones of one seed, which are equal or both
poisoned. -/
structure Alongside (options : δ → ο) (e e' : Environment α δ) : Prop where
  alike : e.Alike options e'
  seed_eq : e.seed = e'.seed
  same : e = e' ∨ e.phase = .poisoned ∧ e'.phase = .poisoned

/-- A call agrees on environments that stand alongside. -/
theorem Alongside.perform_agrees (forgetful : Dynamics.Forgetful α options)
    (alongside : e.Alongside options e') (call : Call α action) :
    Attempt.Agree (e.perform call) (e'.perform call) := by
  rcases alongside.same with rfl | ⟨poisoned, poisoned'⟩
  · exact .refl _
  · rcases call with ⟨⟨cause | c⟩ | m⟩ | a
    · exact .error ..
    · exact .error ..
    · exact reset_agrees forgetful alongside.alike alongside.seed_eq m
    · simp only [perform, step, poisoned, poisoned']
      exact .error ..

/-- Alike environments of one seed stand alongside after a call that agrees, unless it crashes. -/
theorem alongside_of_agree (forgetful : Dynamics.Forgetful α options) (alike : e.Alike options e')
    (seed_eq : e.seed = e'.seed) {call : Call α action}
    (agree : Attempt.Agree (e.perform call) (e'.perform call))
    (returned : ∀ c, (e.perform call).1 ≠ .error (.crash c)) :
    (e.perform call).2.Alongside options (e'.perform call).2 := by
  have lands := lands e call
  have lands' := e'.lands call
  have after_eq : e.seedAfter call = e'.seedAfter call := by
    unfold seedAfter
    split <;> simp [seed_eq]
  generalize e.perform call = r, e'.perform call = r' at *
  cases agree with
  | ok t s => exact ⟨.refl options s, rfl, .inl rfl⟩
  | error cause s s' =>
    cases lands with
    | crashes => exact absurd rfl (returned _)
    | fails kept poisoned =>
      cases lands' with
      | fails kept' poisoned' =>
        exact ⟨((kept.alike forgetful).trans alike).trans (kept'.alike forgetful).symm,
          kept.seed_eq.trans (after_eq.trans kept'.seed_eq.symm), .inr ⟨poisoned, poisoned'⟩⟩

/-- Makes calls one after the other, up to the first crash. -/
def run : Environment α δ → List (Call α action) → List (Result α δ β)
  | _, [] => []
  | e, call :: calls =>
    match e.perform call with
    | (.error (.crash c), e) => [(.error (.crash c), e)]
    | (answer, e) => (answer, e) :: run e calls

/-- Alike environments of one seed that agree on a call agree on a run that begins with it, if those
that stand alongside agree on the rest. -/
theorem run_cons_agrees (forgetful : Dynamics.Forgetful α options) (alike : e.Alike options e')
    (seed_eq : e.seed = e'.seed) {call : Call α action} {calls : List (Call α action)}
    (agree : Attempt.Agree (e.perform call) (e'.perform call))
    (rest : ∀ {e e' : Environment α δ}, e.Alongside options e' →
      List.Forall₂ Attempt.Agree (e.run calls) (e'.run calls)) :
    List.Forall₂ Attempt.Agree (e.run (call :: calls)) (e'.run (call :: calls)) := by
  have after := alongside_of_agree forgetful alike seed_eq agree
  simp only [run]
  generalize e.perform call = r, e'.perform call = r' at agree after ⊢
  cases agree with
  | ok t s => exact .cons (.ok t s) (rest (after nofun))
  | error cause s s' =>
    rcases cause with cause | c
    · exact .cons (.error ..) (rest (after nofun))
    · exact .cons (.error ..) .nil

/-- Environments that stand alongside agree on every run. -/
theorem Alongside.run_agrees (forgetful : Dynamics.Forgetful α options)
    (calls : List (Call α action)) :
    ∀ {e e' : Environment α δ}, e.Alongside options e' →
      List.Forall₂ Attempt.Agree (e.run calls) (e'.run calls) := by
  induction calls with
  | nil =>
    intro e e' _
    exact .nil
  | cons call calls ih =>
    intro e e' alongside
    exact run_cons_agrees forgetful alongside.alike alongside.seed_eq
      (alongside.perform_agrees forgetful call) ih

end Environment

/-- The episodes of a dynamics do not leak into each other. Take two environments that were made with
the same options, functions and parameters, and have any calls made on them, returning or not. Once
they have got one seed, equal calls that begin with a reset on equal models agree one by one: they
give equal transitions and leave equal environments, with all that the dynamics counts in them, or
fail for equal causes. -/
def Dynamics.Reproducible (α : Type) [Scalar α] [Dynamics α δ action β] (options : δ → ο) : Prop :=
  ∀ (e₀ e₀' : Environment α δ), e₀.Alike options e₀' →
    ∀ (answers answers' : List (Attempt (EpisodeError α) (Transition α β)))
      (e e' : Environment α δ), e₀.Comes answers e → e₀'.Comes answers' e' →
      ∀ (seed : UInt64) (m : Model α) (calls : List (Environment.Call α action)),
        List.Forall₂ Attempt.Agree ((e.reseed seed).run (.reset (.ok m) :: calls))
          ((e'.reseed seed).run (.reset (.ok m) :: calls))

variable [Scalar α]

/-- The episodes of a forgetful dynamics do not leak into each other. -/
theorem Dynamics.Forgetful.reproducible [Dynamics α δ action β] {options : δ → ο}
    (forgetful : Dynamics.Forgetful α options) : Dynamics.Reproducible α options := by
  intro e₀ e₀' made answers answers' e e' comes comes' seed m calls
  have alike := ((comes.alike forgetful).trans made).trans (comes'.alike forgetful).symm
  have alike := ((alike.reseed seed).symm.reseed seed).symm
  apply Environment.run_cons_agrees forgetful alike rfl
  · exact Environment.reset_agrees forgetful alike rfl m
  · exact Environment.Alongside.run_agrees forgetful calls

/-- The episodes of the provided dynamics do not leak into each other. -/
theorem provided_reproducible :
    Dynamics.Reproducible α BranchingDynamics.options ∧
    Dynamics.Reproducible α (fun _ : SumBranchingDynamics α => ()) ∧
    Dynamics.Reproducible α PrimalSearchDynamics.options ∧
    Dynamics.Reproducible α (fun _ : ConfiguringDynamics => ()) :=
  ⟨BranchingDynamics.forgetful.reproducible, SumBranchingDynamics.forgetful.reproducible,
    PrimalSearchDynamics.forgetful.reproducible, ConfiguringDynamics.forgetful.reproducible⟩

namespace Environment

/-- Where calls lead to one after the other. -/
def after [Dynamics α δ action β] (e : Environment α δ) (calls : List (Call α action)) :
    Environment α δ :=
  calls.foldl (fun e call => (e.perform call).2) e

/-- Calls are made one after the other. -/
theorem after_comes [Dynamics α δ action β] (e : Environment α δ) (calls : List (Call α action)) :
    ∃ answers, e.Comes answers (e.after calls) := by
  have further (calls : List (Call α action)) {answers : List (Attempt (EpisodeError α) (Transition α β))}
      {e' : Environment α δ} (comes : e.Comes answers e') :
      ∃ answers', e.Comes answers' (e'.after calls) := by
    induction calls generalizing answers e' with
    | nil => exact ⟨answers, comes⟩
    | cons call calls ih => exact ih (comes.call call)
  exact further calls .begin

/-- A new environment of primal search with two trials at a node, where nodes are rewarded. -/
def newPrimal (seed : UInt64) : Environment Rat PrimalSearchDynamics :=
  { dynamics := { trials := 2, schedule := {} }, extraction := { reward := .nodes 0 }, seed }

/-- An episode on the pair that is left with a trial to go at the root. -/
def abandoned : Environment Rat PrimalSearchDynamics :=
  (newPrimal 3).after [.reset (.ok (.ofProblem .pair)), .step ⟨[0], [3]⟩]

/-- An episode on the pair that fails there, since there is no variable seven. -/
def mistaken : Environment Rat PrimalSearchDynamics :=
  (newPrimal 8).after [.reset (.ok (.ofProblem .pair)), .step ⟨[0], [3]⟩, .step ⟨[7], [0]⟩]

/-- Both episodes leave a trial behind that was spent at the root. -/
theorem pair_left_behind :
    abandoned.phase = .awaitingAction ∧ mistaken.phase = .poisoned ∧
    abandoned.dynamics.spent = 1 ∧ mistaken.dynamics.spent = 1 ∧
    abandoned.dynamics.lastNode = some 1 ∧ abandoned.dynamics.lastResult.isSome := by
  decide +kernel

/-- After both of them the next episode on the pair is one and the same, once the environments have got
one seed. -/
theorem pair_reproduced :
    abandoned.dynamics.spent = 1 ∧ mistaken.phase = .poisoned ∧
    List.Forall₂ Attempt.Agree
      ((abandoned.reseed 5).run [.reset (.ok (.ofProblem .pair)), .step ⟨[0], [1]⟩, .step ⟨[], []⟩])
      ((mistaken.reseed 5).run [.reset (.ok (.ofProblem .pair)), .step ⟨[0], [1]⟩, .step ⟨[], []⟩]) := by
  obtain ⟨answers, comes⟩ := after_comes (newPrimal 3) _
  obtain ⟨answers', comes'⟩ := after_comes (newPrimal 8) _
  obtain ⟨-, poisoned, spent, -⟩ := pair_left_behind
  exact ⟨spent, poisoned, provided_reproducible.2.2.1 (newPrimal 3) (newPrimal 8) ⟨rfl, rfl, rfl⟩
    answers answers' abandoned mistaken comes comes' 5 _ _⟩

end Environment
end Milp
