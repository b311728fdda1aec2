import Milp.Model
import Milp.Proofs.Search.Branchable

/-!
# From a model to its search and back

A solve reads its settings, searches, and leaves its results in the model. What comes of reading the
settings is no refusal of a decision (`Settings.read_unrefused`), the search starts with integral
bounds if the problem has them (`Model.Integral.opened`), and what the model reports in the end is
no refusal if the search came to none (`Model.close_unrefused`).
-/

namespace Milp

open Scalar

variable {α : Type}

/-- Whether an attempt does not fail because a decision was refused. -/
def Attempt.Unrefused {β : Type} (x : Attempt (SolverError α) β) : Prop :=
  ∀ cause, x = .error cause → ¬cause.IsRefusal

/-- Attempts in a row succeed if each of them does. -/
theorem Attempt.exists_of_bind {ε β γ : Type} {x : Attempt ε β} {f : β → Attempt ε γ} {c : γ}
    (h : x >>= f = .ok c) : ∃ b, x = .ok b ∧ f b = .ok c := by
  cases x with
  | ok b => exact ⟨b, rfl, h⟩
  | error cause => cases h

namespace Attempt.Unrefused

variable {β γ : Type}

/-- What succeeds is not refused. -/
theorem ok (b : β) : Attempt.Unrefused (α := α) (.ok b) := nofun

/-- Attempts in a row are not refused if none of them is. -/
theorem bind {x : Attempt (SolverError α) β} {f : β → Attempt (SolverError α) γ}
    (hx : Attempt.Unrefused x) (hf : ∀ b, Attempt.Unrefused (f b)) :
    Attempt.Unrefused (x >>= f) := by
  cases x with
  | ok b => exact hf b
  | error cause =>
    intro cause' eq
    cases eq
    exact hx cause rfl

end Attempt.Unrefused

namespace Settings

/-- A parameter that cannot be read is no refusal. -/
theorem content_unrefused (r : Registry) (t : ParamType) (name : String) :
    Attempt.Unrefused (content (α := α) r t name) := by
  intro cause eq
  unfold content at eq
  split at eq <;> cases eq
  exact id

/-- A character that stands for nothing is no refusal. -/
theorem selected_unrefused {β : Type} (r : Registry) (name : String) (ofChar? : Char → Option β) :
    Attempt.Unrefused (selected (α := α) r name ofChar?) := by
  refine .bind (content_unrefused r .char name) fun c cause eq => ?_
  split at eq <;> cases eq
  exact id

/-- A time limit that is out of range is no refusal. -/
theorem timeLimit?_unrefused (seconds : Float) :
    Attempt.Unrefused (timeLimit? (α := α) seconds) := by
  intro cause eq
  unfold timeLimit? at eq
  split at eq
  · split at eq <;> cases eq
    exact id
  · cases eq

variable [Scalar α]

/-- Settings that cannot be read are no refusal. -/
theorem read_unrefused (r : Registry) : Attempt.Unrefused (read (α := α) r) := by
  unfold read
  iterate 3 refine .bind (content_unrefused _ _ _) fun _ => ?_
  iterate 2 refine .bind (selected_unrefused _ _ _) fun _ => ?_
  refine .bind (timeLimit?_unrefused _) fun _ => ?_
  iterate 8 refine .bind (content_unrefused _ _ _) fun _ => ?_
  exact .ok _

/-- The tolerance of the settings is that of the parameter. -/
theorem tolerance_of_read {r : Registry} {settings : Settings α} (h : read r = .ok settings) :
    ∃ t, r.read .real "numerics/feastol" = .ok t ∧ settings.tolerance = Scalar.ofDouble t := by
  unfold read at h
  iterate 6 obtain ⟨_, -, h⟩ := Attempt.exists_of_bind h
  obtain ⟨t, read_eq, h⟩ := Attempt.exists_of_bind h
  iterate 7 obtain ⟨_, -, h⟩ := Attempt.exists_of_bind h
  cases h
  refine ⟨t, ?_, rfl⟩
  unfold content at read_eq
  split at read_eq
  next eq =>
    cases read_eq
    exact eq
  next => cases read_eq

end Settings

/-! ### Models -/

variable [Scalar α]

/-- What a solve that gets to search begins with. -/
theorem Model.opening_entered {m : Model α} {plan : Plan α} {turn : Turn α}
    (entered : m.opening = .entered plan turn) :
    m.stage = .problem ∧ ∃ settings, Settings.read m.registry = .ok settings ∧
      plan = .ofSettings m.problem settings m.hooks m.clock ∧
      turn = .proceed (Search.start plan m.stats m.incumbent m.interrupted) := by
  unfold opening at entered
  split at entered
  · cases entered
  · cases entered
  next fresh =>
    split at entered <;> cases entered
    next settings read_eq => exact ⟨fresh, settings, read_eq, rfl, rfl⟩

/-- A solve that is over at once was not refused a decision. -/
theorem Model.opening_unrefused {m : Model α} {result : Attempt (SolverError α) SolveStatus}
    (ended : m.opening = .over result) : result.Unrefused := by
  unfold opening at ended
  split at ended
  · cases ended
    exact .ok _
  · cases ended
    intro cause eq
    cases eq
    exact id
  · split at ended
    next cause read_eq =>
      cases ended
      intro cause' eq
      cases eq
      exact Settings.read_unrefused _ _ read_eq
    next => cases ended

variable [Faithful α]

/-- Whether every solve of a model starts with integral bounds and with a given tolerance, which is
moderate. -/
structure Model.Integral (tol : α) (m : Model α) : Prop where
  box : (Box.ofProblem m.problem).Integral m.problem
  moderate : Moderate tol
  tolerance : ∃ t, m.registry.read .real "numerics/feastol" = .ok t ∧ Scalar.ofDouble t = tol

/-- Whether a plan is that of a solve with the given hooks, integral bounds and the given tolerance. -/
structure Plan.Serves (hooks : Option Hooks) (tol : α) (plan : Plan α) : Prop extends
    plan.Integral where
  hooks_eq : plan.hooks = hooks
  tolerance_eq : plan.tolerance = tol

namespace Model

variable {m : Model α} {tol : α}

/-- A search that is entered starts with integral bounds. -/
theorem Integral.opened (h : m.Integral tol) {plan : Plan α} {turn : Turn α}
    (entered : m.opening = .entered plan turn) :
    plan.Serves m.hooks tol ∧ turn.Branchable plan := by
  obtain ⟨-, settings, read_eq, rfl, rfl⟩ := opening_entered entered
  have tolerance_eq : settings.tolerance = tol := by
    obtain ⟨t, given, rfl⟩ := h.tolerance
    obtain ⟨t', given', rest⟩ := Settings.tolerance_of_read read_eq
    cases given.symm.trans given'
    exact rest
  have integral := Plan.ofSettings_integral h.box (tolerance_eq ▸ h.moderate) m.hooks m.clock
  exact ⟨{ integral with hooks_eq := rfl, tolerance_eq }, Plan.start_integral integral _ _ _⟩

/-- What a model reports of a search that was never refused a decision is no refusal. -/
theorem close_unrefused {plan : Plan α} {turn : Turn α} (h : turn.Branchable plan) :
    (m.close turn).2.Unrefused := by
  cases turn with
  | proceed s =>
    intro cause eq
    cases eq
    exact id
  | ask d =>
    intro cause eq
    cases eq
    exact id
  | ended status dualBound s => exact .ok _
  | failed cause s =>
    cases cause with
    | error e =>
      intro cause' eq
      cases eq
      exact h
    | crash c =>
      intro cause' eq
      cases eq
      exact id

/-- A solve that leaves every decision to the solver is not refused one. -/
theorem Integral.solveAlone_unrefused (h : m.Integral tol) : m.solveAlone.2.Unrefused := by
  unfold solveAlone solve
  simp only
  split
  next result ended => exact opening_unrefused ended
  next plan turn entered =>
    obtain ⟨serves, branchable⟩ := h.opened entered
    exact close_unrefused (Plan.drive_passive_branchable serves.toIntegral patience branchable)

end Model

end Milp
