import Milp.Proofs.Param.Configured
import Milp.Proofs.Search.Acts
import Milp.Proofs.Search.InHand
import Milp.Proofs.Search.Opening

/-!
# What a trial does

A trial of an assignment is refused, is given up because its relaxation has no answer, or comes to a
result, and this is all that can happen (`Decision.Tried`). Only a result that is accepted does more
than count.

That an accepted solution has the values that were assigned takes three steps. Of several values of a
variable the last one is left as its only value when all are fixed (`Decision.fixAll_bounds`). A
variable with one value has no column, so its value is not computed (`Plan.RestsAtBounds`) and passes
the bounds unchanged (`Box.clampInto_of_single`). Rounding the solution does not change a value that
was rounded when it was fixed (`Double.round_round`).
-/

namespace Milp

open Scalar

/-! ### Assignments -/

section

variable {α : Type}

/-- The last value that an assignment gives to a variable. -/
def lastValue? : List (Var × α) → Var → Option α
  | [], _ => none
  | (u, x) :: rest, v => (lastValue? rest v).or (if u = v then some x else none)

/-- A variable with a value occurs in the assignment with it. -/
theorem mem_of_lastValue? {assignment : List (Var × α)} {v : Var} {x : α}
    (h : lastValue? assignment v = some x) : (v, x) ∈ assignment := by
  induction assignment with
  | nil => cases h
  | cons entry rest ih =>
    obtain ⟨u, y⟩ := entry
    rw [lastValue?] at h
    cases later : lastValue? rest v with
    | some z =>
      rw [later, Option.some_or] at h
      exact List.mem_cons_of_mem _ (ih (later.trans h))
    | none =>
      rw [later, Option.none_or] at h
      split_ifs at h with same
      cases h
      rw [← same]
      exact List.mem_cons_self

/-- The value that a variable is fixed to: its own, made whole if it has to be. -/
def Problem.fixedValue [Scalar α] (p : Problem α) (v : Var) (x : α) : α :=
  if p.isIntegral v then Scalar.round x else x

end

namespace Decision

variable {α : Type} [Scalar α] {plan : Plan α} {assignment : List (Var × α)}

/-- An assignment is refused exactly if it names a variable that is not there or a value that is not
finite. -/
theorem exists_refusal_iff : (∃ refusal, refusal? plan assignment = some refusal) ↔
    ∃ entry ∈ assignment, plan.problem.size ≤ entry.1 ∨ isFinite entry.2 = false := by
  have entry_refused (entry : Var × α) :
      (if entry.1 ≥ plan.problem.size then
          some (AssignmentRefusal.outOfRange entry.1 plan.problem.size)
        else if !isFinite entry.2 then some (.nonFinite entry.1 entry.2) else none).isSome = true ↔
      plan.problem.size ≤ entry.1 ∨ isFinite entry.2 = false := by
    split_ifs with outside infinite
    · simp [outside]
    · simp only [Bool.not_eq_true'] at infinite
      simp [infinite]
    · simp only [Bool.not_eq_true', Bool.not_eq_false] at infinite
      simpa [infinite] using outside
  rw [← Option.isSome_iff_exists, refusal?, List.isSome_findSome?, List.any_eq_true]
  simp only [entry_refused]

/-- Fixing the variables of an assignment leaves each of them its last value only, and the others their
bounds. -/
theorem fixAll_bounds {box box' : Box α} (fixed : fixAll plan assignment box = some box') :
    box'.lower.size = box.lower.size ∧ ∀ v < box.lower.size, v < box.upper.size →
      box'.lowerAt v =
        ((lastValue? assignment v).map (plan.problem.fixedValue v)).getD (box.lowerAt v) ∧
      box'.upperAt v = ((lastValue? assignment v).map fun x =>
        Scalar.extend (plan.problem.fixedValue v x)).getD (box.upperAt v) := by
  induction assignment generalizing box with
  | nil =>
    cases fixed
    exact ⟨rfl, fun v _ _ => ⟨rfl, rfl⟩⟩
  | cons entry rest ih =>
    obtain ⟨u, x⟩ := entry
    rw [fixAll] at fixed
    split at fixed
    · cases fixed
    change fixAll plan rest (box.fix u (plan.problem.fixedValue u x)) = some box' at fixed
    obtain ⟨size_eq, bounds⟩ := ih fixed
    have size_fix (y : α) : (box.fix u y).lower.size = box.lower.size := Array.size_setIfInBounds
    refine ⟨size_eq.trans (size_fix _), fun v lower upper => ?_⟩
    obtain ⟨lower_eq, upper_eq⟩ :=
      bounds v (by rwa [size_fix]) (by rwa [Box.fix, Array.size_setIfInBounds])
    rw [lower_eq, upper_eq, lastValue?]
    cases lastValue? rest v with
    | some y => exact ⟨rfl, rfl⟩
    | none =>
      rw [Box.fix, Box.lowerAt, Box.upperAt, Box.getD_setIfInBounds, Box.getD_setIfInBounds]
      by_cases same : u = v
      · subst same
        simp only [lower, upper, and_self, if_true, Option.none_or]
        exact ⟨rfl, rfl⟩
      · simp only [same, false_and, if_false, Option.none_or]
        exact ⟨rfl, rfl⟩

end Decision

/-! ### Variables with a single value -/

namespace Box

variable {α : Type} [Scalar α] [Faithful α] {box : Box α} {v : Var} {y : α}

/-- A variable with a single value is not free. -/
theorem isFree_of_single {tol : α} (ht : Moderate tol) (finite : isFinite y = true)
    (lower : box.lowerAt v = y) (upper : box.upperAt v = Scalar.extend y) :
    box.isFree tol v = false := by
  have rounded := Faithful.sub_spec finite finite
  rw [sub_self] at rounded
  obtain ⟨zero_finite, -, -, zero⟩ := rounded.unit le_rfl zero_le_one
  rw [isFree, width, lower, upper, extend_of_isFinite finite, extend_of_isFinite ht.finite,
    Extended.sub, extend_of_isFinite zero_finite, Extended.lt, decide_eq_false_iff_not,
    Faithful.lt_iff ht.finite zero_finite, zero rfl, not_lt]
  exact ht.nonneg

/-- Moving its value into the bounds leaves it as it is. -/
theorem clampInto_of_single (finite : isFinite y = true) (lower : box.lowerAt v = y)
    (upper : box.upperAt v = Scalar.extend y) : Relaxation.clampInto box v y = y := by
  have below : ¬ y < y := by rw [Faithful.lt_iff finite finite]; exact lt_irrefl _
  rw [Relaxation.clampInto, lower, upper, extend_of_isFinite finite]
  simp only [if_neg below, ite_self]

end Box

/-- Whether relaxations do not compute the values of variables that are not free. -/
def Plan.RestsAtBounds {α : Type} [Scalar α] (plan : Plan α) : Prop :=
  ∀ box rows objective values iterations,
    plan.relax box rows = .ok ⟨.optimal objective values, iterations⟩ →
      values.size = box.lower.size ∧ ∀ v < box.lower.size, box.isFree plan.tolerance v = false →
        values.getD v 0 = Relaxation.clampInto box v (box.lowerAt v)

/-- The relaxations of a solve do not. -/
theorem Plan.ofSettings_restsAtBounds {α : Type} [Scalar α] (p : Problem α) (settings : Settings α)
    (hooks : Option Hooks) (clock : Clock) :
    (Plan.ofSettings p settings hooks clock).RestsAtBounds := by
  intro box rows objective values iterations solved
  refine ⟨(Relaxation.Method.solve_values solved).2.1, fun v hv fixed => ?_⟩
  refine Relaxation.Method.solve_fixed solved hv (.trans ?_ fixed)
  exact congrArg (box.isFree · v)
    (Relaxation.Method.natural_withSeed_feasibility p settings.tolerance settings.lpSeed)

/-- The tolerance that solves read from configured parameters is moderate. -/
theorem Settings.moderate_of_read {r : Registry} (configured : r.Configured) {settings : Settings Float}
    (read_eq : Settings.read r = .ok settings) : Moderate settings.tolerance := by
  obtain ⟨t, given, moderate⟩ := configured.exists_tolerance
  obtain ⟨t', given', tolerance_eq⟩ := Settings.tolerance_of_read read_eq
  cases given.symm.trans given'
  rw [tolerance_eq]
  exact moderate

/-! ### What can come of a trial -/

namespace Decision

section

variable {α : Type} [Scalar α] {plan : Plan α}

/-- What a trial that is not accepted does not touch. -/
structure Spares (d e : Decision α) : Prop where
  incumbent : e.search.incumbent = d.search.incumbent
  solutions : e.search.stats.solutionsFound = d.search.stats.solutionsFound
  monitor : e.search.monitor = d.search.monitor
  choice : e.heuristicChoice = d.heuristicChoice

/-- What can come of a trial at a decision point. -/
inductive Tried (plan : Plan α) (d : Decision α) (assignment : List (Var × α)) :
    Except (SolverError α) TrialResult → Decision α → Prop
  /-- The assignment makes no sense. -/
  | refused {refusal : AssignmentRefusal α} (refused : refusal? plan assignment = some refusal) :
    Tried plan d assignment (.error (.invalidAssignment refusal)) d
  /-- The relaxation has no answer. -/
  | failed {e : Decision α} (fine : refusal? plan assignment = none) (cause : RelaxationError)
    (trials : e.search.stats.trials = countUp d.search.stats.trials) (spares : d.Spares e) :
    Tried plan d assignment (.error (.relaxation cause)) e
  /-- The assignment leads to no better solution. -/
  | rejected {e : Decision α} {result : TrialResult} (fine : refusal? plan assignment = none)
    (rejected : result ≠ .accepted) (last : e.lastTrial = some result)
    (trials : e.search.stats.trials = countUp d.search.stats.trials) (spares : d.Spares e) :
    Tried plan d assignment (.ok result) e
  /-- The optimum of the relaxation is a better solution. -/
  | accepted {e : Decision α} {values : Array α} (fine : refusal? plan assignment = none)
    (accepts : d.Accepts plan assignment values) (last : e.lastTrial = some .accepted)
    (trials : e.search.stats.trials = countUp d.search.stats.trials)
    (incumbent : e.search.incumbent = some (plan.problem.roundedSolution values))
    (solutions : e.search.stats.solutionsFound = countUp d.search.stats.solutionsFound)
    (found : e.foundSolution = true) : Tried plan d assignment (.ok .accepted) e

/-- One of these comes of every trial. -/
theorem tried_tryAssignment (plan : Plan α) (d : Decision α) (assignment : List (Var × α)) :
    d.Tried plan assignment (d.tryAssignment plan assignment).1
      (d.tryAssignment plan assignment).2 := by
  unfold tryAssignment
  cases fine : refusal? plan assignment with
  | some refusal => exact .refused fine
  | none =>
    simp only
    generalize started : ({ d with search := { d.search with stats := d.search.stats.onTrial } } :
      Decision α) = d'
    unfold probe
    cases fixed : fixAll plan assignment d'.focus.box with
    | none =>
      subst started
      exact .rejected fine (fun same => by cases same) rfl rfl ⟨rfl, rfl, rfl, rfl⟩
    | some box =>
      simp only
      cases answered : plan.relax box d'.focus.node.rows with
      | error cause =>
        subst started
        exact .failed fine cause rfl ⟨rfl, rfl, rfl, rfl⟩
      | ok relaxed =>
        obtain ⟨result, iterations⟩ := relaxed
        subst started
        cases result with
        | infeasible => exact .rejected fine (fun same => by cases same) rfl rfl ⟨rfl, rfl, rfl, rfl⟩
        | unbounded => exact .rejected fine (fun same => by cases same) rfl rfl ⟨rfl, rfl, rfl, rfl⟩
        | optimal objective values =>
          simp only [judge]
          split_ifs with fractional improves
          · exact .rejected fine (fun same => by cases same) rfl rfl ⟨rfl, rfl, rfl, rfl⟩
          · exact .rejected fine (fun same => by cases same) rfl rfl ⟨rfl, rfl, rfl, rfl⟩
          · refine .accepted fine ⟨box, objective, iterations, fixed, answered, ?_, ?_⟩ rfl rfl rfl rfl rfl
            · simpa using fractional
            · simpa using improves

/-- A solution that was found at a decision point is not forgotten there. -/
theorem Reaches.foundSolution {d e : Decision α} (h : d.Reaches plan e)
    (found : d.foundSolution = true) : e.foundSolution = true := by
  induction h with
  | refl => exact found
  | @trial e assignment _ ih =>
    have tried := tried_tryAssignment plan e assignment
    generalize (e.tryAssignment plan assignment).1 = result,
      (e.tryAssignment plan assignment).2 = after at tried ⊢
    have kept {f : Decision α} (spares : e.Spares f) : f.foundSolution = true := by
      have same := spares.choice
      rw [heuristicChoice, heuristicChoice, if_pos ih] at same
      split_ifs at same with found'
      exact found'
    cases tried with
    | refused => exact ih
    | failed _ _ _ spares => exact kept spares
    | rejected _ _ _ _ spares => exact kept spares
    | accepted _ _ _ _ _ _ found' => exact found'
  | interrupt _ ih => exact ih

/-- An accepted solution has the values that were assigned. -/
theorem Accepts.getElem?_values [Faithful α] {d : Decision α} {assignment : List (Var × α)}
    {values : Array α} (h : d.Accepts plan assignment values) (rests : plan.RestsAtBounds)
    (moderate : Moderate plan.tolerance) (presented : d.focus.Presented plan)
    (once : ∀ x : α, isFinite x = true → Scalar.round (Scalar.round x) = Scalar.round x)
    (fine : refusal? plan assignment = none) {v : Var} {x : α}
    (assigned : lastValue? assignment v = some x) :
    (plan.problem.roundedSolution values).values[v]? = some (plan.problem.fixedValue v x) := by
  obtain ⟨inside, finite⟩ : v < plan.problem.size ∧ isFinite x = true := by
    by_contra outside
    rw [not_and_or, not_lt, Bool.not_eq_true] at outside
    obtain ⟨refusal, refused⟩ :=
      exists_refusal_iff.mpr ⟨(v, x), mem_of_lastValue? assigned, outside⟩
    cases fine.symm.trans refused
  obtain ⟨box, objective, iterations, fixed, answered, -, -⟩ := h
  obtain ⟨lower_size, bounds⟩ := fixAll_bounds fixed
  rw [presented.box_eq, Node.size_box] at lower_size bounds
  rw [Node.size_upper_box] at bounds
  obtain ⟨lower, upper⟩ := bounds v inside inside
  rw [assigned, Option.map_some, Option.getD_some] at lower upper
  obtain ⟨size_eq, resting⟩ := rests _ _ _ _ _ answered
  have value_finite : isFinite (plan.problem.fixedValue v x) = true := by
    rw [Problem.fixedValue]
    split
    · exact (IsInteger.round finite).1
    · exact finite
  have value_eq : values.getD v 0 = plan.problem.fixedValue v x := by
    rw [resting v (lower_size ▸ inside) (Box.isFree_of_single moderate value_finite lower upper),
      lower]
    exact Box.clampInto_of_single value_finite lower upper
  have filled : v < values.size := by rwa [size_eq, lower_size]
  rw [Array.getD_eq_getD_getElem?, Array.getElem?_eq_getElem filled, Option.getD_some] at value_eq
  rw [Problem.roundedSolution, Array.getElem?_mapIdx, Array.getElem?_eq_getElem filled, value_eq,
    Option.map_some, Problem.fixedValue]
  split
  · rw [once x finite]
  · rfl

end

/-- What a trial of an assignment does at a decision point that a solve with a callback comes to, after
whatever was done there before, and whatever variables and values are assigned:

* It is refused exactly if there is no such variable or a value is not finite, and then does nothing.
* Otherwise it is counted, by one as long as the counter has not stopped. Unless the relaxation fails,
  its result is shown as that of the last trial.
* Unless it is accepted, the incumbent, the number of solutions, the monitors and the choice to make are
  what they were.
* If it is accepted, a solution is installed that has for each assigned variable the last value
  assigned to it, rounded if it has to be whole, and from then on the choice to make here is that a
  solution was found. -/
theorem trial_contract {m : Model Float} (configured : m.registry.Configured) {plan : Plan Float}
    {turn : Turn Float} (entered : m.opening = .entered plan turn) {κ : Type}
    {handler : Handler Float κ} (confined : handler.Confined) {turns : Nat} {first last : κ}
    {d e : Decision Float} (asked : plan.drive handler turns turn first = (.ask d, last))
    (reached : d.Reaches plan e) (assignment : List (Var × Float)) :
    let result := (e.tryAssignment plan assignment).1
    let after := (e.tryAssignment plan assignment).2
    ((∃ refusal, result = .error (.invalidAssignment refusal)) ↔
      ∃ entry ∈ assignment, plan.problem.size ≤ entry.1 ∨ isFinite entry.2 = false) ∧
    ((∃ refusal, result = .error (.invalidAssignment refusal)) → after = e) ∧
    ((¬∃ refusal, result = .error (.invalidAssignment refusal)) →
      after.search.stats.trials = countUp e.search.stats.trials ∧
      (e.search.stats.trials < counterLimit →
        after.search.stats.trials = e.search.stats.trials + 1) ∧
      ((∃ cause, result = .error (.relaxation cause)) ∨
        ∃ verdict, result = .ok verdict ∧ after.lastTrial = some verdict) ∧
      (result ≠ .ok .accepted → e.Spares after) ∧
      (result = .ok .accepted → ∃ solution, after.search.incumbent = some solution ∧
        after.search.stats.solutionsFound = countUp e.search.stats.solutionsFound ∧
        (∀ v x, lastValue? assignment v = some x →
          solution.values[v]? = some (plan.problem.fixedValue v x)) ∧
        ∀ f, after.Reaches plan f → f.heuristicChoice = .foundSolution)) := by
  intro result after
  obtain ⟨-, settings, read_eq, plan_eq, turn_eq⟩ := Model.opening_entered entered
  have presented : e.focus.Presented plan := by
    have begun : turn.Presented plan := by rw [turn_eq]; trivial
    have driven := Plan.drive_presented confined turns begun first
    rw [asked] at driven
    exact reached.samePoint.focus ▸ driven
  have moderate : Moderate plan.tolerance := plan_eq ▸ Settings.moderate_of_read configured read_eq
  have rests : plan.RestsAtBounds := plan_eq ▸ Plan.ofSettings_restsAtBounds _ _ _ _
  have refused : (∃ refusal, refusal? plan assignment = some refusal) ↔
    ∃ entry ∈ assignment, plan.problem.size ≤ entry.1 ∨ isFinite entry.2 = false := exists_refusal_iff
  have counted {n n' : Nat} (h : n' = countUp n) : n' = countUp n ∧ (n < counterLimit → n' = n + 1) :=
    ⟨h, fun below => h.trans (Nat.min_eq_left below)⟩
  have tried : Tried plan e assignment result after := tried_tryAssignment plan e assignment
  generalize result = result, after = after at tried ⊢
  rw [← refused]
  cases tried with
  | refused h => exact ⟨⟨fun _ => ⟨_, h⟩, fun _ => ⟨_, rfl⟩⟩, fun _ => rfl, fun h' => absurd ⟨_, rfl⟩ h'⟩
  | failed fine cause trials spares =>
    simp only [fine]
    refine ⟨by simp, by simp, fun _ => ?_⟩
    exact ⟨(counted trials).1, (counted trials).2, .inl ⟨_, rfl⟩, fun _ => spares, nofun⟩
  | rejected fine rejected last' trials spares =>
    simp only [fine]
    refine ⟨by simp, by simp, fun _ => ?_⟩
    exact ⟨(counted trials).1, (counted trials).2, .inr ⟨_, rfl, last'⟩, fun _ => spares,
      fun accepted => absurd (Except.ok.inj accepted) rejected⟩
  | accepted fine accepts last' trials incumbent solutions found =>
    simp only [fine]
    refine ⟨by simp, by simp, fun _ => ?_⟩
    refine ⟨(counted trials).1, (counted trials).2, .inr ⟨_, rfl, last'⟩, fun h => absurd rfl h,
      fun _ => ⟨_, incumbent, solutions, fun v x assigned => ?_, fun f later => ?_⟩⟩
    · exact accepts.getElem?_values rests moderate presented (fun x => Double.round_round) fine assigned
    · rw [heuristicChoice, if_pos (later.foundSolution found)]

end Decision

/-- The model of the problem with one variable, with a callback at every node. -/
def Model.attendedSingle : Model Float :=
  { Model.ofProblem .single with hooks := some { heuristic := some {} } }

/-- Whether the first turn of a solve leads to a decision point where an assignment is accepted. -/
def Model.acceptsAtRoot (m : Model Float) (assignment : List (Var × Float)) : Bool :=
  match m.opening with
  | .over _ => false
  | .entered plan turn =>
    match (plan.drive Handler.passive 1 turn ()).1 with
    | .ask d => d.accepts plan assignment
    | _ => false

/-- A variable is assigned twice and has its last value, rounded, in the solution. -/
theorem Decision.single_trial : ∃ (plan : Plan Float) (turn : Turn Float) (d : Decision Float),
    Model.attendedSingle.opening = .entered plan turn ∧
    plan.drive Handler.passive 1 turn () = (.ask d, ()) ∧
    let after := (d.tryAssignment plan [(0, 3), (0, 3.0000001)]).2
    (d.tryAssignment plan [(0, 3), (0, 3.0000001)]).1 = .ok .accepted ∧
    after.heuristicChoice = .foundSolution ∧ after.lastTrial = some .accepted ∧
    ∃ solution, after.search.incumbent = some solution ∧ solution.values[0]? = some 3 := by
  have accepted : Model.attendedSingle.acceptsAtRoot [(0, 3), (0, 3.0000001)] = true := by
    decide +kernel
  have configured : Model.attendedSingle.registry.Configured := by
    simp only [Model.attendedSingle, Model.ofProblem, Model.withRegistry]
    exact .default
  have rounds : Problem.single.fixedValue 0 3.0000001 = 3 := by decide +kernel
  unfold Model.acceptsAtRoot at accepted
  cases entered : Model.attendedSingle.opening with
  | entered plan turn =>
    rw [entered] at accepted
    simp only at accepted
    generalize run : plan.drive Handler.passive 1 turn () = driven at accepted
    obtain ⟨last, memory⟩ := driven
    cases last with
    | ask d =>
      obtain ⟨-, -, counts⟩ := trial_contract configured entered Handler.passive_confined run .refl
        [(0, 3), (0, 3.0000001)]
      have verdict : (d.tryAssignment plan [(0, 3), (0, 3.0000001)]).1 = .ok .accepted := by
        simp only [accepts] at accepted
        split at accepted
        next h => exact h
        next => cases accepted
      obtain ⟨-, -, shown, -, installs⟩ := counts (by simp [verdict])
      obtain ⟨solution, incumbent, -, values, chosen⟩ := installs verdict
      obtain ⟨verdict', same, last_eq⟩ := shown.resolve_left (by simp [verdict])
      cases verdict.symm.trans same
      obtain ⟨-, settings, -, rfl, -⟩ := Model.opening_entered entered
      exact ⟨_, turn, d, rfl, run, verdict, chosen _ .refl, last_eq, solution, incumbent,
        (values 0 3.0000001 rfl).trans (congrArg some rounds)⟩
    | _ => cases accepted
  | _ =>
    rw [entered] at accepted
    cases accepted

end Milp
