import Milp.Problem.Builder
import Milp.Proofs.Problem.IntegralBounds

/-!
# What a builder builds

A call either fails and leaves the builder as it is, or it does to the problem in the columns what
`Problem.addVariable` and `Problem.addConstraint` do to a problem (`answer_cases`). This needs that
the columns and tables are in step (`InStep`), and every call keeps them so. Whatever calls are made,
then, the columns are equally long, names and positions determine each other, and the calls that
fail might as well not have been made (`answers_consistent`).
-/

namespace Milp

open Scalar

variable {α : Type} [Scalar α]

/-! ### Problems without contradictions -/

/-- Whether names are used once, and no variable has an infinite lower bound or one above its upper
bound. -/
structure Problem.Consistent (p : Problem α) : Prop where
  names : (p.vars.toList.map (·.name)).Nodup
  rows : (p.constraints.toList.map (·.name)).Nodup
  bounds : ∀ x ∈ p.vars, isFinite x.lower = true ∧ (extend x.lower).le x.upper = true

/-- A new name keeps the names different. -/
theorem nodup_push {β : Type} {xs : Array β} {f : β → String} (h : (xs.toList.map f).Nodup) {x : β}
    (fresh : ∀ y ∈ xs, f y ≠ f x) : ((xs.push x).toList.map f).Nodup := by
  rw [Array.toList_push, List.map_append, List.map_singleton]
  refine List.nodup_append.mpr ⟨h, List.pairwise_singleton _ _, ?_⟩
  rintro a ha b hb rfl
  obtain ⟨y, hy, rfl⟩ := List.mem_map.mp ha
  exact fresh y (Array.mem_toList_iff.mp hy) (List.mem_singleton.mp hb)

/-- A finite lower bound stays finite. -/
theorem VariableKind.domain_finite [Faithful α] {kind : VariableKind} {lower : α}
    {upper : Extended α} (finite : isFinite lower = true) : isFinite (kind.domain lower upper).1 = true := by
  have cut : isFinite (Scalar.max 0 lower) = true := by
    rw [Scalar.max, Faithful.defined Faithful.finite_zero]
    split
    · exact finite
    · exact Faithful.finite_zero
  cases kind with
  | binary => exact (Faithful.ceil_spec cut).1
  | integer => exact (Faithful.ceil_spec finite).1
  | continuous => exact finite

namespace Problem

section

omit [Scalar α]

variable {p : Problem α} {name : String}

/-- A name that is not found is no variable's. -/
theorem find?_eq_none : p.find? name = none ↔ ∀ x ∈ p.vars, x.name ≠ name := by
  simp [find?, Array.findIdx?_eq_none_iff]

/-- A name is found at a position exactly if the variable there has it. -/
theorem find?_eq_some (names : (p.vars.toList.map (·.name)).Nodup) {v : Var} :
    p.find? name = some v ↔ ∃ x, p.vars[v]? = some x ∧ x.name = name := by
  rw [find?, Array.findIdx?_eq_some_iff_getElem]
  constructor
  · rintro ⟨inside, same, -⟩
    exact ⟨p.vars[v], Array.getElem?_eq_getElem inside, by simpa using same⟩
  · rintro ⟨x, found, rfl⟩
    obtain ⟨inside, rfl⟩ := Array.getElem?_eq_some_iff.mp found
    refine ⟨inside, by simp, fun w less => ?_⟩
    have apart := List.pairwise_iff_getElem.mp names w v
      (by simpa using Nat.lt_trans less inside) (by simpa using inside) less
    simpa using apart

/-- The variables in the mask are the binary and the integer ones. -/
theorem mem_integralVars_iff {v : Var} : v ∈ p.integralVars ↔
    ∃ x, p.vars[v]? = some x ∧ (x.kind = .binary ∨ x.kind = .integer) := by
  have kinds (k : VariableKind) : k.isIntegral = true ↔ k = .binary ∨ k = .integer := by
    cases k <;> simp [VariableKind.isIntegral]
  simp only [integralVars, positions, List.mem_filter, List.mem_range, isIntegral]
  constructor
  · rintro ⟨inside, integral⟩
    rw [Array.getElem?_eq_getElem inside] at integral ⊢
    exact ⟨_, rfl, (kinds _).mp integral⟩
  · rintro ⟨x, found, kind⟩
    rw [found]
    exact ⟨(Array.getElem?_eq_some_iff.mp found).1, (kinds _).mpr kind⟩

end

variable {p q : Problem α} {name : String}

/-- A problem without variables and constraints is consistent. -/
theorem Consistent.empty (name : String) (sense : Sense) :
    Consistent ({ name, sense } : Problem α) where
  names := List.nodup_nil
  rows := List.nodup_nil
  bounds := fun x hx => absurd hx (by simp)

variable [Faithful α]

/-- A variable that is added keeps a problem consistent. -/
theorem Consistent.addVariable (h : p.Consistent) {kind : VariableKind} {objective lower : α}
    {upper : Extended α} {v : Var}
    (added : p.addVariable name kind objective lower upper = .ok (v, q)) : q.Consistent := by
  simp only [Problem.addVariable] at added
  split_ifs at added with used objective_finite lower_finite ordered
  cases added
  have fresh := find?_eq_none.mp (Option.not_isSome_iff_eq_none.mp used)
  refine ⟨nodup_push h.names fresh, h.rows, fun x hx => ?_⟩
  rcases Array.mem_push.mp hx with old | rfl
  · exact h.bounds x old
  · exact ⟨VariableKind.domain_finite (by simpa using lower_finite), ordered⟩

omit [Faithful α] in
/-- A constraint that is added keeps a problem consistent. -/
theorem Consistent.addConstraint (h : p.Consistent) {terms : List (Var × α)} {sense : RowSense}
    {rhs : α} {i : Nat} (added : p.addConstraint name terms sense rhs = .ok (i, q)) :
    q.Consistent := by
  simp only [Problem.addConstraint] at added
  split_ifs at added with used rhs_finite
  split at added
  next => cases added
  next =>
    cases added
    refine ⟨h.names, nodup_push h.rows fun c hc same => used ?_, h.bounds⟩
    exact Array.any_eq_true'.mpr ⟨c, hc, by simpa using same⟩

end Problem

/-! ### Calls on a problem -/

/-- What a call does to a problem. -/
def Problem.perform (p : Problem α) :
    Builder.Call α → Except (ProblemError α) (Option Nat × Problem α)
  | .setName name => .ok (none, { p with name })
  | .setSense sense => .ok (none, { p with sense })
  | .addVariable name kind objective lower upper =>
    (p.addVariable name kind objective lower upper).map fun (v, q) => (some v, q)
  | .addConstraint name terms sense rhs =>
    (p.addConstraint name terms sense rhs).map fun (i, q) => (some i, q)

/-- What comes out of a mapped result comes from a result. -/
theorem exists_of_map_eq_ok {ε β γ : Type} {x : Except ε β} {f : β → γ} {c : γ}
    (h : x.map f = .ok c) : ∃ a, x = .ok a ∧ f a = c := by
  cases x with
  | error e => cases h
  | ok a => exact ⟨a, rfl, Except.ok.inj h⟩

/-- What a call does to a problem keeps it consistent. -/
theorem Problem.Consistent.perform [Faithful α] {p q : Problem α} (h : p.Consistent)
    {call : Builder.Call α} {i : Option Nat} (done : p.perform call = .ok (i, q)) :
    q.Consistent := by
  cases call with
  | setName name =>
    cases done
    exact { h with }
  | setSense sense =>
    cases done
    exact { h with }
  | addVariable name kind objective lower upper =>
    obtain ⟨_, added, eq⟩ := exists_of_map_eq_ok done
    cases eq
    exact h.addVariable added
  | addConstraint name terms sense rhs =>
    obtain ⟨_, added, eq⟩ := exists_of_map_eq_ok done
    cases eq
    exact h.addConstraint added

namespace Builder

/-! ### The columns of a builder -/

/-- Whether the columns are equally long, and the tables know the names in them. -/
structure InStep (b : Builder α) : Prop where
  kinds : b.kinds.size = b.names.size
  objective : b.objective.size = b.names.size
  lower : b.lower.size = b.names.size
  upper : b.upper.size = b.names.size
  lookup : ∀ name, b.lookup.lookup name = b.build.find? name
  rows : ∀ name, (b.constraintNames.lookup name).isSome =
    b.build.constraints.any (·.name == name)

/-- The builder with one more variable in its columns. -/
def pushVariable (b : Builder α) (x : Variable α) : Builder α :=
  { b with
    lookup := (x.name, b.names.size) :: b.lookup
    names := b.names.push x.name
    kinds := b.kinds.push x.kind
    objective := b.objective.push x.objective
    lower := b.lower.push x.lower
    upper := b.upper.push x.upper }

/-- The builder with one more constraint. -/
def pushConstraint (b : Builder α) (c : Constraint α) : Builder α :=
  { b with
    constraintNames := (c.name, b.constraints.size) :: b.constraintNames
    constraints := b.constraints.push c }

variable {b : Builder α}

/-- There is one variable for each name. -/
theorem size_build (b : Builder α) : b.build.size = b.names.size := by
  simp [build, Problem.size]

/-- What is pushed to all columns is the last variable. -/
theorem InStep.build_pushVariable (h : b.InStep) (x : Variable α) :
    (b.pushVariable x).build = { b.build with vars := b.build.vars.push x } := by
  have old {β : Type} {xs : Array β} (size : xs.size = b.names.size) (y d : β) :
      ∀ v < b.names.size, (xs.push y).getD v d = xs.getD v d := by
    intro v inside
    rw [Array.getD_eq_getD_getElem?, Array.getD_eq_getD_getElem?,
      Array.getElem?_push_lt (size ▸ inside), Array.getElem?_eq_getElem (size ▸ inside)]
  have last {β : Type} {xs : Array β} (size : xs.size = b.names.size) (y d : β) :
      (xs.push y).getD b.names.size d = y := by
    rw [Array.getD_eq_getD_getElem?, ← size, Array.getElem?_push_size, Option.getD_some]
  simp only [build, Builder.pushVariable, Array.mapIdx_push, last h.kinds, last h.objective,
    last h.lower, last h.upper]
  congr 2
  refine Array.mapIdx_eq_mapIdx_iff.mpr fun v inside => ?_
  rw [old h.kinds _ _ v inside, old h.objective _ _ v inside, old h.lower _ _ v inside,
    old h.upper _ _ v inside]

/-- Columns and tables stay in step if a new variable is pushed to all of them. -/
theorem InStep.pushVariable (h : b.InStep) {x : Variable α} (fresh : b.build.find? x.name = none) :
    (b.pushVariable x).InStep where
  kinds := by simp [Builder.pushVariable, h.kinds]
  objective := by simp [Builder.pushVariable, h.objective]
  lower := by simp [Builder.pushVariable, h.lower]
  upper := by simp [Builder.pushVariable, h.upper]
  lookup name := by
    rw [h.build_pushVariable]
    show ((x.name, b.names.size) :: b.lookup).lookup name = (b.build.vars.push x).findIdx? _
    rw [List.lookup_cons, Array.findIdx?_push, h.lookup]
    show _ = (b.build.find? name).or _
    by_cases same : x.name = name
    · subst same
      rw [fresh]
      simp [← size_build, Problem.size]
    · have other : (name == x.name) = false := by simpa using Ne.symm same
      simp [other, same]
  rows := h.rows

/-- The tables stay in step if a constraint is pushed. -/
theorem InStep.pushConstraint (h : b.InStep) (c : Constraint α) : (b.pushConstraint c).InStep :=
  { h with
    rows := fun name => by
      show (((c.name, b.constraints.size) :: b.constraintNames).lookup name).isSome =
        (b.build.constraints.push c).any _
      rw [List.lookup_cons, Array.any_push, ← h.rows]
      by_cases same : c.name = name
      · simp [same]
      · have other : (name == c.name) = false := by simpa using Ne.symm same
        simp [other, same] }

/-- A variable of the problem has one entry in every column. -/
theorem InStep.getElem?_build (h : b.InStep) {v : Var} {x : Variable α} :
    b.build.vars[v]? = some x ↔
      b.names[v]? = some x.name ∧ b.kinds[v]? = some x.kind ∧ b.objective[v]? = some x.objective ∧
        b.lower[v]? = some x.lower ∧ b.upper[v]? = some x.upper := by
  have entry {β : Type} {xs : Array β} (size : xs.size = b.names.size) (inside : v < b.names.size)
      (y d : β) : xs[v]? = some y ↔ xs.getD v d = y := by
    rw [Array.getD_eq_getD_getElem?, Array.getElem?_eq_getElem (size ▸ inside), Option.getD_some,
      Option.some_inj]
  rw [build, Array.getElem?_mapIdx]
  by_cases inside : v < b.names.size
  · rw [entry h.kinds inside _ .continuous, entry h.objective inside _ 0,
      entry h.lower inside _ 0, entry h.upper inside _ .posInf, Array.getElem?_eq_getElem inside]
    cases x
    simp
  · rw [Array.getElem?_eq_none (not_lt.mp inside)]
    simp

/-! ### Single calls -/

section Run

omit [Scalar α]

variable {β γ : Type}

/-! What steps do to a builder, one lemma for each way to put them together. -/

/-- What is done after a step is done with its answer, unless it fails. -/
theorem run_bind (x : Build α β) (f : β → Build α γ) (b : Builder α) :
    (x >>= f).run.run b = match x.run.run b with
      | (.ok a, b) => (f a).run.run b
      | (.error e, b) => (.error e, b) := by
  show (ExceptT.bindCont f <| (x.run.run b).1).run (x.run.run b).2 = _
  rcases x.run.run b with ⟨_ | _, _⟩ <;> rfl

/-- A function of an answer leaves the builder alone. -/
theorem run_map (x : Build α β) (f : β → γ) (b : Builder α) :
    (f <$> x).run.run b = ((x.run.run b).1.map f, (x.run.run b).2) := by
  show StateT.run (ExceptT.run (x >>= fun a => pure (f a))) b = _
  rw [run_bind]
  rcases x.run.run b with ⟨_ | _, _⟩ <;> rfl

/-- What is done for each entry of a list is done for the first one and then, unless it fails, for
the others. -/
theorem run_forM_cons (f : γ → Build α PUnit) (c : γ) (cs : List γ) (b : Builder α) :
    ((c :: cs).forM f).run.run b = match (f c).run.run b with
      | (.ok _, b) => (cs.forM f).run.run b
      | (.error e, b) => (.error e, b) := by
  show (f c >>= fun _ => cs.forM f).run.run b = _
  rw [run_bind]
  rcases (f c).run.run b with ⟨_ | _, _⟩ <;> rfl

/-- A condition chooses between two steps. -/
theorem run_ite (c : Prop) [Decidable c] (x y : Build α β) (b : Builder α) :
    (if c then x else y).run.run b = if c then x.run.run b else y.run.run b := by
  split <;> rfl

/-- The builder that is read is the one at hand. -/
theorem run_get (b : Builder α) : (get : Build α (Builder α)).run.run b = (.ok b, b) := rfl

/-- An update cannot fail. -/
theorem run_modify (f : Builder α → Builder α) (b : Builder α) :
    (modify f : Build α PUnit).run.run b = (.ok ⟨⟩, f b) := rfl

/-- A failure keeps the builder. -/
theorem run_throw (e : ProblemError α) (b : Builder α) :
    (throw e : Build α β).run.run b = (.error e, b) := rfl

/-- An answer alone keeps the builder. -/
theorem run_pure (a : β) (b : Builder α) : (pure a : Build α β).run.run b = (.ok a, b) := rfl

end Run

/-- Adding a variable first checks everything and then extends all columns. -/
theorem answer_addVariable (b : Builder α) (name : String) (kind : VariableKind)
    (objective lower : α) (upper : Extended α) :
    let d := kind.domain lower upper
    answer (.addVariable name kind objective lower upper) b =
      if (b.lookup.lookup name).isSome then (.error (.duplicateVariable name), b)
      else if !isFinite objective then (.error (.nonFiniteCoefficient name objective), b)
      else if !isFinite lower then (.error (.infiniteLowerBound name), b)
      else if !(extend d.1).le d.2 then (.error (.emptyDomain name d.1 d.2), b)
      else (.ok (some b.names.size), b.pushVariable ⟨name, kind, objective, d.1, d.2⟩) := by
  simp only [answer, perform, addVariable, run_map, run_bind, run_ite, run_get, run_modify,
    run_throw, run_pure]
  split_ifs <;> rfl

/-- The first bad term is refused; if there is none, nothing happens. -/
theorem run_checkTerms (b : Builder α) (name : String) (terms : List (Var × α)) :
    (terms.forM (checkTerm name)).run.run b =
      (match b.build.badTerm? name terms with
        | some e => .error e
        | none => .ok ⟨⟩, b) := by
  induction terms with
  | nil => rfl
  | cons t ts ih =>
    obtain ⟨v, a⟩ := t
    have first : (checkTerm name (v, a)).run.run b =
        if v ≥ b.build.size then (.error (.unknownVariable name v), b)
        else if !isFinite a then (.error (.nonFiniteCoefficient name a), b)
        else (.ok ⟨⟩, b) := by
      simp only [checkTerm, run_bind, run_ite, run_get, run_throw, run_pure, size_build]
    rw [run_forM_cons, first, Problem.badTerm?, List.findSome?_cons]
    by_cases unknown : v ≥ b.build.size
    · simp only [if_pos unknown]
    by_cases infinite : (!isFinite a) = true
    · simp only [if_neg unknown, if_pos infinite]
    · simp only [if_neg unknown, if_neg infinite]
      exact ih

/-- Adding a constraint first checks everything and then extends the table and the rows. -/
theorem answer_addConstraint (b : Builder α) (name : String) (terms : List (Var × α))
    (sense : RowSense) (rhs : α) :
    answer (.addConstraint name terms sense rhs) b =
      if (b.constraintNames.lookup name).isSome then (.error (.duplicateConstraint name), b)
      else if !isFinite rhs then (.error (.nonFiniteCoefficient name rhs), b)
      else match b.build.badTerm? name terms with
        | some e => (.error e, b)
        | none => (.ok (some b.constraints.size),
          b.pushConstraint { terms := mergeTerms terms, sense, rhs, name }) := by
  simp only [answer, perform, addConstraint, run_map, run_bind, run_ite, run_get, run_modify,
    run_throw, run_pure, run_checkTerms]
  split_ifs
  · rfl
  · rfl
  · cases b.build.badTerm? name terms <;> rfl

/-- A call fails with the cause that the problem would refuse it for, and leaves the builder as it
is; or it does to the builder what it would do to the problem, with the same answer, and leaves it
in step. -/
theorem answer_cases (h : b.InStep) (call : Call α) :
    (∃ e, answer call b = (.error e, b) ∧ b.build.perform call = .error e) ∨
      ∃ i b', answer call b = (.ok i, b') ∧ b.build.perform call = .ok (i, b'.build) ∧
        b'.InStep := by
  cases call with
  | setName name => exact .inr ⟨none, { b with name }, rfl, rfl, { h with }⟩
  | setSense sense => exact .inr ⟨none, { b with sense }, rfl, rfl, { h with }⟩
  | addVariable name kind objective lower upper =>
    rw [answer_addVariable, h.lookup, Problem.perform, Problem.addVariable]
    generalize kind.domain lower upper = d
    split_ifs with used objective_finite lower_finite crossed
    · exact .inl ⟨_, rfl, rfl⟩
    · exact .inl ⟨_, rfl, rfl⟩
    · exact .inl ⟨_, rfl, rfl⟩
    · have ordered : (extend d.1).le d.2 = false := by simpa using crossed
      exact .inl ⟨_, rfl, by simp [ordered, Except.map]⟩
    · have fresh := Option.not_isSome_iff_eq_none.mp used
      have ordered : (extend d.1).le d.2 = true := by simpa using crossed
      refine .inr ⟨_, _, rfl, ?_, h.pushVariable fresh⟩
      simp only [ordered, if_true, Except.map, h.build_pushVariable, size_build]
  | addConstraint name terms sense rhs =>
    rw [answer_addConstraint, h.rows, Problem.perform, Problem.addConstraint]
    split_ifs with used rhs_finite
    · exact .inl ⟨_, rfl, rfl⟩
    · exact .inl ⟨_, rfl, rfl⟩
    · cases b.build.badTerm? name terms with
      | some e => exact .inl ⟨_, rfl, rfl⟩
      | none => exact .inr ⟨_, _, rfl, rfl, h.pushConstraint _⟩

/-! ### Calls in a row -/

/-- The calls that do not fail. -/
def kept (calls : List (Call α)) (b : Builder α) : List (Call α) :=
  ((calls.zip (answers calls b).1).filter (·.2.isOk)).map (·.1)

/-- A builder without anything is in step. -/
theorem InStep.empty (name : String) (sense : Sense) :
    InStep ({ name, sense } : Builder α) where
  kinds := rfl
  objective := rfl
  lower := rfl
  upper := rfl
  lookup _ := by simp [build, Problem.find?]
  rows _ := by simp [build]

/-- A call that fails is not kept. -/
theorem kept_cons_error {call : Call α} {e : ProblemError α} (h : answer call b = (.error e, b))
    (calls : List (Call α)) : kept (call :: calls) b = kept calls b := by
  simp [kept, answers, h, Except.isOk, Except.toBool]

/-- A call that does not fail is kept. -/
theorem kept_cons_ok {call : Call α} {i : Option Nat} {b' : Builder α}
    (h : answer call b = (.ok i, b')) (calls : List (Call α)) :
    kept (call :: calls) b = call :: kept calls b' := by
  simp [kept, answers, h, Except.isOk, Except.toBool]

/-- Calls keep the columns in step and the problem consistent, and without those that fail the other
ones come to the same. -/
theorem answers_spec [Faithful α] (calls : List (Call α)) {b : Builder α} (h : b.InStep)
    (consistent : b.build.Consistent) :
    let (given, b') := answers calls b
    b'.InStep ∧ b'.build.Consistent ∧ answers (kept calls b) b = (given.filter (·.isOk), b') := by
  induction calls generalizing b with
  | nil => exact ⟨h, consistent, rfl⟩
  | cons call calls ih =>
    rcases answer_cases h call with ⟨e, failed, -⟩ | ⟨i, b', done, performed, in_step⟩
    · obtain ⟨in_step', consistent', same⟩ := ih h consistent
      simp only [answers, failed, kept_cons_error failed]
      exact ⟨in_step', consistent', same⟩
    · obtain ⟨in_step', consistent', same⟩ := ih in_step (consistent.perform performed)
      simp only [answers, done, kept_cons_ok done, same]
      exact ⟨in_step', consistent', rfl⟩

/-- Calls of which none may fail do to the problem in the columns what they do to a problem. -/
theorem run_forM_perform (calls : List (Call α)) {b : Builder α} (h : b.InStep) :
    (∃ e b', (calls.forM fun call => discard (perform call)).run.run b = (.error e, b') ∧
        calls.foldlM (fun p call => (·.2) <$> p.perform call) b.build = .error e) ∨
      ∃ b', (calls.forM fun call => discard (perform call)).run.run b = (.ok ⟨⟩, b') ∧
        calls.foldlM (fun p call => (·.2) <$> p.perform call) b.build = .ok b'.build := by
  induction calls generalizing b with
  | nil => exact .inr ⟨b, rfl, rfl⟩
  | cons call calls ih =>
    have discarded : (discard (perform call)).run.run b =
        ((answer call b).1.map fun _ => ⟨⟩, (answer call b).2) := run_map _ _ b
    rw [run_forM_cons, discarded, List.foldlM_cons]
    rcases answer_cases h call with ⟨e, failed, refused⟩ | ⟨i, b', done, performed, in_step⟩
    · rw [failed, refused]
      exact .inl ⟨e, b, rfl, rfl⟩
    · rw [done, performed]
      exact ih in_step

/-- Whatever calls are made of a new builder, also if some of them fail: every variable of the
problem that is built has one entry in every column; a name is found exactly at the variable that
has it, in the table of the builder as in the problem; the names of the constraints are different;
the mask has the binary and the integer variables; and lower bounds are finite and at most the upper
ones. Without the calls that fail, the other ones have the same answers and build the same
problem. -/
theorem answers_consistent [Faithful α] (name : String) (calls : List (Call α)) :
    let b := (answers calls { name }).2
    let p := b.build
    (b.names.size = p.size ∧ b.kinds.size = p.size ∧ b.objective.size = p.size ∧
      b.lower.size = p.size ∧ b.upper.size = p.size) ∧
    (∀ (v : Var) (x : Variable α), p.vars[v]? = some x ↔
      b.names[v]? = some x.name ∧ b.kinds[v]? = some x.kind ∧ b.objective[v]? = some x.objective ∧
        b.lower[v]? = some x.lower ∧ b.upper[v]? = some x.upper) ∧
    (∀ n v, p.find? n = some v ↔ ∃ x : Variable α, p.vars[v]? = some x ∧ x.name = n) ∧
    (∀ n, b.lookup.lookup n = p.find? n) ∧
    (p.constraints.toList.map (·.name)).Nodup ∧
    (∀ v, v ∈ p.integralVars ↔
      ∃ x : Variable α, p.vars[v]? = some x ∧ (x.kind = .binary ∨ x.kind = .integer)) ∧
    (∀ x ∈ p.vars, isFinite x.lower = true ∧ (extend x.lower).le x.upper = true) ∧
    answers (kept calls { name }) { name } =
      ((answers calls { name }).1.filter (·.isOk), b) := by
  have empty : Problem.Consistent ({ name } : Builder α).build := .empty name .minimize
  obtain ⟨in_step, consistent, same⟩ := answers_spec calls (InStep.empty name .minimize) empty
  have size := size_build (answers calls { name }).2
  refine ⟨⟨size.symm, in_step.kinds.trans size.symm, in_step.objective.trans size.symm,
      in_step.lower.trans size.symm, in_step.upper.trans size.symm⟩,
    fun v x => in_step.getElem?_build, fun n v => Problem.find?_eq_some consistent.names,
    in_step.lookup, consistent.rows, fun v => Problem.mem_integralVars_iff, consistent.bounds, same⟩

end Builder

/-- The problem of a draft is the one that its additions make of a problem without any. -/
theorem Problem.ofDraft_eq {α : Type} [Scalar α] (draft : Problem α) :
    draft.ofDraft = draft.additions.foldlM (fun p call => (·.2) <$> p.perform call)
      { name := draft.name, sense := draft.sense } := by
  have in_step := Builder.InStep.empty (α := α) draft.name draft.sense
  obtain ⟨e, b, made, folded⟩ | ⟨b, made, folded⟩ :=
    Builder.run_forM_perform draft.additions in_step
  · simp only [Problem.ofDraft, made]
    exact folded.symm
  · simp only [Problem.ofDraft, made]
    exact folded.symm

end Milp
