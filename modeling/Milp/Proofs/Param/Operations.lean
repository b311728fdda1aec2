import Mathlib.Data.String.Basic
import Milp.Proofs.Param.Configured

/-!
# What the operations on a registry keep

A registry is filled and used by five operations, most of which may fail (`Registry.Operation`).
Whatever operations are carried out one after the other (`Registry.performAll`), its parameters
stand in ascending order of their names, and each has a value of its type that lies in its range
(`Registry.Sound`). So every value can be read back as it is stored, and what fails has no effect
beyond that of the values before it in a list (`Registry.consistent`).

An end of a range that is undefined is no end, for nothing is smaller or larger than it.
-/

namespace Milp

/-! ### Refusals -/

namespace Parameter

variable {v : ParamValue} {p : Parameter}

/-- A parameter does not take a value that cannot be cast to its type or is out of range then. -/
theorem set_error_iff : (∃ e, p.set v = .error e) ↔
    (∃ e, v.cast p.type = .error e) ∨ ∃ w, v.cast p.type = .ok w ∧ OutOfRange p.range w := by
  constructor
  · rintro ⟨e, failed⟩
    cases cast : v.cast p.type with
    | error e => exact .inl ⟨e, rfl⟩
    | ok w =>
      refine .inr ⟨w, rfl, ?_⟩
      by_contra inside
      have checked := checkRange_eq_ok_iff.mpr inside
      simp only [Parameter.set, cast, checked, bind, Except.bind, pure, Except.pure] at failed
      cases failed
  · intro unfit
    cases set : p.set v with
    | error e => exact ⟨e, rfl⟩
    | ok q =>
      obtain ⟨w, cast, checked, -⟩ := set_eq set
      obtain ⟨e, uncast⟩ | ⟨w', cast', outside⟩ := unfit
      · cases cast.symm.trans uncast
      · cases cast.symm.trans cast'
        exact absurd outside (checkRange_eq_ok_iff.mp checked)

end Parameter

/-! ### Operations -/

namespace Registry

/-- What can be done to a registry. -/
inductive Operation where
  | register (name description : String) (default : ParamValue) (range : Option (Float × Float))
  | set (name : String) (v : ParamValue)
  | setMany (values : List (String × ParamValue))
  | reset (name : String)
  | resetAll

/-- Whether the operation registers a parameter. -/
def Operation.registers : Operation → Bool
  | .register .. => true
  | _ => false

/-- Whether the operation sets parameters to given values. -/
def Operation.sets : Operation → Bool
  | .set .. => true
  | .setMany .. => true
  | _ => false

/-- The registry with what has been made of it, if that has not failed. -/
def attempt (r : Registry) : Except ParamError Registry → Registry × Except ParamError Unit
  | .ok r' => (r', .ok ())
  | .error e => (r, .error e)

/-- Carries out an operation. -/
def perform (r : Registry) : Operation → Registry × Except ParamError Unit
  | .register name description default range =>
    r.attempt (r.register name description default range)
  | .set name v => r.attempt (r.set name v)
  | .setMany values => r.setMany values
  | .reset name => r.attempt (r.reset name)
  | .resetAll => (r.resetAll, .ok ())

/-- Carries out operations one after the other, whether they fail or not. -/
def performAll (r : Registry) (ops : List Operation) : Registry :=
  ops.foldl (fun r op => (r.perform op).1) r

variable {r r' : Registry} {name : String} {v : ParamValue} {values : List (String × ParamValue)}
  {op : Operation} {ops : List Operation}

/-- What has been made of a registry, or the registry itself. -/
theorem attempt_cases (r : Registry) (result : Except ParamError Registry) :
    (∃ r', result = .ok r' ∧ r.attempt result = (r', .ok ())) ∨
      ∃ e, result = .error e ∧ r.attempt result = (r, .error e) := by
  cases result with
  | ok r' => exact .inl ⟨r', rfl, rfl⟩
  | error e => exact .inr ⟨e, rfl, rfl⟩

/-- An operation on a single parameter that fails has no effect. -/
theorem attempt_of_error {result : Except ParamError Registry} {e : ParamError}
    (failed : (r.attempt result).2 = .error e) : (r.attempt result).1 = r := by
  obtain ⟨r', -, eq⟩ | ⟨e', -, eq⟩ := r.attempt_cases result
  · rw [eq] at failed
    cases failed
  · rw [eq]

/-- What holds of a registry and of what is made of it holds after the attempt. -/
theorem attempt_keeps {P : Registry → Prop} {result : Except ParamError Registry} (start : P r)
    (made : ∀ r', result = .ok r' → P r') : P (r.attempt result).1 := by
  obtain ⟨r', eq, attempted⟩ | ⟨e, -, attempted⟩ := r.attempt_cases result
  · rw [attempted]
    exact made r' eq
  · rw [attempted]
    exact start

/-- Setting several parameters keeps what setting a single one keeps. -/
theorem setMany_keeps {P : Registry → Prop}
    (step : ∀ r r' name v, P r → r.set name v = .ok r' → P r') (start : P r)
    (values : List (String × ParamValue)) : P (r.setMany values).1 := by
  induction values generalizing r with
  | nil => exact start
  | cons first rest ih =>
    obtain ⟨name, v⟩ := first
    unfold setMany
    cases set : r.set name v with
    | ok r' => exact ih (step r r' name v start set)
    | error e => exact start

/-- Where setting several parameters fails, all up to some parameter are set and that one is
refused. -/
theorem setMany_error {e : ParamError} (failed : (r.setMany values).2 = .error e) :
    ∃ before name v after, values = before ++ (name, v) :: after ∧
      r.setMany before = ((r.setMany values).1, .ok ()) ∧
      (r.setMany values).1.set name v = .error e := by
  induction values generalizing r with
  | nil => cases failed
  | cons first rest ih =>
    obtain ⟨name, v⟩ := first
    unfold setMany at failed ⊢
    cases set : r.set name v with
    | error e' =>
      rw [set] at failed
      cases failed
      exact ⟨[], name, v, rest, rfl, rfl, set⟩
    | ok r' =>
      simp only [set] at failed ⊢
      obtain ⟨before, name', v', after, rfl, done, refused⟩ := ih failed
      refine ⟨(name, v) :: before, name', v', after, rfl, ?_, refused⟩
      simp only [set]
      exact done

/-- A parameter is refused if it is unknown, if its value cannot be cast, or if that is out of
range. -/
theorem set_error_iff : (∃ e, r.set name v = .error e) ↔
    r.find? name = none ∨ ∃ p, r.find? name = some p ∧
      ((∃ e, v.cast p.type = .error e) ∨
        ∃ w, v.cast p.type = .ok w ∧ Parameter.OutOfRange p.range w) := by
  unfold Registry.set find
  cases found : r.find? name with
  | none => simp [bind, Except.bind]
  | some p =>
    simp only [bind, Except.bind, reduceCtorEq, false_or, Option.some.injEq, exists_eq_left',
      ← Parameter.set_error_iff]
    cases p.set v with
    | ok q => simp [pure, Except.pure]
    | error e => simp

/-- A parameter is registered if its name is new and its default lies in its range. -/
theorem register_eq {description : String} {default : ParamValue} {range : Option (Float × Float)}
    (registered : r.register name description default range = .ok r') :
    r.find? name = none ∧ Parameter.checkRange range default = .ok () ∧
      r' = ⟨insertSorted ⟨name, description, default, default, range⟩ r.parameters⟩ := by
  obtain ⟨new, checked, -⟩ := find?_register registered name
  unfold Registry.register at registered
  simp only [new, checked] at registered
  cases registered
  exact ⟨new, checked, rfl⟩

/-! ### Sound registries -/

/-- Whether the parameters of a registry are in the order of their names, each with a value of its
type that lies in its range. -/
structure Sound (r : Registry) : Prop where
  ordered : r.names.Pairwise (· < ·)
  inRange : ∀ p ∈ r.parameters, p.InRange

/-- A registry without parameters is sound. -/
theorem sound_empty : empty.Sound := ⟨.nil, by simp [empty]⟩

/-- What is inserted is a new parameter among the old ones. -/
theorem mem_insertSorted {p q : Parameter} {parameters : List Parameter} :
    q ∈ insertSorted p parameters ↔ q = p ∨ q ∈ parameters := by
  induction parameters with
  | nil => simp [insertSorted]
  | cons first rest ih =>
    unfold insertSorted
    split
    · simp
    · simp only [List.mem_cons, ih]
      tauto

/-- A parameter with a new name is inserted at its place in the order of names. -/
theorem ordered_insertSorted {p : Parameter} {parameters : List Parameter}
    (ordered : parameters.Pairwise fun q q' => q.name < q'.name)
    (new : ∀ q ∈ parameters, q.name ≠ p.name) :
    (insertSorted p parameters).Pairwise fun q q' => q.name < q'.name := by
  induction parameters with
  | nil => simp [insertSorted]
  | cons first rest ih =>
    obtain ⟨first_lt, ordered⟩ := List.pairwise_cons.mp ordered
    unfold insertSorted
    split
    next before =>
      refine List.pairwise_cons.mpr ⟨fun q hq => ?_, List.pairwise_cons.mpr ⟨first_lt, ordered⟩⟩
      rcases List.mem_cons.mp hq with rfl | later
      · exact before
      · exact before.trans (first_lt q later)
    next notBefore =>
      refine List.pairwise_cons.mpr ⟨fun q hq => ?_, ih ordered fun q hq =>
        new q (List.mem_cons_of_mem _ hq)⟩
      rcases mem_insertSorted.mp hq with rfl | later
      · exact lt_of_le_of_ne (not_lt.mp notBefore) (new first List.mem_cons_self)
      · exact first_lt q later

namespace Sound

variable (h : r.Sound)

include h

/-- The parameters are in the order of their names. -/
theorem pairwise : r.parameters.Pairwise fun p q => p.name < q.name :=
  List.pairwise_map.mp h.ordered

/-- Every parameter is found by its name. -/
theorem find?_of_mem {p : Parameter} (hp : p ∈ r.parameters) : r.find? p.name = some p := by
  have ordered := h.pairwise
  unfold find?
  generalize r.parameters = parameters at hp ordered
  induction parameters with
  | nil => cases hp
  | cons first rest ih =>
    obtain ⟨first_lt, ordered⟩ := List.pairwise_cons.mp ordered
    rcases List.mem_cons.mp hp with rfl | later
    · simp
    · have other : (first.name == p.name) = false := by
        simpa using (first_lt p later).ne
      rw [List.find?_cons, other]
      exact ih later ordered

/-- A parameter of a name is the one that is found. -/
theorem eq_of_name {p q : Parameter} (hp : p ∈ r.parameters) (found : r.find? q.name = some q)
    (same : p.name = q.name) : p = q := by
  have found' := h.find?_of_mem hp
  rw [same, found] at found'
  exact (Option.some_inj.mp found').symm

/-- Parameters that are changed where they stand leave a sound registry if they keep their names,
their types and their ranges. -/
theorem map {f : Parameter → Parameter} (same : ∀ p ∈ r.parameters, (f p).name = p.name)
    (kept : ∀ p ∈ r.parameters, p.InRange → (f p).InRange) :
    Sound ⟨r.parameters.map f⟩ where
  ordered := by
    have names_eq : names ⟨r.parameters.map f⟩ = r.names := by
      simpa [names] using same
    rw [names_eq]
    exact h.ordered
  inRange := by
    intro q hq
    obtain ⟨p, hp, rfl⟩ := List.mem_map.mp hq
    exact kept p hp (h.inRange p hp)

/-- A parameter may take the place of the one of its name. -/
theorem replace {q : Parameter} (inRange : q.InRange) : (r.replace q).Sound := by
  refine h.map (fun p _ => ?_) fun p _ old => ?_
  · by_cases same : p.name = q.name
    · rw [if_pos same, same]
    · rw [if_neg same]
  · by_cases same : p.name = q.name
    · rw [if_pos same]
      exact inRange
    · rw [if_neg same]
      exact old

/-- A parameter that is found is in range. -/
theorem inRange_of_find? {p : Parameter} (found : r.find? name = some p) : p.InRange :=
  h.inRange p (List.mem_of_find?_eq_some found)

/-- Registering a parameter leaves a sound registry. -/
theorem register {description : String} {default : ParamValue} {range : Option (Float × Float)}
    (registered : r.register name description default range = .ok r') : r'.Sound := by
  obtain ⟨new, checked, rfl⟩ := register_eq registered
  constructor
  · refine List.pairwise_map.mpr (ordered_insertSorted h.pairwise fun q hq same => ?_)
    have found := h.find?_of_mem hq
    rw [same, new] at found
    cases found
  · intro q hq
    rcases mem_insertSorted.mp hq with rfl | old
    · exact ⟨rfl, checked, checked⟩
    · exact h.inRange q old

/-- Setting a parameter leaves a sound registry. -/
theorem set (set : r.set name v = .ok r') : r'.Sound := by
  obtain ⟨p, q, found, changed, rfl⟩ := set_eq set
  obtain ⟨w, cast, checked, rfl⟩ := Parameter.set_eq changed
  exact h.replace ((h.inRange_of_find? found).set cast checked)

/-- Restoring the default of a parameter leaves a sound registry. -/
theorem reset (reset : r.reset name = .ok r') : r'.Sound := by
  obtain ⟨p, found, rfl⟩ := reset_eq reset
  exact h.replace (h.inRange_of_find? found).reset

/-- Restoring every default leaves a sound registry. -/
theorem resetAll : r.resetAll.Sound := h.map (fun _ _ => rfl) fun _ _ old => old.reset

/-- Every operation leaves a sound registry. -/
theorem perform (op : Operation) : (r.perform op).1.Sound := by
  cases op with
  | register name description default range => exact attempt_keeps h fun r' => h.register
  | set name v => exact attempt_keeps h fun r' => h.set
  | setMany values => exact setMany_keeps (fun _ _ _ _ sound set => sound.set set) h values
  | reset name => exact attempt_keeps h fun r' => h.reset
  | resetAll => exact h.resetAll

/-- So do all operations one after the other. -/
theorem performAll (ops : List Operation) : (r.performAll ops).Sound := by
  induction ops generalizing r with
  | nil => exact h
  | cons op ops ih => exact ih (h.perform op)

/-- A parameter is read as it is stored. -/
theorem read {p : Parameter} (hp : p ∈ r.parameters) :
    r.getAs p.type p.name = .ok p.value ∧
      ∃ x, p.value.content? p.type = some x ∧ r.read p.type p.name = .ok x := by
  obtain ⟨x, content⟩ := ParamValue.exists_ofContent (h.inRange p hp).type_eq
  have got : r.get p.name = .ok (.ofContent p.type x) := by
    simp [get, find, h.find?_of_mem hp, content, bind, Except.bind, pure, Except.pure]
  rw [content]
  exact ⟨getAs_of_get got, x, ParamValue.content?_ofContent x, read_of_get got⟩

end Sound

/-! ### The parameters of the solver -/

/-- Operations that register nothing configure the solver. -/
theorem Configured.perform (h : r.Configured) (declared : op.registers = false) :
    (r.perform op).1.Configured := by
  cases op with
  | register => cases declared
  | set name v => exact attempt_keeps h fun r' set => .set h set
  | setMany values => exact setMany_keeps (fun _ _ _ _ configured set => .set configured set) h values
  | reset name => exact attempt_keeps h fun r' reset => .reset h reset
  | resetAll => exact .resetAll h

/-- So do any number of them one after the other. -/
theorem Configured.performAll (h : r.Configured) (declared : ∀ op ∈ ops, op.registers = false) :
    (r.performAll ops).Configured := by
  induction ops generalizing r with
  | nil => exact h
  | cons op ops ih =>
    apply ih (h.perform (declared op List.mem_cons_self))
    intro op' later
    exact declared op' (List.mem_cons_of_mem _ later)

/-! ### Consistency -/

/-- Whatever operations are carried out on a registry without parameters: every value has the type
of its default and, where it is a number with a range, it is not undefined and is beyond neither end
of the range; it is read, in its type, as it is stored. What fails leaves the registry as it is,
except that several parameters are set up to the first that is refused. A parameter is refused
exactly where it is unknown, its value cannot be cast, or that is out of range. -/
theorem consistent (ops : List Operation) :
    let r := empty.performAll ops
    (∀ p ∈ r.parameters,
      p.value.type = p.default.type ∧
      (∀ x min max, p.value.asDouble? = some x → p.range = some (min, max) →
        x.isNaN = false ∧ ¬x < min ∧ ¬max < x ∧
          (min.isNaN = false → min ≤ x) ∧ (max.isNaN = false → x ≤ max)) ∧
      r.getAs p.type p.name = .ok p.value ∧
      ∃ x, p.value.content? p.type = some x ∧ r.read p.type p.name = .ok x) ∧
    (∀ op e, (r.perform op).2 = .error e → (∀ values, op ≠ .setMany values) →
      (r.perform op).1 = r) ∧
    (∀ values e, (r.perform (.setMany values)).2 = .error e →
      ∃ before name v after, values = before ++ (name, v) :: after ∧
        r.perform (.setMany before) = ((r.perform (.setMany values)).1, .ok ()) ∧
        (r.perform (.setMany values)).1.set name v = .error e) ∧
    ∀ name v, (∃ e, r.set name v = .error e) ↔
      r.find? name = none ∨ ∃ p, r.find? name = some p ∧
        ((∃ e, v.cast p.type = .error e) ∨
          ∃ w, v.cast p.type = .ok w ∧ Parameter.OutOfRange p.range w) := by
  intro r
  have sound : r.Sound := sound_empty.performAll ops
  refine ⟨fun p hp => ⟨(sound.inRange p hp).type_eq, ?_, sound.read hp⟩, ?_, ?_, ?_⟩
  · intro x min max double range_eq
    have checked := (sound.inRange p hp).value
    rw [range_eq] at checked
    obtain ⟨defined, above, below⟩ := Parameter.within_of_checkRange checked double
    exact ⟨defined, above, below, fun least => Double.le_of_not_lt defined least above,
      fun most => Double.le_of_not_lt most defined below⟩
  · intro op e failed single
    cases op with
    | setMany values => exact absurd rfl (single values)
    | resetAll => cases failed
    | _ => exact attempt_of_error failed
  · intro values e failed
    exact setMany_error failed
  · intro name v
    exact set_error_iff

end Registry

end Milp
