import Mathlib.Tactic.SplitIfs
import Milp.Proofs.Number.Double
import Milp.Proofs.Param.Cast
import Milp.Search.Settings

/-!
# Parameters keep to their declarations

A parameter is declared with a default, which fixes its type, and with a range. Whatever is set and
reset afterwards, its value has that type and lies in that range (`Registry.Declares`). So the
parameters of the solver can always be read, and numbers that are read are within their bounds
(`Registry.Declares.read_real`).
-/

namespace Milp

/-! ### Values of a type -/

namespace ParamValue

variable {t : ParamType}

/-- The value of a type with the given content. -/
def ofContent : (t : ParamType) → t.Carrier → ParamValue
  | .bool, b => .bool b
  | .int, i => .int i
  | .long, i => .long i
  | .real, x => .real x
  | .char, c => .char c
  | .string, s => .string s

/-- It has that type. -/
@[simp] theorem type_ofContent (x : t.Carrier) : (ofContent t x).type = t := by
  cases t <;> rfl

/-- It has that content. -/
@[simp] theorem content?_ofContent (x : t.Carrier) : (ofContent t x).content? t = some x := by
  cases t <;> rfl

/-- Every value is of its type and has a content. -/
theorem exists_ofContent {v : ParamValue} (type_eq : v.type = t) : ∃ x, v = ofContent t x := by
  subst type_eq
  cases v <;> exact ⟨_, rfl⟩

end ParamValue

/-! ### One parameter -/

namespace Parameter

/-- Whether the value of a parameter has its type, and both the value and the default lie in its
range. -/
structure InRange (p : Parameter) : Prop where
  type_eq : p.value.type = p.type
  value : checkRange p.range p.value = .ok ()
  default : checkRange p.range p.default = .ok ()

variable {p q : Parameter} {range : Option (Float × Float)} {v : ParamValue}

/-- Whether a number is undefined or beyond an end of the range. Text is not. -/
def OutOfRange (range : Option (Float × Float)) (v : ParamValue) : Prop :=
  ∃ x min max, v.asDouble? = some x ∧ range = some (min, max) ∧
    (x.isNaN = true ∨ x < min ∨ max < x)

/-- What is checked is whether a value is out of range. -/
theorem checkRange_eq_ok_iff : checkRange range v = .ok () ↔ ¬OutOfRange range v := by
  unfold checkRange OutOfRange
  constructor
  · intro checked outside
    obtain ⟨x, min, max, double, rfl, beyond⟩ := outside
    simp only [double] at checked
    rw [if_pos (by simpa [or_assoc] using beyond)] at checked
    cases checked
  · intro inside
    split
    next x min max double =>
      refine if_neg fun beyond => inside ⟨x, min, max, double, rfl, ?_⟩
      simpa [or_assoc] using beyond
    next => rfl

/-- A number that lies in its range is not undefined and is beyond neither end. -/
theorem within_of_checkRange {x min max : Float}
    (checked : checkRange (some (min, max)) v = .ok ()) (double : v.asDouble? = some x) :
    x.isNaN = false ∧ ¬x < min ∧ ¬max < x := by
  have inside := checkRange_eq_ok_iff.mp checked
  have beyond : ¬(x.isNaN = true ∨ x < min ∨ max < x) := fun beyond =>
    inside ⟨x, min, max, double, rfl, beyond⟩
  simpa [not_or] using beyond

/-- What is set is the value, cast to the type of the parameter, if it lies in the range. -/
theorem set_eq (h : p.set v = .ok q) :
    ∃ w, v.cast p.type = .ok w ∧ checkRange p.range w = .ok () ∧ q = { p with value := w } := by
  unfold Parameter.set at h
  cases cast : v.cast p.type with
  | error e =>
    rw [cast] at h
    cases h
  | ok w =>
    cases checked : checkRange p.range w with
    | error e =>
      simp only [cast, bind, Except.bind, checked] at h
      cases h
    | ok _ =>
      simp only [cast, bind, Except.bind, checked] at h
      cases h
      exact ⟨w, rfl, checked, rfl⟩

/-- A value that is set is of the right type and in range. -/
theorem InRange.set (h : p.InRange) {w : ParamValue} (cast : v.cast p.type = .ok w)
    (checked : checkRange p.range w = .ok ()) : InRange { p with value := w } :=
  ⟨ParamValue.type_of_cast cast, checked, h.default⟩

/-- So is the default that is restored. -/
theorem InRange.reset (h : p.InRange) : p.reset.InRange := ⟨rfl, h.default, h.default⟩

end Parameter

/-! ### Registries -/

namespace Registry

variable {r r' : Registry} {name other : String} {default : ParamValue}
  {range : Option (Float × Float)}

/-- Whether a registry has a parameter with a given default and range, whose value keeps to them. -/
def Declares (r : Registry) (name : String) (default : ParamValue)
    (range : Option (Float × Float)) : Prop :=
  ∃ p, r.find? name = some p ∧ p.InRange ∧ p.default = default ∧ p.range = range

/-- A parameter has the name that it is found by. -/
theorem name_of_find? {p : Parameter} (found : r.find? name = some p) : p.name = name := by
  have := List.find?_some found
  simpa using this

/-- Parameters that are changed where they stand are found where they were. -/
theorem find?_map (f : Parameter → Parameter) (same : ∀ p, (f p).name = p.name) (r : Registry)
    (name : String) :
    (⟨r.parameters.map f⟩ : Registry).find? name = (r.find? name).map f := by
  unfold find?
  rw [List.find?_map]
  simp only [Function.comp_def, same]

/-- A value is read, in its type, as it is stored. -/
theorem getAs_of_get {t : ParamType} {x : t.Carrier} (got : r.get name = .ok (.ofContent t x)) :
    r.getAs t name = .ok (.ofContent t x) := by
  have cast : (ParamValue.ofContent t x).cast t = .ok (.ofContent t x) :=
    ParamValue.cast_eq_ok_iff.mpr (if_pos (ParamValue.type_ofContent x))
  simp [getAs, got, cast, bind, Except.bind, pure, Except.pure]

/-- So is its content. -/
theorem read_of_get {t : ParamType} {x : t.Carrier} (got : r.get name = .ok (.ofContent t x)) :
    r.read t name = .ok x := by
  simp [Registry.read, getAs_of_get got, bind, Except.bind, pure, Except.pure]

/-- A parameter that is changed keeps to what is declared if it did so before. -/
theorem Declares.map (h : r.Declares name default range) (f : Parameter → Parameter)
    (same : ∀ p, (f p).name = p.name)
    (kept : ∀ p, r.find? name = some p → p.InRange →
      (f p).InRange ∧ (f p).default = p.default ∧ (f p).range = p.range) :
    Declares ⟨r.parameters.map f⟩ name default range := by
  obtain ⟨p, found, inRange, rfl, rfl⟩ := h
  obtain ⟨inRange', default_eq, range_eq⟩ := kept p found inRange
  exact ⟨f p, by rw [find?_map f same, found, Option.map_some], inRange', default_eq, range_eq⟩

/-- A parameter in the place of the one of its name. -/
theorem Declares.replace (h : r.Declares name default range) {p q : Parameter}
    (found : r.find? other = some p) (same : q.name = p.name)
    (kept : p.InRange → q.InRange ∧ q.default = p.default ∧ q.range = p.range) :
    (r.replace q).Declares name default range := by
  refine h.map _ (fun p' => ?_) fun p' found' inRange => ?_
  · split_ifs with eq
    · exact eq.symm
    · rfl
  · split_ifs with eq
    · obtain rfl : name = other := by
        rw [← name_of_find? found', eq, same, name_of_find? found]
      cases found.symm.trans found'
      exact kept inRange
    · exact ⟨inRange, rfl, rfl⟩

/-- A parameter that is set takes the place of the one of its name. -/
theorem set_eq {v : ParamValue} (h : r.set name v = .ok r') :
    ∃ p q, r.find? name = some p ∧ p.set v = .ok q ∧ r' = r.replace q := by
  unfold Registry.set find at h
  cases found : r.find? name with
  | none =>
    rw [found] at h
    cases h
  | some p =>
    simp only [found, bind, Except.bind] at h
    split at h
    next q changed =>
      cases h
      exact ⟨p, q, rfl, changed, rfl⟩
    next => cases h

/-- So does a parameter whose default is restored. -/
theorem reset_eq (h : r.reset name = .ok r') :
    ∃ p, r.find? name = some p ∧ r' = r.replace p.reset := by
  unfold Registry.reset find at h
  cases found : r.find? name with
  | none =>
    rw [found] at h
    cases h
  | some p =>
    rw [found] at h
    cases h
    exact ⟨p, rfl, rfl⟩

/-- Setting a parameter, this one or another. -/
theorem Declares.set (h : r.Declares name default range) {v : ParamValue}
    (set : r.set other v = .ok r') : r'.Declares name default range := by
  obtain ⟨p, q, found, changed, rfl⟩ := set_eq set
  obtain ⟨w, cast, checked, rfl⟩ := Parameter.set_eq changed
  exact h.replace found rfl fun inRange => ⟨inRange.set cast checked, rfl, rfl⟩

/-- Restoring the default of a parameter. -/
theorem Declares.reset (h : r.Declares name default range) (reset : r.reset other = .ok r') :
    r'.Declares name default range := by
  obtain ⟨p, found, rfl⟩ := reset_eq reset
  exact h.replace found rfl fun inRange => ⟨inRange.reset, rfl, rfl⟩

/-- Restoring every default. -/
theorem Declares.resetAll (h : r.Declares name default range) :
    r.resetAll.Declares name default range :=
  h.map _ (fun _ => rfl) fun _ _ inRange => ⟨inRange.reset, rfl, rfl⟩

/-! ### Registering -/

/-- A new parameter is found by its name, and all others are found as before. -/
theorem find?_insertSorted {p : Parameter} {parameters : List Parameter}
    (new : parameters.find? (·.name == p.name) = none) (name : String) :
    (insertSorted p parameters).find? (·.name == name) =
      if p.name = name then some p else parameters.find? (·.name == name) := by
  induction parameters with
  | nil =>
    by_cases eq : p.name = name
    · simp [insertSorted, eq]
    · simp [insertSorted, eq]
  | cons q rest ih =>
    obtain ⟨other, new⟩ : (q.name == p.name) = false ∧
        rest.find? (·.name == p.name) = none := by
      rw [List.find?_cons] at new
      split at new
      · cases new
      next other => exact ⟨by simpa using other, new⟩
    rw [insertSorted]
    split_ifs with before eq eq
    · simp [eq]
    · simp [List.find?_cons, eq]
    · rw [List.find?_cons, ih new, if_pos eq, ← eq, other]
    · rw [List.find?_cons, ih new, if_neg eq, List.find?_cons]

/-- What is registered is found, at its default; nothing else changes. -/
theorem find?_register {description : String} (h : r.register other description default range = .ok r')
    (name : String) : r.find? other = none ∧ Parameter.checkRange range default = .ok () ∧
      r'.find? name = if other = name then some ⟨other, description, default, default, range⟩
        else r.find? name := by
  unfold register at h
  split_ifs at h with used
  have new : r.find? other = none := by simpa using used
  split at h
  · cases h
  next checked =>
    cases h
    exact ⟨new, checked,
      find?_insertSorted (p := ⟨other, description, default, default, range⟩) new name⟩

/-- A registry declares what was just registered. -/
theorem declares_register {description : String}
    (h : r.register name description default range = .ok r') : r'.Declares name default range := by
  obtain ⟨-, checked, found⟩ := find?_register h name
  rw [if_pos rfl] at found
  exact ⟨_, found, ⟨rfl, checked, checked⟩, rfl, rfl⟩

/-- What a registry declares already cannot be registered again. -/
theorem Declares.register (h : r.Declares name default range) {description : String}
    {default' : ParamValue} {range' : Option (Float × Float)}
    (new : r.register other description default' range' = .ok r') :
    r'.Declares name default range := by
  obtain ⟨p, found, inRange, rest⟩ := h
  obtain ⟨unused, -, found'⟩ := find?_register new name
  refine ⟨p, ?_, inRange, rest⟩
  rw [found', if_neg]
  · exact found
  · rintro rfl
    cases found.symm.trans unused

/-- Registers parameters one after the other and passes over those that are refused. -/
def registerAll (declarations : List (String × String × ParamValue × Option (Float × Float)))
    (r : Registry) : Registry :=
  declarations.foldl (fun r (name, description, default, range) =>
    match r.register name description default range with
    | .ok r => r
    | .error _ => r) r

variable {declarations : List (String × String × ParamValue × Option (Float × Float))}

/-- What is declared stays so while more is registered. -/
theorem Declares.registerAll (h : r.Declares name default range) :
    (registerAll declarations r).Declares name default range := by
  induction declarations generalizing r with
  | nil => exact h
  | cons d rest ih =>
    refine ih ?_
    simp only
    split
    next new => exact h.register new
    next => exact h

/-- Parameters with different names, whose defaults lie in their ranges, are all registered. -/
theorem declares_registerAll (different : (declarations.map (·.1)).Nodup)
    (unused : ∀ d ∈ declarations, r.find? d.1 = none)
    (checked : ∀ d ∈ declarations, Parameter.checkRange d.2.2.2 d.2.2.1 = .ok ())
    {d : String × String × ParamValue × Option (Float × Float)} (hd : d ∈ declarations) :
    (registerAll declarations r).Declares d.1 d.2.2.1 d.2.2.2 := by
  induction declarations generalizing r with
  | nil => cases hd
  | cons first rest ih =>
    obtain ⟨name, description, default, range⟩ := first
    obtain ⟨r', accepted⟩ : ∃ r', r.register name description default range = .ok r' := by
      unfold register
      rw [unused _ List.mem_cons_self]
      simp only [checked _ List.mem_cons_self]
      exact ⟨_, rfl⟩
    have goesOn : registerAll (⟨name, description, default, range⟩ :: rest) r =
        registerAll rest r' := by
      rw [registerAll, List.foldl_cons]
      simp only [accepted]
      rfl
    rw [goesOn]
    obtain ⟨first_new, different⟩ := List.nodup_cons.mp different
    rcases List.mem_cons.mp hd with rfl | later
    · exact (declares_register accepted).registerAll
    · refine ih different (fun e he => ?_) (fun e he => checked e (List.mem_cons_of_mem _ he)) later
      rw [(find?_register accepted e.1).2.2, if_neg]
      · exact unused e (List.mem_cons_of_mem _ he)
      · intro same
        exact first_new (List.mem_map.mpr ⟨e, he, same.symm⟩)

/-! ### The parameters of the solver -/

/-- Registries that come of the defaults of the solver by setting and resetting parameters. -/
inductive Configured : Registry → Prop
  | default : Configured defaultRegistry
  | set {r r' : Registry} {name : String} {v : ParamValue} (configured : Configured r)
      (set : r.set name v = .ok r') : Configured r'
  | reset {r r' : Registry} {name : String} (configured : Configured r)
      (reset : r.reset name = .ok r') : Configured r'
  | resetAll {r : Registry} (configured : Configured r) : Configured r.resetAll

/-- Every default of the solver lies in its range. -/
theorem solverParameters_inRange :
    ∀ d ∈ solverParameters, Parameter.checkRange d.2.2.2 d.2.2.1 = .ok () := by
  intro d hd
  simp only [solverParameters, List.mem_cons, List.not_mem_nil, or_false] at hd
  rcases hd with rfl | rfl | rfl | rfl | rfl | rfl | rfl | rfl | rfl | rfl | rfl | rfl | rfl <;> rfl

/-- However the solver is configured, its parameters keep to their declarations. -/
theorem Configured.declares (h : r.Configured)
    {d : String × String × ParamValue × Option (Float × Float)} (hd : d ∈ solverParameters) :
    r.Declares d.1 d.2.2.1 d.2.2.2 := by
  induction h with
  | default =>
    exact declares_registerAll (by decide) (fun _ _ => rfl) solverParameters_inRange hd
  | set _ set ih => exact ih.set set
  | reset _ reset ih => exact ih.reset reset
  | resetAll _ ih => exact ih.resetAll

/-- A parameter that is declared has a value of its type, which lies in its range. -/
theorem Declares.exists_content (h : r.Declares name default range) :
    ∃ x : default.type.Carrier, r.get name = .ok (.ofContent default.type x) ∧
      Parameter.checkRange range (.ofContent default.type x) = .ok () := by
  obtain ⟨p, found, inRange, rfl, rfl⟩ := h
  obtain ⟨x, content⟩ := ParamValue.exists_ofContent inRange.type_eq
  refine ⟨x, ?_, content ▸ inRange.value⟩
  simp [get, find, found, content, bind, Except.bind, pure, Except.pure, Parameter.type]

/-- A number that is declared can be read, and it lies in its range. -/
theorem Declares.read_real {x min max : Float}
    (h : r.Declares name (.real x) (some (min, max))) :
    ∃ t, r.read .real name = .ok t ∧ t.isNaN = false ∧ ¬t < min ∧ ¬max < t := by
  obtain ⟨t, got, checked⟩ := h.exists_content
  exact ⟨t, read_of_get got, Parameter.within_of_checkRange checked rfl⟩

end Registry

/-- The tolerance of the solver is moderate, however the solver is configured. -/
theorem Registry.Configured.exists_tolerance {r : Registry} (h : r.Configured) :
    ∃ t : Float, r.read .real "numerics/feastol" = .ok t ∧ Scalar.Moderate t := by
  have declared : r.Declares "numerics/feastol" (.real defaultTolerance) (some (1e-12, 1e-1)) :=
    h.declares (d := ("numerics/feastol", "feasibility and integrality tolerance",
      .real defaultTolerance, some (1e-12, 1e-1))) (by simp [solverParameters])
  obtain ⟨t, read_eq, defined, low, high⟩ := declared.read_real
  exact ⟨t, read_eq, Double.moderate defined low high⟩

end Milp
