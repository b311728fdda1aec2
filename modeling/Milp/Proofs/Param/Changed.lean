import Milp.Proofs.Param.Operations

/-!
# What is changed

A registry lists the parameters whose values differ from their defaults, with their values. The list
says how the registry has come of its defaults: a registry of the same declarations that is set to
what is listed has the same values (`Registry.setMany_changed`).

Doubles are compared as doubles are, so an undefined one differs from itself. A parameter whose
default is undefined is therefore listed as long as it is at its default, and a registry is without
changes after a reset only if no default is undefined (`Registry.changed_faithful`).
-/

namespace Milp

/-! ### Equal values -/

/-- A double is equal to itself unless it is undefined. -/
theorem Double.beq_self_iff (x : Float) : (x == x) = true ↔ x.isNaN = false := by
  have read : (x == x) = (x.toModel.unpack.compare x.toModel.unpack == some .eq) := rfl
  rw [read]
  constructor
  · intro same
    by_contra undefined
    rw [Bool.not_eq_false, Float.isNaN, Float.Model.isNaN] at undefined
    cases eq : x.toModel.unpack with
    | notANumber =>
      rw [eq] at same
      cases same
    | _ =>
      rw [eq] at undefined
      cases undefined
  · intro defined
    obtain ⟨o, forth, back⟩ := Double.exists_compare defined defined
    have turned : o = o.swap := Option.some_inj.mp (forth.symm.trans back)
    rw [forth]
    cases o with
    | eq => rfl
    | _ => cases turned

namespace ParamValue

variable {v w : ParamValue}

/-- Whether the value is an undefined double. -/
def IsUndefined : ParamValue → Prop
  | .real x => x.isNaN = true
  | _ => False

/-- Whether the values are equal, the two zeros and any two undefined doubles included. -/
def Matches (v w : ParamValue) : Prop := v.same w = true ∨ v.IsUndefined ∧ w.IsUndefined

/-- A value is the same as itself unless it is undefined. -/
theorem same_self_iff (v : ParamValue) : v.same v = true ↔ ¬v.IsUndefined := by
  cases v with
  | real x =>
    rw [IsUndefined, Bool.not_eq_true]
    exact Double.beq_self_iff x
  | _ => simp [same, IsUndefined]

/-- Undefined values are not the same. -/
theorem not_same_of_isUndefined (hv : v.IsUndefined) (hw : w.IsUndefined) : ¬v.same w = true := by
  cases v with
  | real x =>
    cases w with
    | real y =>
      rw [IsUndefined, Float.isNaN, Float.Model.isNaN] at hv
      show ¬(x.toModel.unpack.compare y.toModel.unpack == some .eq) = true
      cases eq : x.toModel.unpack with
      | notANumber => exact Bool.false_ne_true
      | _ =>
        rw [eq] at hv
        cases hv
    | _ => cases hw
  | _ => cases hv

/-- Every value matches itself. -/
theorem Matches.refl (v : ParamValue) : v.Matches v := by
  by_cases undefined : v.IsUndefined
  · exact .inr ⟨undefined, undefined⟩
  · exact .inl (v.same_self_iff.mpr undefined)

/-- Values are told apart where they do not match and where both are undefined. -/
theorem not_same_iff : ¬v.same w = true ↔ ¬v.Matches w ∨ v.IsUndefined ∧ w.IsUndefined := by
  unfold Matches
  constructor
  · intro differ
    by_cases undefined : v.IsUndefined ∧ w.IsUndefined
    · exact .inr undefined
    · exact .inl fun same => same.elim differ undefined
  · rintro (differ | ⟨hv, hw⟩)
    · exact fun same => differ (.inl same)
    · exact not_same_of_isUndefined hv hw

end ParamValue

/-! ### One parameter -/

namespace Parameter

variable {p : Parameter}

/-- The parameter, at its default unless its name is among the given ones. -/
def restored (names : List String) (p : Parameter) : Parameter :=
  if p.name ∈ names then p else p.reset

/-- Its name stays what it is. -/
@[simp] theorem restored_name (names : List String) (p : Parameter) :
    (p.restored names).name = p.name := by
  unfold restored
  split <;> rfl

/-- A parameter that is set to its value again has it, whether it was at its default or not. -/
theorem set_restored (h : p.InRange) (names : List String) :
    (p.restored names).set p.value = .ok p := by
  have cast : p.value.cast p.type = .ok p.value := by
    rw [← h.type_eq]
    exact ParamValue.cast_eq_ok_iff.mpr p.value.cast?_self
  have type_eq : p.reset.type = p.type := rfl
  have range_eq : p.reset.range = p.range := rfl
  unfold restored
  split
  · simp [Parameter.set, cast, h.value, bind, Except.bind, pure, Except.pure]
  · rw [Parameter.set, type_eq, range_eq, cast]
    simp [h.value, bind, Except.bind, pure, Except.pure, reset]

/-- A parameter is listed if its value does not match its default, or if both are undefined. -/
theorem isChanged_iff : p.isChanged = true ↔
    ¬p.value.Matches p.default ∨ p.value.IsUndefined ∧ p.default.IsUndefined := by
  rw [← ParamValue.not_same_iff]
  simp [isChanged]

/-- A parameter at its default is listed if that is undefined. -/
theorem isChanged_of_eq (default : p.value = p.default) :
    p.isChanged = true ↔ p.default.IsUndefined := by
  have self := p.default.same_self_iff
  rw [isChanged, default]
  cases same : p.default.same p.default <;> simp_all

end Parameter

/-! ### What is listed -/

namespace Registry

variable {r : Registry} {name : String} {v : ParamValue} {op : Operation} {ops : List Operation}

/-- What is listed are the parameters that are changed, with their values. -/
theorem mem_changed : (name, v) ∈ r.changed ↔
    ∃ p ∈ r.parameters, p.name = name ∧ p.value = v ∧ p.isChanged = true := by
  simp only [changed, List.mem_map, List.mem_filter, Prod.mk.injEq]
  constructor
  · rintro ⟨p, ⟨hp, isChanged⟩, name_eq, value_eq⟩
    exact ⟨p, hp, name_eq, value_eq, isChanged⟩
  · rintro ⟨p, hp, name_eq, value_eq, isChanged⟩
    exact ⟨p, ⟨hp, isChanged⟩, name_eq, value_eq⟩

/-- Nothing is listed if no parameter is changed. -/
theorem changed_eq_nil_iff : r.changed = [] ↔ ∀ p ∈ r.parameters, ¬p.isChanged = true := by
  simp [changed]

/-- What is listed is in the order of the names. -/
theorem Sound.ordered_changed (h : r.Sound) : (r.changed.map (·.1)).Pairwise (· < ·) := by
  have listed : r.changed.map (·.1) = (r.parameters.filter Parameter.isChanged).map (·.name) := by
    simp [changed]
  rw [listed]
  exact h.ordered.sublist (List.filter_sublist.map _)

/-! ### Registries at their defaults -/

/-- Whether all parameters are at their defaults. -/
def AtDefaults (r : Registry) : Prop := ∀ p ∈ r.parameters, p.value = p.default

/-- At their defaults, the parameters that are listed are those whose defaults are undefined. -/
theorem AtDefaults.changed_eq_nil_iff (h : r.AtDefaults) :
    r.changed = [] ↔ ∀ p ∈ r.parameters, ¬p.default.IsUndefined := by
  rw [Registry.changed_eq_nil_iff]
  refine forall₂_congr fun p hp => not_congr ?_
  exact Parameter.isChanged_of_eq (h p hp)

/-- A registry whose defaults are restored is at its defaults. -/
theorem atDefaults_resetAll (r : Registry) : r.resetAll.AtDefaults := by
  intro q hq
  obtain ⟨p, -, rfl⟩ := List.mem_map.mp hq
  rfl

/-- Only setting parameters takes them away from their defaults. -/
theorem AtDefaults.perform (h : r.AtDefaults) (unset : op.sets = false) :
    (r.perform op).1.AtDefaults := by
  cases op with
  | register name description default range =>
    apply attempt_keeps h
    intro r' registered
    obtain ⟨-, -, rfl⟩ := register_eq registered
    intro q hq
    rcases mem_insertSorted.mp hq with rfl | old
    · rfl
    · exact h q old
  | reset name =>
    apply attempt_keeps h
    intro r' reset
    obtain ⟨p, -, rfl⟩ := reset_eq reset
    intro q hq
    obtain ⟨q', hq', rfl⟩ := List.mem_map.mp hq
    by_cases same : q'.name = p.reset.name
    · rw [if_pos same]
      rfl
    · rw [if_neg same]
      exact h q' hq'
  | resetAll => exact r.atDefaults_resetAll
  | set => cases unset
  | setMany => cases unset

/-- So a registry that no parameter was set in is at its defaults. -/
theorem AtDefaults.performAll (h : r.AtDefaults) (unset : ∀ op ∈ ops, op.sets = false) :
    (r.performAll ops).AtDefaults := by
  induction ops generalizing r with
  | nil => exact h
  | cons op ops ih =>
    apply ih (h.perform (unset op List.mem_cons_self))
    intro op' later
    exact unset op' (List.mem_cons_of_mem _ later)

/-! ### The same declarations -/

/-- Parameters are inserted at the same place whatever else is known of them. -/
theorem map_insertSorted {f : Parameter → Parameter} (same : ∀ p, (f p).name = p.name)
    (p : Parameter) (parameters : List Parameter) :
    (insertSorted p parameters).map f = insertSorted (f p) (parameters.map f) := by
  induction parameters with
  | nil => rfl
  | cons first rest ih =>
    simp only [insertSorted, List.map_cons, same]
    split
    · rfl
    · rw [List.map_cons, ih]

/-- The same parameters are registered whatever values the others have. -/
theorem resetAll_register (r : Registry) (name description : String) (default : ParamValue)
    (range : Option (Float × Float)) :
    (r.resetAll).register name description default range =
      (r.register name description default range).map resetAll := by
  have found : r.resetAll.find? name = (r.find? name).map Parameter.reset :=
    find?_map Parameter.reset (fun _ => rfl) r name
  unfold Registry.register
  rw [found, Option.isSome_map]
  split
  · rfl
  · split
    next => rfl
    next checked =>
      have moved := map_insertSorted (f := Parameter.reset) (fun _ => rfl)
        ⟨name, description, default, default, range⟩ r.parameters
      exact congrArg (fun parameters => Except.ok (Registry.mk parameters)) moved.symm

/-- A parameter in the place of the one of its name makes no difference to the defaults. -/
theorem Sound.resetAll_replace (h : r.Sound) {p q : Parameter} (found : r.find? name = some p)
    (same : q.reset = p.reset) : (r.replace q).resetAll = r.resetAll := by
  have name_eq : q.name = p.name := by simpa [Parameter.reset] using congrArg Parameter.name same
  unfold Registry.resetAll Registry.replace
  rw [List.map_map]
  congr 1
  apply List.map_congr_left
  intro p' hp'
  by_cases place : p'.name = q.name
  · have found' : r.find? p.name = some p := by rwa [name_of_find? found]
    rw [Function.comp_apply, if_pos place, same, h.eq_of_name hp' found' (place.trans name_eq)]
  · rw [Function.comp_apply, if_neg place]

/-- Setting a parameter makes no difference to the defaults. -/
theorem Sound.resetAll_set (h : r.Sound) {r' : Registry} (set : r.set name v = .ok r') :
    r'.resetAll = r.resetAll := by
  obtain ⟨p, q, found, changed, rfl⟩ := set_eq set
  obtain ⟨w, -, -, rfl⟩ := Parameter.set_eq changed
  exact h.resetAll_replace found rfl

/-- Only registering parameters makes a difference to the defaults. -/
theorem Sound.resetAll_perform (h : r.Sound) (op : Operation) :
    (r.perform op).1.resetAll =
      if op.registers = true then (r.resetAll.perform op).1 else r.resetAll := by
  cases op with
  | register name description default range =>
    have registered := resetAll_register r name description default range
    simp only [Operation.registers, if_true, Registry.perform, registered]
    cases r.register name description default range <;> rfl
  | set name v =>
    exact attempt_keeps (P := fun r' => r'.resetAll = r.resetAll) rfl fun r' => h.resetAll_set
  | setMany values =>
    refine (setMany_keeps (P := fun r' => r'.Sound ∧ r'.resetAll = r.resetAll) ?_ ⟨h, rfl⟩ values).2
    rintro r' r'' name v ⟨sound, same⟩ set
    exact ⟨sound.set set, (sound.resetAll_set set).trans same⟩
  | reset name =>
    refine attempt_keeps (P := fun r' => r'.resetAll = r.resetAll) rfl fun r' reset => ?_
    obtain ⟨p, found, rfl⟩ := reset_eq reset
    exact h.resetAll_replace found rfl
  | resetAll =>
    show (⟨(r.parameters.map Parameter.reset).map Parameter.reset⟩ : Registry) = r.resetAll
    rw [List.map_map]
    rfl

/-- A registry whose defaults are restored is the one that was made by the same declarations. -/
theorem Sound.resetAll_performAll (h : r.Sound) (ops : List Operation) :
    (r.performAll ops).resetAll = r.resetAll.performAll (ops.filter (·.registers)) := by
  induction ops generalizing r with
  | nil => rfl
  | cons op ops ih =>
    have step := h.resetAll_perform op
    show ((r.perform op).1.performAll ops).resetAll = _
    rw [ih (h.perform op), step, List.filter_cons]
    split
    · rfl
    · rfl

/-! ### Setting what is listed -/

/-- The registry in which the parameters of the given names have their values and all others are at
their defaults. -/
def restored (r : Registry) (names : List String) : Registry :=
  ⟨r.parameters.map (·.restored names)⟩

/-- A parameter of a restored registry. -/
theorem Sound.find?_restored (h : r.Sound) {p : Parameter} (hp : p ∈ r.parameters)
    (names : List String) : (r.restored names).find? p.name = some (p.restored names) := by
  rw [restored, find?_map _ (Parameter.restored_name names), h.find?_of_mem hp, Option.map_some]

/-- Setting a parameter to its value restores it. -/
theorem Sound.set_restored (h : r.Sound) {p : Parameter} (hp : p ∈ r.parameters)
    (names : List String) :
    (r.restored names).set p.name p.value = .ok (r.restored (p.name :: names)) := by
  have placed : (r.restored names).replace p = r.restored (p.name :: names) := by
    unfold Registry.replace restored
    rw [List.map_map]
    congr 1
    apply List.map_congr_left
    intro q hq
    simp only [Function.comp_apply, Parameter.restored_name]
    by_cases same : q.name = p.name
    · rw [if_pos same, h.eq_of_name hq (h.find?_of_mem hp) same]
      simp [Parameter.restored]
    · simp [Parameter.restored, same]
  unfold Registry.set find
  simp only [h.find?_restored hp, bind, Except.bind, Parameter.set_restored (h.inRange p hp),
    placed]
  rfl

/-- Setting several parameters to their values restores all of them. -/
theorem Sound.setMany_restored (h : r.Sound) {changes : List Parameter}
    (listed : ∀ p ∈ changes, p ∈ r.parameters) (names : List String) :
    (r.restored names).setMany (changes.map fun p => (p.name, p.value)) =
      (r.restored ((changes.map (·.name)).reverse ++ names), .ok ()) := by
  induction changes generalizing names with
  | nil => rfl
  | cons p rest ih =>
    simp only [List.map_cons, setMany, h.set_restored (listed p List.mem_cons_self)]
    rw [ih fun q hq => listed q (List.mem_cons_of_mem _ hq)]
    simp

/-- Setting what is changed, on a registry at its defaults, restores what is changed. -/
theorem Sound.setMany_changed (h : r.Sound) :
    ∃ names, (∀ p ∈ r.parameters, p.name ∈ names ↔ p.isChanged = true) ∧
      r.resetAll.setMany r.changed = (r.restored names, .ok ()) := by
  have start : r.resetAll = r.restored [] := by
    simp [Registry.resetAll, restored, Parameter.restored]
  have listed : ∀ p ∈ r.parameters.filter Parameter.isChanged, p ∈ r.parameters := fun p hp =>
    List.mem_of_mem_filter hp
  refine ⟨_, fun p hp => ?_, by rw [start]; exact h.setMany_restored listed []⟩
  simp only [List.append_nil, List.mem_reverse, List.mem_map, List.mem_filter]
  constructor
  · rintro ⟨q, ⟨hq, isChanged⟩, same⟩
    rw [h.eq_of_name hp (h.find?_of_mem hq) same.symm]
    exact isChanged
  · intro isChanged
    exact ⟨p, ⟨hp, isChanged⟩, rfl⟩

/-- Whatever operations are carried out on a registry without parameters: in the order of the names,
the list of changes has the parameters whose values do not match their defaults, and those of an
undefined default that have an undefined value. It is empty after all defaults are restored, and
where no parameter was set, exactly if no default is undefined. Setting what is listed on a registry
of the same declarations is not refused and gives every parameter a value that matches. -/
theorem changed_faithful (ops : List Operation) :
    let r := empty.performAll ops
    (r.changed.map (·.1)).Pairwise (· < ·) ∧
    (∀ name v, (name, v) ∈ r.changed ↔ ∃ p ∈ r.parameters, p.name = name ∧ p.value = v ∧
      (¬p.value.Matches p.default ∨ p.value.IsUndefined ∧ p.default.IsUndefined)) ∧
    (r.resetAll.changed = [] ↔ ∀ p ∈ r.parameters, ¬p.default.IsUndefined) ∧
    ((∀ op ∈ ops, op.sets = false) →
      (r.changed = [] ↔ ∀ p ∈ r.parameters, ¬p.default.IsUndefined)) ∧
    ∃ r', (empty.performAll (ops.filter (·.registers))).setMany r.changed = (r', .ok ()) ∧
      r'.names = r.names ∧
      ∀ p ∈ r.parameters, ∃ v, r'.get p.name = .ok v ∧ p.value.Matches v := by
  intro r
  have sound : r.Sound := sound_empty.performAll ops
  refine ⟨sound.ordered_changed, fun name v => ?_, ?_, fun unset => ?_, ?_⟩
  · simp only [mem_changed, Parameter.isChanged_iff]
  · rw [r.atDefaults_resetAll.changed_eq_nil_iff]
    simp [Registry.resetAll, Parameter.reset]
  · have start : empty.AtDefaults := fun p hp => absurd hp List.not_mem_nil
    exact (start.performAll unset).changed_eq_nil_iff
  · have declared : r.resetAll = empty.performAll (ops.filter (·.registers)) :=
      sound_empty.resetAll_performAll ops
    obtain ⟨names, mem_names, set⟩ := sound.setMany_changed
    refine ⟨r.restored names, by rw [← declared, set], ?_, fun p hp => ?_⟩
    · simp [restored, Registry.names]
    · have found := sound.find?_restored hp names
      refine ⟨_, by rw [get, find, found]; rfl, ?_⟩
      unfold Parameter.restored
      by_cases isChanged : p.name ∈ names
      · rw [if_pos isChanged]
        exact .refl p.value
      · rw [if_neg isChanged]
        rw [mem_names p hp, Parameter.isChanged] at isChanged
        have same : p.value.same p.default = true := by simpa using isChanged
        exact .inl same

/-- A parameter with an undefined default is listed from the start, and after every reset. -/
theorem undefined_default_listed :
    let r := empty.performAll [.register "x" "described" (.real (0 / 0)) none]
    r.changed.map (·.1) = ["x"] ∧ r.resetAll.changed.map (·.1) = ["x"] := by
  decide

end Registry

end Milp
