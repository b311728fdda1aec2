import Milp.Relaxation.Solve

/-!
# The values of an optimal answer

Whatever the numbers and the tolerances are, an optimal answer is given only for a box whose bounds
do not cross, and it has a finite value for every variable that was moved into the box in the end
(`Method.solve_values`). A variable that is not free in the box has no column, so its value is its
lower bound and nothing is added to it (`Method.solve_fixed`).
-/

namespace Milp

namespace Relaxation

variable {α : Type} [Scalar α] {m : Method α} {p : Problem α} {box : Box α} {objective : α}
  {values : Array α} {iterations : Nat} {rows : List (Row α)} {v : Var}

/-- The order of the columns does not change the tolerance. -/
theorem Method.natural_withSeed_feasibility (p : Problem α) (tol : α) (seed : UInt64) :
    ((natural p tol).withSeed seed).tolerances.feasibility = tol := by
  unfold withSeed
  split <;> rfl

/-- Whether the method comes to an optimal tableau: `f` is the standard form, `s` what the first phase
leaves with `left` pivots left, and `t` the last tableau, with `rest` pivots left. -/
structure Method.Finishes (m : Method α) (p : Problem α) (box : Box α) (rows : List (Row α))
    (f : Form α) (s t : Tableau α f.rows.size f.width) (left rest : Nat) : Prop where
  built : Form.build? p m.tolerances m.rowOrder rows box = some f
  first : m.phaseOne f (f.rank p.size m.columnRank) = .feasible s left
  second : s.run m.tolerances (f.rank p.size m.columnRank) (f.phaseTwoCost p) f.artificialStart left =
    .optimal t rest

/-- Whether the method comes to an optimal tableau and a test passes there. -/
def Method.finishesWith (m : Method α) (p : Problem α) (box : Box α) (rows : List (Row α))
    (test : (f : Form α) → Tableau α f.rows.size f.width → Tableau α f.rows.size f.width → Bool) :
    Bool :=
  match Form.build? p m.tolerances m.rowOrder rows box with
  | none => false
  | some f =>
    match m.phaseOne f (f.rank p.size m.columnRank) with
    | .feasible s left =>
      match s.run m.tolerances (f.rank p.size m.columnRank) (f.phaseTwoCost p) f.artificialStart
          left with
      | .optimal t _ => test f s t
      | _ => false
    | _ => false

/-- The test passes at the tableaus that the method comes to. -/
theorem Method.Finishes.test {f : Form α} {s t : Tableau α f.rows.size f.width} {left rest : Nat}
    (h : m.Finishes p box rows f s t left rest)
    {test : (f : Form α) → Tableau α f.rows.size f.width → Tableau α f.rows.size f.width → Bool}
    (passes : m.finishesWith p box rows test = true) : test f s t = true := by
  simpa only [finishesWith, h.built, h.first, h.second] using passes

/-- An optimal answer is given for a box whose bounds do not cross. It has the values of the last
tableau, and these are finite. -/
theorem Method.solve_optimal
    (h : m.solve p box rows = .ok ⟨.optimal objective values, iterations⟩) :
    p.positions.any (box.isCrossed m.tolerances.feasibility) = false ∧
      ∃ f s t left rest, m.Finishes p box rows f s t left rest ∧ values = f.values box t ∧
        iterations = m.maxIterations - rest ∧ values.all Scalar.isFinite = true := by
  unfold solve at h
  split at h
  next => cases h
  next uncrossed =>
    split at h
    next => cases h
    next f built =>
      unfold solveForm at h
      simp only at h
      split at h
      next => cases h
      next => cases h
      next s left first =>
        split at h
        next => cases h
        next => cases h
        next t rest second =>
          split at h
          next finite =>
            cases h
            exact ⟨Bool.eq_false_iff.mpr uncrossed, f, s, t, left, rest, ⟨built, first, second⟩, rfl,
              rfl, finite⟩
          next => cases h

/-- The value of a variable at a tableau: what its columns add to its lower bound, moved into the box. -/
theorem Form.getD_values (f : Form α) (t : Tableau α f.rows.size f.width)
    (hv : v < box.lower.size) :
    ∃ x, (f.values box t).getD v 0 = clampInto box v x ∧ (v ∉ f.columns → x = box.lowerAt v) := by
  rw [values]
  simp only [Array.getD_eq_getD_getElem?, Array.getElem?_map, Array.getElem?_range, hv, if_true]
  refine ⟨_, rfl, fun absent => ?_⟩
  split
  next w shift found =>
    obtain ⟨i, -, basic⟩ := List.mem_filterMap.mp (List.mem_of_find?_eq_some found)
    obtain ⟨u, at_i, eq⟩ := Option.map_eq_some_iff.mp basic
    have own : w = v := by simpa using List.find?_some found
    obtain rfl : u = w := congrArg Prod.fst eq
    exact absurd (own ▸ Array.mem_of_getElem? at_i) absent
  next => rfl

/-- An optimal answer is given for a box whose bounds do not cross. It has a value for each variable
of the box, and that is finite and was moved into the box. -/
theorem Method.solve_values
    (h : m.solve p box rows = .ok ⟨.optimal objective values, iterations⟩) :
    (∀ v < p.size, box.isCrossed m.tolerances.feasibility v = false) ∧
      values.size = box.lower.size ∧
      ∀ v < box.lower.size, Scalar.isFinite (values.getD v 0) = true ∧
        ∃ x, values.getD v 0 = clampInto box v x := by
  obtain ⟨uncrossed, f, s, t, left, rest, -, values_eq, -, finite⟩ := solve_optimal h
  have size_eq : values.size = box.lower.size := by simp [values_eq, Form.values]
  refine ⟨fun v hv => ?_, size_eq, fun v hv => ⟨?_, ?_⟩⟩
  · rw [List.any_eq_false] at uncrossed
    exact Bool.eq_false_iff.mpr (uncrossed v (List.mem_range.mpr hv))
  · have inside : v < values.size := size_eq ▸ hv
    rw [Array.getD_eq_getD_getElem?, Array.getElem?_eq_getElem inside]
    exact Array.all_eq_true.mp finite v inside
  · rw [values_eq]
    obtain ⟨x, value_eq, -⟩ := f.getD_values t hv
    exact ⟨x, value_eq⟩

/-- The columns of a standard form are the variables that are free in the box. -/
theorem Form.mem_columns {tols : Tolerances α} {rowOrder : Array Nat} {f : Form α}
    (built : build? p tols rowOrder rows box = some f) (listed : v ∈ f.columns) :
    box.isFree tols.feasibility v = true := by
  unfold build? at built
  simp only at built
  split at built
  · cases built
    exact (List.mem_filter.mp (List.mem_toArray.mp listed)).2
  · cases built

/-- A variable that is not free in the box has its lower bound for its value. -/
theorem Method.solve_fixed
    (h : m.solve p box rows = .ok ⟨.optimal objective values, iterations⟩)
    (hv : v < box.lower.size) (fixed : box.isFree m.tolerances.feasibility v = false) :
    values.getD v 0 = clampInto box v (box.lowerAt v) := by
  obtain ⟨-, f, s, t, left, rest, finishes, values_eq, -⟩ := solve_optimal h
  obtain ⟨x, value_eq, resting⟩ := f.getD_values t hv
  have absent : v ∉ f.columns := fun listed => by
    rw [Form.mem_columns finishes.built listed] at fixed
    cases fixed
  rw [values_eq, value_eq, resting absent]

end Relaxation

end Milp
