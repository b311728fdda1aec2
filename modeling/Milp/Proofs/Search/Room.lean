import Milp.Proofs.Search.Rounding

/-!
# The room of a region

How much there is to branch on in a region whose integral variables have upper bounds. It is counted
in integers (`Problem.room`): those between the bounds of each integral variable, and for each set of
integral variables those that the sum over the set may come to within the bounds and the rows that
add up just this set.

A smaller box has no more room, and less if a bound of an integral variable passes an integer
(`Problem.room_lt_of_narrows`). A further row leaves the box alone, but it takes an integer away from
the sum that it bounds (`Problem.room_lt_of_addRow`). Values that a region admits show which integers
are there to be taken away: those on either side of a sum of them (`sides_mem_sumRange`).
-/

namespace Milp

/-! ### Between the bounds -/

namespace Box

/-- The lower bound of a variable, rounded down. -/
def low (b : Box Rat) (v : Var) : ℤ := ⌊b.lowerAt v⌋

/-- The upper bound of a variable, rounded up; zero where there is none. -/
def high (b : Box Rat) (v : Var) : ℤ :=
  match b.upperAt v with
  | .fin u => ⌈u⌉
  | _ => 0

/-- Whether a variable has an upper bound. -/
def Capped (b : Box Rat) (v : Var) : Prop := ∃ u, b.upperAt v = .fin u

/-- Whether the bounds of some variables are at least as tight in another box. -/
structure Narrows (b b' : Box Rat) (vs : Finset Var) : Prop where
  low : ∀ v ∈ vs, b.low v ≤ b'.low v
  high : ∀ v ∈ vs, b'.high v ≤ b.high v

variable {b : Box Rat} {v w : Var} {bound u : Rat}

/-- An upper bound rounded up. -/
theorem high_eq (h : b.upperAt v = .fin u) : b.high v = ⌈u⌉ := by
  rw [high, h]

/-- A lower bound that is raised. -/
theorem lowerAt_raiseLower (inside : v < b.lower.size) :
    (b.tighten (.raiseLower v bound)).lowerAt v = max (b.lowerAt v) bound := by
  rw [tighten, lowerAt, getD_modify, if_pos ⟨rfl, inside⟩, Scalar.max_eq]
  rfl

/-- An upper bound that is cut. -/
theorem upperAt_cutUpper (h : b.upperAt v = .fin u) :
    (b.tighten (.cutUpper v bound)).upperAt v = .fin (min u bound) := by
  have inside : v < b.upper.size := by
    by_contra outside
    rw [upperAt, Array.getD_eq_getD_getElem?, Array.getElem?_eq_none (not_lt.mp outside)] at h
    cases h
  have upper : b.upper.getD v .posInf = .fin u := h
  rw [tighten, upperAt, getD_modify, if_pos ⟨rfl, inside⟩, upper]
  exact Extended.min_fin u bound

/-- Tightening the bound of another variable. -/
theorem upperAt_cutUpper_of_ne (other : v ≠ w) :
    (b.tighten (.cutUpper w bound)).upperAt v = b.upperAt v := by
  rw [tighten, upperAt, getD_modify, if_neg (fun h => other h.1.symm)]
  rfl

/-- Tightening a bound leaves upper bounds. -/
theorem Capped.tighten (h : b.Capped v) (c : BoundChange Rat) : (b.tighten c).Capped v := by
  obtain ⟨u, upper⟩ := h
  cases c with
  | raiseLower w bound => exact ⟨u, upper⟩
  | cutUpper w bound =>
    by_cases same : v = w
    · subst same
      exact ⟨_, upperAt_cutUpper upper⟩
    · exact ⟨u, (upperAt_cutUpper_of_ne same).trans upper⟩

/-- Tightening a bound makes a box narrower. -/
theorem narrows_tighten {vs : Finset Var} (capped : ∀ v ∈ vs, b.Capped v) (c : BoundChange Rat) :
    b.Narrows (b.tighten c) vs := by
  cases c with
  | raiseLower w bound =>
    refine ⟨fun v _ => Int.floor_le_floor ?_, fun v _ => le_rfl⟩
    rw [tighten, lowerAt, lowerAt, getD_modify]
    split
    · rw [Scalar.max_eq]
      exact le_max_left _ _
    · exact le_rfl
  | cutUpper w bound =>
    refine ⟨fun v _ => le_rfl, fun v hv => ?_⟩
    obtain ⟨u, upper⟩ := capped v hv
    by_cases same : v = w
    · subst same
      rw [high_eq (upperAt_cutUpper upper), high_eq upper]
      exact Int.ceil_le_ceil (min_le_left _ _)
    · rw [high, high, upperAt_cutUpper_of_ne same]

end Box

/-! ### Sums of variables -/

/-- Where a number is related to an integer, so are the integers on either side of it. -/
theorem RowSense.relates_sides {s : RowSense} {a : Rat} {m : ℤ} (h : s.Relates a m) :
    s.Relates ((⌊a⌋ : ℤ) : Rat) m ∧ s.Relates ((⌈a⌉ : ℤ) : Rat) m := by
  cases s with
  | lessEqual =>
    have below : a ≤ m := h
    exact ⟨(Int.floor_le a).trans below, Int.cast_le.mpr (Int.ceil_le.mpr below)⟩
  | greaterEqual =>
    have above : (m : Rat) ≤ a := h
    exact ⟨Int.cast_le.mpr (Int.le_floor.mpr above), above.trans (Int.le_ceil a)⟩
  | equal =>
    obtain rfl : a = m := h
    rw [Int.floor_intCast, Int.ceil_intCast]
    exact ⟨rfl, rfl⟩

/-- The variables of a row. -/
def Row.support (r : Row Rat) : Finset Var := (r.terms.map Prod.fst).toFinset

/-- The variables of a sum. -/
theorem Row.support_ofSum (vs : List Var) (sense : RowSense) (rhs : Rat) :
    (Row.ofSum vs sense rhs).support = vs.toFinset := by
  rw [support, ofSum, List.map_map]
  exact congrArg List.toFinset (List.map_id vs)

/-- Whether a row bounds a sum of different variables by an integer. -/
def Row.BoundsSum (r : Row Rat) : Prop :=
  ∃ (vs : List Var) (sense : RowSense) (m : ℤ), vs.Nodup ∧ r = Row.ofSum vs sense (m : Rat)

open scoped Classical in
/-- The integers that the sum of some variables may come to. -/
noncomputable def sumRange (b : Box Rat) (rows : List (Row Rat)) (vs : Finset Var) : Finset ℤ :=
  (Finset.Icc (∑ v ∈ vs, b.low v) (∑ v ∈ vs, b.high v)).filter fun k =>
    ∀ r ∈ rows, r.support = vs → r.sense.Relates k r.rhs

section

variable {b b' : Box Rat} {rows : List (Row Rat)} {vs : Finset Var} {k : ℤ}

/-- What the sum may come to lies between the sums of the bounds and satisfies the rows. -/
theorem mem_sumRange : k ∈ sumRange b rows vs ↔
    (∑ v ∈ vs, b.low v ≤ k ∧ k ≤ ∑ v ∈ vs, b.high v) ∧
      ∀ r ∈ rows, r.support = vs → r.sense.Relates k r.rhs := by
  simp only [sumRange, Finset.mem_filter, Finset.mem_Icc]

/-- In a narrower box a sum has a smaller range. -/
theorem sumRange_subset_of_narrows (h : b.Narrows b' vs) :
    sumRange b' rows vs ⊆ sumRange b rows vs := by
  intro k hk
  obtain ⟨⟨above, below⟩, related⟩ := mem_sumRange.mp hk
  exact mem_sumRange.mpr ⟨⟨(Finset.sum_le_sum h.low).trans above,
    below.trans (Finset.sum_le_sum h.high)⟩, related⟩

/-- With a further row a sum has a smaller range. -/
theorem sumRange_subset_of_addRow (r : Row Rat) :
    sumRange b (rows ++ [r]) vs ⊆ sumRange b rows vs := by
  intro k hk
  obtain ⟨range, related⟩ := mem_sumRange.mp hk
  exact mem_sumRange.mpr ⟨range, fun r' hr' => related r' (List.mem_append_left _ hr')⟩

/-- A row takes the integers away from the range of its sum that do not satisfy it. -/
theorem notMem_sumRange_of_addRow {r : Row Rat} (h : ¬ r.sense.Relates k r.rhs) :
    k ∉ sumRange b (rows ++ [r]) r.support := fun hk =>
  h ((mem_sumRange.mp hk).2 r (List.mem_append_right _ (List.mem_singleton_self r)) rfl)

end

/-! ### Values that a region admits -/

/-- A value lies between the rounded bounds. -/
theorem Box.Contains.between {b : Box Rat} {n : Nat} {x : Array Rat} (h : b.Contains n x) {v : Var}
    (hv : v < n) (capped : b.Capped v) : (b.low v : Rat) ≤ x.getD v 0 ∧ x.getD v 0 ≤ b.high v := by
  obtain ⟨lower, upper⟩ := h v hv
  obtain ⟨u, eq⟩ := capped
  rw [eq, Extended.le_fin] at upper
  rw [Box.high_eq eq]
  exact ⟨(Int.floor_le _).trans lower, upper.trans (Int.le_ceil u)⟩

/-- The integers on either side of a sum of values are among those that the sum may come to. -/
theorem sides_mem_sumRange {b : Box Rat} {rows : List (Row Rat)} {n : Nat} {x : Array Rat}
    (inBox : b.Contains n x) (holds : ∀ r ∈ rows, r.holds x 0 = true)
    (sums : ∀ r ∈ rows, r.BoundsSum) {vs : List Var} (nodup : vs.Nodup) (inside : ∀ v ∈ vs, v < n)
    (capped : ∀ v ∈ vs, b.Capped v) :
    ⌊(vs.map fun v => x.getD v 0).sum⌋ ∈ sumRange b rows vs.toFinset ∧
      ⌈(vs.map fun v => x.getD v 0).sum⌉ ∈ sumRange b rows vs.toFinset := by
  have sum_eq (ws : List Var) (nodup : ws.Nodup) :
      (ws.map fun v => x.getD v 0).sum = ∑ v ∈ ws.toFinset, x.getD v 0 :=
    (List.sum_toFinset _ nodup).symm
  have between (v : Var) (hv : v ∈ vs.toFinset) :=
    inBox.between (inside v (List.mem_toFinset.mp hv)) (capped v (List.mem_toFinset.mp hv))
  have above : ((∑ v ∈ vs.toFinset, b.low v : ℤ) : Rat) ≤ (vs.map fun v => x.getD v 0).sum := by
    rw [sum_eq vs nodup, Int.cast_sum]
    exact Finset.sum_le_sum fun v hv => (between v hv).1
  have below : (vs.map fun v => x.getD v 0).sum ≤ ((∑ v ∈ vs.toFinset, b.high v : ℤ) : Rat) := by
    rw [sum_eq vs nodup, Int.cast_sum]
    exact Finset.sum_le_sum fun v hv => (between v hv).2
  have related : ∀ r ∈ rows, r.support = vs.toFinset →
      r.sense.Relates ((⌊(vs.map fun v => x.getD v 0).sum⌋ : ℤ) : Rat) r.rhs ∧
        r.sense.Relates ((⌈(vs.map fun v => x.getD v 0).sum⌉ : ℤ) : Rat) r.rhs := by
    intro r hr same
    have held := holds r hr
    rw [Row.holds_iff, RowSense.relatesWithin_zero_iff] at held
    obtain ⟨ws, sense, m, wsNodup, rfl⟩ := sums r hr
    rw [Row.support_ofSum] at same
    rw [Row.activity_ofSum, sum_eq ws wsNodup, same, ← sum_eq vs nodup] at held
    exact RowSense.relates_sides held
  have floor_le_ceil := Int.floor_le_ceil (vs.map fun v => x.getD v 0).sum
  have low := Int.le_floor.mpr above
  have high := Int.ceil_le.mpr below
  exact ⟨mem_sumRange.mpr ⟨⟨low, floor_le_ceil.trans high⟩, fun r hr same => (related r hr same).1⟩,
    mem_sumRange.mpr ⟨⟨low.trans floor_le_ceil, high⟩, fun r hr same => (related r hr same).2⟩⟩

/-! ### Room -/

namespace Problem

variable (p : Problem Rat)

/-- The set of the integral variables. -/
def integralSet : Finset Var := p.integralVars.toFinset

/-- The integral variables are in the set. -/
theorem mem_integralSet {v : Var} : v ∈ p.integralSet ↔ p.isIntegral v = true := by
  rw [integralSet, List.mem_toFinset, mem_integralVars]

/-- The number of integers that branching has to choose from in a region. -/
noncomputable def room (b : Box Rat) (rows : List (Row Rat)) : Nat :=
  ∑ v ∈ p.integralSet, (b.high v + 1 - b.low v).toNat +
    ∑ vs ∈ p.integralSet.powerset, (sumRange b rows vs).card

variable {p} {b b' : Box Rat} {rows : List (Row Rat)}

/-- A box has less room if a bound of an integral variable has passed an integer. -/
theorem room_lt_of_narrows (h : b.Narrows b' p.integralSet) {v : Var} (hv : p.isIntegral v = true)
    (ordered : b.low v ≤ b.high v) (passed : b'.high v < b.high v ∨ b.low v < b'.low v) :
    p.room b' rows < p.room b rows := by
  refine Nat.add_lt_add_of_lt_of_le ?_ ?_
  · refine Finset.sum_lt_sum (fun w hw => ?_) ⟨v, p.mem_integralSet.mpr hv, ?_⟩
    · have low := h.low w hw
      have high := h.high w hw
      omega
    · have low := h.low v (p.mem_integralSet.mpr hv)
      have high := h.high v (p.mem_integralSet.mpr hv)
      omega
  · refine Finset.sum_le_sum fun vs hvs => Finset.card_le_card (sumRange_subset_of_narrows ?_)
    have subset := Finset.mem_powerset.mp hvs
    exact ⟨fun w hw => h.low w (subset hw), fun w hw => h.high w (subset hw)⟩

/-- A region has less room with a further row that an integer in the range of its sum violates. -/
theorem room_lt_of_addRow {r : Row Rat} (integral : r.support ⊆ p.integralSet) {k : ℤ}
    (hk : k ∈ sumRange b rows r.support) (violated : ¬ r.sense.Relates k r.rhs) :
    p.room b (rows ++ [r]) < p.room b rows := by
  refine Nat.add_lt_add_left ?_ _
  refine Finset.sum_lt_sum (fun vs _ => Finset.card_le_card (sumRange_subset_of_addRow r))
    ⟨r.support, Finset.mem_powerset.mpr integral, Finset.card_lt_card ?_⟩
  exact ⟨sumRange_subset_of_addRow r, fun subset => notMem_sumRange_of_addRow violated (subset hk)⟩

end Problem
end Milp
