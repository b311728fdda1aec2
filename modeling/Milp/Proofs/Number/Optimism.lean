import Milp.Proofs.Number.Exact

/-!
# Bounds in order of optimism

A bound on the objective promises at least as much as another one if it lies on the optimistic side
of it or is equal (`Sense.Promises`). Of two defined bounds the weaker one promises at least as much
as each, and a bound that promises as much as both promises as much as the weaker one.
-/

namespace Milp

namespace Extended

/-- What lies at most at a value lies at most at a larger one. -/
theorem le_trans {a b c : Extended Rat} (hab : a.le b = true) (hbc : b.le c = true) :
    a.le c = true := by
  cases b with
  | fin b =>
    cases a with
    | fin a => exact fin_le_trans ((le_fin a b).mp hab) hbc
    | negInf => cases c <;> first | rfl | cases hbc
    | posInf => cases hab
    | undefined => cases hab
  | negInf => cases a <;> first | exact hbc | cases hab
  | posInf =>
    cases c with
    | posInf => exact hab
    | _ => cases hbc
  | undefined => cases a <;> cases hab

/-- A defined value is at most itself. -/
theorem le_refl {a : Extended Rat} (defined : a ≠ .undefined) : a.le a = true := by
  cases a with
  | fin a => exact (le_fin a a).mpr le_rfl
  | undefined => exact absurd rfl defined
  | _ => rfl

/-- Of two defined values that are not in order, the second is at most the first. -/
theorem le_of_lt_eq_false {a b : Extended Rat} (ha : a ≠ .undefined) (hb : b ≠ .undefined)
    (h : a.lt b = false) : b.le a = true := by
  cases a with
  | undefined => exact absurd rfl ha
  | posInf => cases b <;> first | rfl | exact absurd rfl hb
  | negInf => cases b <;> first | rfl | exact absurd rfl hb | cases h
  | fin a =>
    cases b with
    | fin b =>
      have above : ¬ a < b := fun below => absurd ((lt_fin a b).mpr below) (by simp [h])
      exact (le_fin b a).mpr (not_lt.mp above)
    | undefined => exact absurd rfl hb
    | negInf => rfl
    | posInf => cases h

/-- What lies below a value is at most that value. -/
theorem le_of_lt {a b : Extended Rat} (h : a.lt b = true) : a.le b = true := by
  cases a <;> cases b <;> first | rfl | cases h | exact (le_fin _ _).mpr ((lt_fin _ _).mp h).le

/-- The smaller of a defined value and another one. -/
theorem min_of_defined {a : Extended Rat} (defined : a ≠ .undefined) (b : Extended Rat) :
    a.min b = if b.lt a then b else a := by
  cases a with
  | undefined => exact absurd rfl defined
  | _ => rfl

/-- The larger of a defined value and another one. -/
theorem max_of_defined {a : Extended Rat} (defined : a ≠ .undefined) (b : Extended Rat) :
    a.max b = if a.lt b then b else a := by
  cases a with
  | undefined => exact absurd rfl defined
  | _ => rfl

end Extended

namespace Sense

/-- Whether a bound is at least as optimistic as another one. -/
def Promises (s : Sense) (a b : Extended Rat) : Prop :=
  match s with
  | .minimize => a.le b = true
  | .maximize => b.le a = true

variable {s : Sense} {a b c : Extended Rat}

/-- Promising at least as much is transitive. -/
theorem Promises.trans (hab : s.Promises a b) (hbc : s.Promises b c) : s.Promises a c := by
  cases s with
  | minimize => exact Extended.le_trans hab hbc
  | maximize => exact Extended.le_trans hbc hab

/-- A defined bound promises as much as itself. -/
theorem Promises.refl (defined : a ≠ .undefined) : s.Promises a a := by
  cases s <;> exact Extended.le_refl defined

/-- What promises anything is defined. -/
theorem Promises.left_defined (h : s.Promises a b) : a ≠ .undefined := by
  rintro rfl
  cases s <;> cases b <;> cases h

/-- What anything promises is defined. -/
theorem Promises.right_defined (h : s.Promises a b) : b ≠ .undefined := by
  rintro rfl
  cases s <;> cases a <;> cases h

/-- Between numbers, promising as much means not being beaten. -/
theorem promises_fin (s : Sense) (a b : Rat) :
    s.Promises (.fin a) (.fin b) ↔ ¬ s.Better b a := by
  cases s with
  | minimize => rw [Promises, Extended.le_fin, Better, not_lt]
  | maximize => rw [Promises, Extended.le_fin, Better, not_lt]

/-- Every defined value promises as much as the worst. -/
theorem promises_worst (defined : a ≠ .undefined) : s.Promises a s.worst := by
  cases s <;> cases a <;> first | rfl | exact absurd rfl defined

/-- A bound on a number promises as much as the number. -/
theorem Bounds.promises {x : Rat} (h : s.Bounds a x) : s.Promises a (.fin x) := by
  cases a with
  | fin a => exact (promises_fin s a x).mpr h
  | _ => cases s <;> first | rfl | cases h

/-- A value that is better promises as much. -/
theorem promises_of_isBetter {x y : Rat}
    (h : s.isBetter (Scalar.extend x) (Scalar.extend y) (0 : Rat) = true) :
    s.Promises (Scalar.extend x) (Scalar.extend y) := by
  have better := (isBetter_fin s x y).mp h
  refine (promises_fin s x y).mpr fun worse => ?_
  cases s with
  | minimize => exact lt_asymm better worse
  | maximize => exact lt_asymm better worse

/-- The weaker of two bounds is one of them. -/
theorem weaker_eq_or (ha : a ≠ .undefined) : s.weaker a b = a ∨ s.weaker a b = b := by
  cases s with
  | minimize =>
    rw [weaker, Extended.min_of_defined ha]
    exact (ite_eq_or_eq _ _ _).symm
  | maximize =>
    rw [weaker, Extended.max_of_defined ha]
    exact (ite_eq_or_eq _ _ _).symm

/-- What promises as much as two bounds promises as much as the weaker one. -/
theorem Promises.weaker (ha : s.Promises c a) (hb : s.Promises c b) :
    s.Promises c (s.weaker a b) := by
  rcases weaker_eq_or (s := s) (b := b) ha.right_defined with eq | eq
  · rw [eq]
    exact ha
  · rw [eq]
    exact hb

/-- The weaker of two defined bounds promises as much as each of them. -/
theorem weaker_promises (ha : a ≠ .undefined) (hb : b ≠ .undefined) :
    s.Promises (s.weaker a b) a ∧ s.Promises (s.weaker a b) b := by
  cases s with
  | minimize =>
    rw [Sense.weaker, Extended.min_of_defined ha]
    split
    next below => exact ⟨Extended.le_of_lt below, Extended.le_refl hb⟩
    next above =>
      exact ⟨Extended.le_refl ha, Extended.le_of_lt_eq_false hb ha (by simpa using above)⟩
  | maximize =>
    rw [Sense.weaker, Extended.max_of_defined ha]
    split
    next above => exact ⟨Extended.le_of_lt above, Extended.le_refl hb⟩
    next below =>
      exact ⟨Extended.le_refl ha, Extended.le_of_lt_eq_false ha hb (by simpa using below)⟩

end Sense
end Milp
