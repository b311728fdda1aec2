import Mathlib.Algebra.Order.Floor.Semiring
import Mathlib.Algebra.Order.Round
import Mathlib.Data.Rat.Floor
import Mathlib.Tactic.Linarith
import Mathlib.Tactic.Ring
import Milp.Problem.Basic

/-!
# Exact numbers

Over the rationals the operations of `Scalar` are the mathematical ones, and a comparison with
tolerance zero is the plain comparison. This file says so once for each operation, so that
nothing else opens them:

* `Whole x` — `x` is an integer; `isWhole_zero_iff`: that is what `Scalar.isWhole` finds.
* `floor_or_ceil` — an integer lies at most at the floor of a number or at least at its ceiling.
* `Sense.Better` — strictly better in the direction of optimisation; `Sense.isBetter_fin`.
* `Sense.Bounds` — an extended value that no given value beats; `Sense.not_better_of_bounds` is
  the rule by which nodes are dropped.
-/

namespace Milp

/-! ### Whole numbers -/

/-- Whether a number is an integer. -/
def Whole (x : Rat) : Prop := ∃ n : ℤ, x = n

namespace Scalar

/-- The floor is the integer floor. -/
theorem floor_eq (x : Rat) : Scalar.floor x = (⌊x⌋ : ℤ) := rfl

/-- The ceiling is the integer ceiling. -/
theorem ceil_eq (x : Rat) : Scalar.ceil x = (⌈x⌉ : ℤ) := by
  show ((x.ceil : ℤ) : Rat) = (⌈x⌉ : ℤ)
  rw [Rat.ceil_eq_neg_floor_neg, show (-x).floor = ⌊-x⌋ from rfl, Int.floor_neg, neg_neg]

/-- The larger of two numbers. -/
theorem max_eq (a b : Rat) : Scalar.max a b = Max.max a b := by
  have defined : Scalar.isUndefined a = false := by simp [Scalar.isUndefined]
  rw [Scalar.max, defined]
  rcases lt_or_ge a b with h | h
  · rw [if_pos h, max_eq_right h.le]
  · rw [if_neg (not_lt.mpr h), max_eq_left h]
    rfl

/-- The smaller of two numbers. -/
theorem min_eq (a b : Rat) : Scalar.min a b = Min.min a b := by
  have defined : Scalar.isUndefined a = false := by simp [Scalar.isUndefined]
  rw [Scalar.min, defined]
  rcases lt_or_ge b a with h | h
  · rw [if_pos h, min_eq_right h.le]
  · rw [if_neg (not_lt.mpr h), min_eq_left h]
    rfl

/-- The distance to zero is the absolute value. -/
theorem abs_eq (x : Rat) : Scalar.abs x = |x| := by
  show (if x < 0 then -x else x) = |x|
  split
  next h => exact (abs_of_neg h).symm
  next h => exact (abs_of_nonneg (not_lt.mp h)).symm

/-- Within tolerance zero exactly the integers are whole. -/
theorem isWhole_zero_iff (x : Rat) : Scalar.isWhole x 0 = true ↔ Whole x := by
  have above : (⌊x⌋ : Rat) ≤ x := Int.floor_le x
  have below : x < ⌊x⌋ + 1 := Int.lt_floor_add_one x
  rw [Scalar.isWhole, decide_eq_true_iff, Scalar.fractionality, Scalar.frac, floor_eq, min_eq,
    min_le_iff]
  constructor
  · rintro (h | h)
    · exact ⟨⌊x⌋, le_antisymm (by linarith) above⟩
    · exact absurd below (by linarith)
  · rintro ⟨n, rfl⟩
    left
    rw [Int.floor_intCast, sub_self]

/-- Rounding gives an integer. -/
theorem whole_round (x : Rat) : Whole (Scalar.round x) := by
  show Whole (if x < 0 then -(((-x + 1 / 2).floor : ℤ) : Rat) else (((x + 1 / 2).floor : ℤ) : Rat))
  split
  · exact ⟨-(-x + 1 / 2).floor, by push_cast; rfl⟩
  · exact ⟨(x + 1 / 2).floor, rfl⟩

/-- Rounding leaves integers alone. -/
theorem round_of_whole {x : Rat} (h : Whole x) : Scalar.round x = x := by
  have half : ∀ n : ℤ, ((n : Rat) + 1 / 2).floor = n := by
    intro n
    have : ⌊(n : Rat) + 1 / 2⌋ = n + ⌊(1 / 2 : Rat)⌋ := Int.floor_intCast_add n _
    rw [show ((n : Rat) + 1 / 2).floor = ⌊(n : Rat) + 1 / 2⌋ from rfl, this]
    norm_num
  obtain ⟨n, rfl⟩ := h
  show (if (n : Rat) < 0 then -(((-(n : Rat) + 1 / 2).floor : ℤ) : Rat)
    else (((n : Rat) + 1 / 2).floor : ℤ)) = n
  rw [half n, show -(n : Rat) = ((-n : ℤ) : Rat) by push_cast; rfl, half (-n)]
  split
  · push_cast
    ring
  · rfl

/-- The distance to the nearest integer, from below or from above. -/
theorem fractionality_eq (x : Rat) :
    Scalar.fractionality x = Min.min (Int.fract x) (1 - Int.fract x) := by
  rw [fractionality, min_eq, frac, floor_eq]
  rfl

/-- Rounding moves a number to the nearest integer. -/
theorem abs_round_sub (x : Rat) : |Scalar.round x - x| = Scalar.fractionality x := by
  have nearest (y : Rat) : |y - ((⌊y + 1 / 2⌋ : ℤ) : Rat)| =
      Min.min (Int.fract y) (1 - Int.fract y) := by
    rw [← round_eq, abs_sub_round_eq_min]
  have rounded : Scalar.round x =
      if x < 0 then -((⌊-x + 1 / 2⌋ : ℤ) : Rat) else ((⌊x + 1 / 2⌋ : ℤ) : Rat) := rfl
  rw [rounded, fractionality_eq]
  split
  next =>
    have mirrored : -((⌊-x + 1 / 2⌋ : ℤ) : Rat) - x = -x - ((⌊-x + 1 / 2⌋ : ℤ) : Rat) := by ring
    rw [mirrored, nearest]
    by_cases whole : Int.fract x = 0
    · rw [whole, Int.fract_neg_eq_zero.mpr whole]
    · rw [Int.fract_neg whole, sub_sub_cancel, min_comm]
  next => rw [abs_sub_comm, nearest]

/-- The sum of a list is its sum. -/
theorem sum_eq (xs : List Rat) : Scalar.sum xs = xs.sum := by
  have shift : ∀ (ys : List Rat) (a : Rat), ys.foldl (· + ·) a = a + ys.sum := by
    intro ys
    induction ys with
    | nil => intro a; simp
    | cons y ys ih => intro a; rw [List.foldl_cons, ih, List.sum_cons, add_assoc]
  show xs.foldl (· + ·) (-0) = xs.sum
  rw [shift, neg_zero, zero_add]

end Scalar

namespace Whole

/-- An integer lies at most at the floor of a number or at least at its ceiling. -/
theorem floor_or_ceil {y : Rat} (h : Whole y) (x : Rat) :
    y ≤ Scalar.floor x ∨ Scalar.ceil x ≤ y := by
  obtain ⟨n, rfl⟩ := h
  rw [Scalar.floor_eq, Scalar.ceil_eq]
  rcases lt_or_ge x n with h | h
  · exact .inr (by exact_mod_cast Int.ceil_le.mpr h.le)
  · exact .inl (by exact_mod_cast Int.le_floor.mpr h)

/-- An integer lies at most at another one or at least one above it. -/
theorem le_or_succ_le {y r : Rat} (h : Whole y) (hr : Whole r) : y ≤ r ∨ r + 1 ≤ y := by
  obtain ⟨n, rfl⟩ := h
  obtain ⟨k, rfl⟩ := hr
  rcases le_or_gt n k with h | h
  · exact .inl (by exact_mod_cast h)
  · exact .inr (by exact_mod_cast h)

/-- The sum of integers is an integer. -/
theorem sum {xs : List Rat} (h : ∀ x ∈ xs, Whole x) : Whole xs.sum := by
  induction xs with
  | nil => exact ⟨0, by simp⟩
  | cons x xs ih =>
    obtain ⟨n, hn⟩ := h x List.mem_cons_self
    obtain ⟨k, hk⟩ := ih fun y hy => h y (List.mem_cons_of_mem x hy)
    exact ⟨n + k, by rw [List.sum_cons, hn, hk]; push_cast; rfl⟩

/-- One less than an integer is an integer. -/
theorem pred {x : Rat} (h : Whole x) : Whole (x - 1) := by
  obtain ⟨n, rfl⟩ := h
  exact ⟨n - 1, by push_cast; rfl⟩

end Whole

/-! ### Extended values -/

namespace Extended

/-- Order of two numbers. -/
@[simp] theorem lt_fin (a b : Rat) : (Extended.fin a).lt (.fin b) = true ↔ a < b := by
  simp [Extended.lt]

/-- Order of two numbers. -/
@[simp] theorem le_fin (a b : Rat) : (Extended.fin a).le (.fin b) = true ↔ a ≤ b := by
  simp [Extended.le]

/-- Nothing is at most an undefined value. -/
theorem ne_undefined_of_le {a : Rat} {u : Extended Rat} (h : (Extended.fin a).le u = true) :
    u ≠ .undefined := by
  rintro rfl
  simp [Extended.le] at h

/-- What lies below a number lies below everything above that number. -/
theorem fin_le_trans {a b : Rat} {u : Extended Rat} (hab : a ≤ b)
    (h : (Extended.fin b).le u = true) : (Extended.fin a).le u = true := by
  cases u with
  | fin c => exact (le_fin a c).mpr (hab.trans ((le_fin b c).mp h))
  | posInf => rfl
  | negInf => simp [Extended.le] at h
  | undefined => simp [Extended.le] at h

/-- A number below one that is at most an upper bound is below that bound. -/
theorem fin_lt_of_lt {a b : Rat} {u : Extended Rat} (hab : a < b)
    (hb : (Extended.fin b).le u = true) : (Extended.fin a).lt u = true := by
  cases u with
  | fin c => exact (lt_fin _ _).mpr (hab.trans_le ((le_fin _ _).mp hb))
  | posInf => rfl
  | negInf => cases hb
  | undefined => cases hb

/-- A number that is at most one below an upper bound is below that bound. -/
theorem fin_lt_trans {a b : Rat} {u : Extended Rat} (hab : a ≤ b)
    (hb : (Extended.fin b).lt u = true) : (Extended.fin a).lt u = true := by
  cases u with
  | fin c => exact (lt_fin _ _).mpr (hab.trans_lt ((lt_fin _ _).mp hb))
  | posInf => rfl
  | negInf => cases hb
  | undefined => cases hb

/-- What lies below a value lies below a larger one. -/
theorem le_add_fin {a b : Rat} {u : Extended Rat} (h : (Extended.fin a).le u = true)
    (nonneg : 0 ≤ b) : (Extended.fin a).le (u.add (.fin b)) = true := by
  cases u with
  | fin c =>
    show (Extended.fin a).le (.fin (c + b)) = true
    have := (le_fin a c).mp h
    exact (le_fin _ _).mpr (by linarith)
  | posInf => rfl
  | negInf => simp [Extended.le] at h
  | undefined => simp [Extended.le] at h

/-- Adding zero changes nothing. -/
theorem add_zero (u : Extended Rat) : u.add (.fin 0) = u := by
  cases u with
  | fin c =>
    show Extended.fin (c + 0) = .fin c
    simp
  | _ => rfl

/-- The smaller of two numbers. -/
@[simp] theorem min_fin (a b : Rat) : (Extended.fin a).min (.fin b) = .fin (Min.min a b) := by
  show (if (Extended.fin b).lt (.fin a) = true then Extended.fin b else .fin a) = _
  rcases lt_or_ge b a with h | h
  · rw [if_pos ((lt_fin b a).mpr h), min_eq_right h.le]
  · rw [if_neg (mt (lt_fin b a).mp (not_lt.mpr h)), min_eq_left h]

/-- A number is at most the smaller of a defined value and a number if it is at most both. -/
theorem fin_le_min_iff {a b : Rat} {u : Extended Rat} (defined : u ≠ .undefined) :
    (Extended.fin a).le (u.min (.fin b)) = true ↔ (Extended.fin a).le u = true ∧ a ≤ b := by
  cases u with
  | fin c => rw [min_fin, le_fin, le_fin, le_min_iff]
  | posInf => simp [Extended.min, Extended.lt, Extended.le]
  | negInf => simp [Extended.min, Extended.lt, Extended.le]
  | undefined => exact absurd rfl defined

/-- Within tolerance zero a number is not beyond a defined value if it is at most that value. -/
theorem le_of_not_lt {a : Rat} {u : Extended Rat} (defined : u ≠ .undefined)
    (h : (u.add (Scalar.extend 0)).lt (Scalar.extend a) = false) :
    (Extended.fin a).le u = true := by
  cases u with
  | fin c =>
    refine (le_fin a c).mpr (not_lt.mp fun hca => ?_)
    have : (Extended.fin (c + 0)).lt (.fin a) = true := (lt_fin _ _).mpr (by linarith)
    exact absurd (this.symm.trans h) (by decide)
  | posInf => rfl
  | negInf => cases h
  | undefined => exact absurd rfl defined

end Extended

/-! ### The direction of optimisation -/

namespace Sense

/-- Whether a value is strictly better than another one. -/
def Better (s : Sense) (a b : Rat) : Prop :=
  match s with
  | .minimize => a < b
  | .maximize => b < a

/-- The sign that turns values so that smaller is better. -/
def sign : Sense → Rat
  | .minimize => 1
  | .maximize => -1

/-- Better values are smaller once they are turned. -/
theorem better_iff_sign_mul_lt (s : Sense) (a b : Rat) :
    s.Better a b ↔ s.sign * a < s.sign * b := by
  cases s
  · rw [sign, one_mul, one_mul]
    exact Iff.rfl
  · rw [sign, neg_one_mul, neg_one_mul, neg_lt_neg_iff]
    exact Iff.rfl

/-- What is no better than a value is no better than a better one. -/
theorem not_better_trans {s : Sense} {a b c : Rat} (h : ¬ s.Better a b) (hcb : s.Better c b) :
    ¬ s.Better a c := by
  cases s <;> simp only [Better, not_lt] at * <;> linarith

/-- Two values of which neither is better are equal. -/
theorem eq_of_not_better {s : Sense} {a b : Rat} (hab : ¬ s.Better a b) (hba : ¬ s.Better b a) :
    a = b := by
  cases s <;> simp only [Better, not_lt] at * <;> linarith

/-- Within tolerance zero, better means strictly better. -/
theorem isBetter_fin (s : Sense) (a b : Rat) :
    s.isBetter (Scalar.extend a) (Scalar.extend b) (0 : Rat) = true ↔ s.Better a b := by
  cases s with
  | minimize =>
    show (Extended.fin a).lt (.fin (b - 0)) = true ↔ a < b
    rw [Extended.lt_fin, sub_zero]
  | maximize =>
    show (Extended.fin (b + 0)).lt (.fin a) = true ↔ b < a
    rw [Extended.lt_fin, add_zero]

/-- Whether no value beyond a bound is the given one: the bound is a number that the value does
not beat, or the best value of the direction. -/
def Bounds (s : Sense) (bound : Extended Rat) (a : Rat) : Prop :=
  match bound with
  | .fin b => ¬ s.Better a b
  | bound => bound = s.best

/-- Nothing beats the best value. -/
theorem bounds_best (s : Sense) (a : Rat) : s.Bounds s.best a := by
  cases s <;> rfl

/-- If a bound does not beat a reference, no value within the bound does. -/
theorem not_better_of_bounds {s : Sense} {bound : Extended Rat} {a reference : Rat}
    (h : s.Bounds bound a)
    (hr : s.isBetter bound (Scalar.extend reference) (0 : Rat) = false) :
    ¬ s.Better a reference := by
  cases bound with
  | fin b =>
    have hb : ¬ s.Better b reference := fun hb =>
      absurd (((isBetter_fin s b reference).mpr hb).symm.trans hr) (by decide)
    intro ha
    cases s <;> simp only [Bounds, Better, not_lt] at * <;> linarith
  | negInf =>
    cases s
    · cases hr
    · cases h
  | posInf =>
    cases s
    · cases h
    · cases hr
  | undefined => cases s <;> cases h

end Sense
end Milp
