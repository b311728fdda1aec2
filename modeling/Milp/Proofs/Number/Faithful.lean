import Milp.Number.Extended
import Milp.Proofs.Number.Exact

/-!
# Arithmetic that rounds

What the solver relies on in its numbers is not that they are exact. `Scalar.Faithful` collects it:
finite numbers stand for rationals and are compared as these; sums and differences are rounded to
the nearest number, or to an infinity where they lie beyond all numbers; and rounding keeps
integers integers.

From this follows what the search needs of whole bounds. They stay whole when they move by one
(`IsInteger.succ`); different ones are apart by more than any tolerance (`IsInteger.apart`), also
after the difference is rounded; and a lower one above an upper one is found out
(`IsInteger.crossed`).
-/

namespace Milp.Scalar

/-- What rounding makes of the number `s`: a finite number such that no other one is nearer, or an
infinity if `s` lies beyond all of them. -/
inductive Rounded {α : Type} [Scalar α] (value : α → ℚ) (s : ℚ) : Extended α → Prop
  | near (z : α) (finite : isFinite z = true)
      (nearest : ∀ c, isFinite c = true → |value z - s| ≤ |value c - s|)
      (whole : Whole s → Whole (value z)) : Rounded value s (.fin z)
  | above (beyond : ∀ c, isFinite c = true → value c + 1 < s) : Rounded value s .posInf
  | below (beyond : ∀ c, isFinite c = true → s < value c - 1) : Rounded value s .negInf

/-- Numbers whose arithmetic rounds to the nearest. -/
class Faithful (α : Type) [Scalar α] where
  /-- The rational number that a finite number stands for. -/
  value : α → ℚ
  extend_of_fin {x y : α} : extend x = .fin y → y = x
  finite_zero : isFinite (0 : α) = true
  value_zero : value 0 = 0
  finite_one : isFinite (1 : α) = true
  value_one : value 1 = 1
  lt_iff {x y : α} : isFinite x = true → isFinite y = true → (x < y ↔ value x < value y)
  le_iff {x y : α} : isFinite x = true → isFinite y = true → (x ≤ y ↔ value x ≤ value y)
  defined {x : α} : isFinite x = true → isUndefined x = false
  floor_spec {x : α} : isFinite x = true →
    isFinite (floor x) = true ∧ value (floor x) = ⌊value x⌋
  ceil_spec {x : α} : isFinite x = true → isFinite (ceil x) = true ∧ Whole (value (ceil x))
  round_spec {x : α} : isFinite x = true → isFinite (round x) = true ∧ Whole (value (round x))
  add_spec {x y : α} : isFinite x = true → isFinite y = true →
    Rounded value (value x + value y) (extend (x + y))
  sub_spec {x y : α} : isFinite x = true → isFinite y = true →
    Rounded value (value x - value y) (extend (x - y))

export Faithful (value)

section

variable {α : Type} [Scalar α] [Faithful α] {x y l u tol : α}

/-- A finite number stands for itself. -/
theorem extend_of_isFinite (h : isFinite x = true) : extend x = .fin x := by
  unfold isFinite at h
  split at h
  next y eq => rw [eq, Faithful.extend_of_fin eq]
  next => cases h

/-- What stands for a number is finite and that number. -/
theorem isFinite_of_extend (h : extend x = .fin y) : isFinite x = true ∧ y = x := by
  constructor
  · rw [isFinite, h]
  · exact Faithful.extend_of_fin h

/-- A finite number is positive if the number that it stands for is. -/
theorem pos_iff (hx : isFinite x = true) : 0 < x ↔ 0 < value x := by
  rw [Faithful.lt_iff Faithful.finite_zero hx, Faithful.value_zero]

/-! ### What rounding does to a sum -/

namespace Rounded

variable {s : ℚ} {e : Extended α}

/-- A sum within one of a number is rounded to a number, which is about as near. -/
theorem near_of_close (h : Rounded value s e) (hx : isFinite x = true)
    (close : |value x - s| ≤ 1) :
    ∃ z, e = .fin z ∧ isFinite z = true ∧ |value z - s| ≤ |value x - s| ∧
      (Whole s → Whole (value z)) := by
  have bounds := abs_le.mp close
  cases h with
  | near z finite nearest whole => exact ⟨z, rfl, finite, nearest x hx, whole⟩
  | above beyond => linarith [beyond x hx]
  | below beyond => linarith [beyond x hx]

/-- Rounding does not take a sum below a number that it reaches. -/
theorem not_below (h : Rounded value s e) (hx : isFinite x = true) (le : value x ≤ s) :
    e = .posInf ∨ ∃ z, e = .fin z ∧ isFinite z = true ∧ value x ≤ value z := by
  cases h with
  | near z finite nearest whole =>
    have bound := (abs_le.mp ((nearest x hx).trans_eq (abs_of_nonpos (by linarith)))).1
    exact .inr ⟨z, rfl, finite, by linarith⟩
  | above beyond => exact .inl rfl
  | below beyond => linarith [beyond x hx]

/-- Rounding does not take a sum beyond numbers that it lies between. -/
theorem between (h : Rounded value s (extend x)) (hl : isFinite l = true) (hu : isFinite u = true)
    (low : value l ≤ s) (high : s ≤ value u) :
    isFinite x = true ∧ value l ≤ value x ∧ value x ≤ value u := by
  generalize extended : extend x = e at h
  cases h with
  | near z finite nearest whole =>
    obtain ⟨-, rfl⟩ := isFinite_of_extend extended
    have above := (abs_le.mp ((nearest l hl).trans_eq (abs_of_nonpos (by linarith)))).1
    have below := (abs_le.mp ((nearest u hu).trans_eq (abs_of_nonneg (by linarith)))).2
    exact ⟨finite, by linarith, by linarith⟩
  | above beyond => linarith [beyond u hu]
  | below beyond => linarith [beyond l hl]

/-- What lies between zero and one is rounded to a number between them, and zero to zero. -/
theorem unit (h : Rounded value s (extend x)) (nonneg : 0 ≤ s) (le_one : s ≤ 1) :
    isFinite x = true ∧ 0 ≤ value x ∧ value x ≤ 1 ∧ (s = 0 → value x = 0) := by
  have zero : value (0 : α) = 0 := Faithful.value_zero
  have one : value (1 : α) = 1 := Faithful.value_one
  obtain ⟨finite, low, high⟩ := h.between Faithful.finite_zero Faithful.finite_one
    (zero.trans_le nonneg) (le_one.trans_eq one.symm)
  refine ⟨finite, zero ▸ low, one ▸ high, fun none => ?_⟩
  obtain ⟨-, low', high'⟩ := h.between Faithful.finite_zero Faithful.finite_zero
    (zero.trans_le none.ge) (none.trans_le zero.ge)
  rw [zero] at low' high'
  exact high'.antisymm low'

end Rounded

/-! ### Whole numbers -/

/-- Whether a number is finite and whole. -/
def IsInteger (x : α) : Prop := isFinite x = true ∧ Whole (value x)

/-- Zero is whole. -/
theorem IsInteger.zero : IsInteger (0 : α) :=
  ⟨Faithful.finite_zero, 0, by rw [Faithful.value_zero, Int.cast_zero]⟩

/-- One is whole. -/
theorem IsInteger.one : IsInteger (1 : α) :=
  ⟨Faithful.finite_one, 1, by rw [Faithful.value_one, Int.cast_one]⟩

/-- The floor of a finite number is whole. -/
theorem IsInteger.floor (h : isFinite x = true) : IsInteger (floor x) :=
  ⟨(Faithful.floor_spec h).1, _, (Faithful.floor_spec h).2⟩

/-- The ceiling of a finite number is whole. -/
theorem IsInteger.ceil (h : isFinite x = true) : IsInteger (ceil x) := Faithful.ceil_spec h

/-- A finite number is rounded to a whole one. -/
theorem IsInteger.round (h : isFinite x = true) : IsInteger (round x) := Faithful.round_spec h

/-- What stands for the whole neighbour of a whole number is a whole number. The neighbour itself
may be too large to be one; then rounding leads back. -/
theorem IsInteger.of_rounded {s : ℚ} (hx : IsInteger x) (close : |value x - s| ≤ 1)
    (whole : Whole s) (h : Rounded value s (extend y)) : IsInteger y := by
  obtain ⟨z, eq, finite, -, kept⟩ := h.near_of_close hx.1 close
  obtain ⟨-, rfl⟩ := isFinite_of_extend eq
  exact ⟨finite, kept whole⟩

/-- One more than a whole number is whole. -/
theorem IsInteger.succ (h : IsInteger x) : IsInteger (x + 1) := by
  refine h.of_rounded ?_ ?_ (Faithful.add_spec h.1 Faithful.finite_one)
  · rw [Faithful.value_one, sub_add_cancel_left, abs_neg, abs_one]
  · obtain ⟨n, n_eq⟩ := h.2
    exact ⟨n + 1, by rw [n_eq, Faithful.value_one]; push_cast; rfl⟩

/-- One less than a whole number is whole. -/
theorem IsInteger.pred (h : IsInteger x) : IsInteger (x - 1) := by
  refine h.of_rounded ?_ ?_ (Faithful.sub_spec h.1 Faithful.finite_one)
  · rw [Faithful.value_one, sub_sub_cancel, abs_one]
  · obtain ⟨n, n_eq⟩ := h.2
    exact ⟨n - 1, by rw [n_eq, Faithful.value_one]; push_cast; rfl⟩

/-! ### Whole bounds and tolerances -/

/-- Whether a tolerance is a number from zero to less than one half. -/
structure Moderate (tol : α) : Prop where
  finite : isFinite tol = true
  nonneg : 0 ≤ value tol
  lt_half : value tol < 1 / 2

/-- Different integers are at least one apart. -/
theorem IsInteger.add_one_le (hx : IsInteger x) (hy : IsInteger y) (less : value x < value y) :
    value x + 1 ≤ value y := by
  obtain ⟨m, m_eq⟩ := hx.2
  obtain ⟨n, n_eq⟩ := hy.2
  rw [m_eq, n_eq] at less ⊢
  exact_mod_cast Int.add_one_le_of_lt (by exact_mod_cast less)

/-- Different whole bounds in order are not within a tolerance of each other. -/
theorem IsInteger.apart (hl : IsInteger l) (hu : IsInteger u) (less : value l < value u)
    (ht : Moderate tol) : (extend (u - l)).le (extend tol) = false := by
  have one : value (1 : α) ≤ value u - value l := by
    rw [Faithful.value_one]
    linarith [hl.add_one_le hu less]
  rw [extend_of_isFinite ht.finite]
  rcases (Faithful.sub_spec hu.1 hl.1).not_below Faithful.finite_one one with eq | ⟨z, eq, finite, le⟩
  · rw [eq]
    rfl
  · rw [eq, Extended.le, decide_eq_false_iff_not, Faithful.le_iff finite ht.finite, not_le]
    linarith [ht.lt_half, (Faithful.value_one : value (1 : α) = 1)]

/-- A whole lower bound above a whole upper bound is above it by more than a tolerance. -/
theorem IsInteger.crossed (hl : IsInteger l) (hu : IsInteger u) (less : value u < value l)
    (ht : Moderate tol) : ((Extended.fin u).add (extend tol)).lt (extend l) = true := by
  have nonneg := ht.nonneg
  have half := ht.lt_half
  have close : |value u - (value u + value tol)| = value tol := by
    rw [sub_add_cancel_left, abs_neg, abs_of_nonneg nonneg]
  obtain ⟨z, eq, finite, near, -⟩ :=
    (Faithful.add_spec hu.1 ht.finite).near_of_close hu.1 (by linarith)
  have above := (abs_le.mp (near.trans_eq close)).2
  rw [extend_of_isFinite ht.finite, extend_of_isFinite hl.1, Extended.add, eq, Extended.lt,
    decide_eq_true_iff, Faithful.lt_iff finite hl.1]
  linarith [hu.add_one_le hl less]

/-! ### Fractionality -/

/-- The distance down to the next whole number is between zero and one, and zero for integers. -/
theorem frac_spec (hx : isFinite x = true) :
    isFinite (frac x) = true ∧ 0 ≤ value (frac x) ∧ value (frac x) ≤ 1 ∧
      (Whole (value x) → value (frac x) = 0) := by
  obtain ⟨floor_finite, floor_eq⟩ := Faithful.floor_spec hx
  have rounded := Faithful.sub_spec hx floor_finite
  rw [floor_eq] at rounded
  obtain ⟨finite, nonneg, le_one, zero⟩ := rounded.unit (by linarith [Int.floor_le (value x)])
    (by linarith [Int.lt_floor_add_one (value x)])
  refine ⟨finite, nonneg, le_one, ?_⟩
  rintro ⟨n, n_eq⟩
  exact zero (by rw [n_eq, Int.floor_intCast, sub_self])

/-- The distance up to the next whole number is between zero and one. -/
theorem one_sub_frac_spec (hx : isFinite x = true) :
    isFinite (1 - frac x) = true ∧ 0 ≤ value (1 - frac x) := by
  obtain ⟨finite, nonneg, le_one, -⟩ := frac_spec hx
  have rounded := Faithful.sub_spec Faithful.finite_one finite
  rw [Faithful.value_one] at rounded
  obtain ⟨finite', nonneg', -⟩ := rounded.unit (by linarith) (by linarith)
  exact ⟨finite', nonneg'⟩

/-- The fractionality is one of the two distances, and the lower one if that is zero. -/
theorem fractionality_eq_ite (hx : isFinite x = true) :
    fractionality x = if 1 - frac x < frac x then 1 - frac x else frac x := by
  rw [fractionality, min, Faithful.defined (frac_spec hx).1]
  rfl

/-- The fractionality of a finite number is finite and not negative. -/
theorem fractionality_spec (hx : isFinite x = true) :
    isFinite (fractionality x) = true ∧ ¬fractionality x < 0 := by
  have regular : ∀ y : α, isFinite y = true ∧ 0 ≤ value y → isFinite y = true ∧ ¬y < 0 := by
    rintro y ⟨finite, nonneg⟩
    refine ⟨finite, fun negative => ?_⟩
    rw [Faithful.lt_iff finite Faithful.finite_zero, Faithful.value_zero] at negative
    linarith
  rw [fractionality_eq_ite hx]
  split
  · exact regular _ (one_sub_frac_spec hx)
  · exact regular _ ⟨(frac_spec hx).1, (frac_spec hx).2.1⟩

/-- A number that is an integer is whole within every tolerance. -/
theorem isWhole_of_whole (hx : isFinite x = true) (whole : Whole (value x)) (ht : Moderate tol) :
    isWhole x tol = true := by
  obtain ⟨finite, -, -, zero⟩ := frac_spec hx
  obtain ⟨finite', nonneg'⟩ := one_sub_frac_spec hx
  have lower : fractionality x = frac x := by
    rw [fractionality_eq_ite hx, if_neg]
    rw [Faithful.lt_iff finite' finite, zero whole]
    linarith
  rw [isWhole, lower, decide_eq_true_iff, Faithful.le_iff finite ht.finite, zero whole]
  exact ht.nonneg

end

/-! ### Exact numbers -/

/-- Exact numbers stand for themselves, and nothing is ever rounded. -/
instance : Faithful Rat where
  value := id
  extend_of_fin h := (Extended.fin.inj h).symm
  finite_zero := rfl
  value_zero := rfl
  finite_one := rfl
  value_one := rfl
  lt_iff _ _ := Iff.rfl
  le_iff _ _ := Iff.rfl
  defined _ := by simp [isUndefined]
  floor_spec _ := ⟨rfl, rfl⟩
  ceil_spec := fun {x} _ => ⟨rfl, ⌈x⌉, ceil_eq x⟩
  round_spec := fun {x} _ => ⟨rfl, whole_round x⟩
  add_spec := fun {x y} _ _ => .near (x + y) rfl (fun c _ => by simp) id
  sub_spec := fun {x y} _ _ => .near (x - y) rfl (fun c _ => by simp) id

end Milp.Scalar
