import Milp.Proofs.Number.Double

/-!
# Quotients of doubles

Division divides the mantissas as integers, after the first one has been given so many zeros that
the quotient has all the bits of a double; the rest decides the two residual bits. So a quotient is
rounded to the nearest double, once (`div_spec`, `quotient_spec`).

Of two positive doubles the quotient is positive, infinite, or zero. It is zero only if it lies at
most halfway to the least positive double (`quotient_pos`).
-/

namespace Milp.Double

open Float.Model Float.Model.UnpackedFloat

/-! ### The mantissa of a quotient -/

/-- The quotient of two integers and the accuracy of the rest stand for the fraction. -/
theorem Stands.fraction (n : ℕ) {d : ℕ} (pos : 0 < d) :
    Stands (.ofMantissaAndAccuracy (n / d) (accuracyOfFraction (n % d) d)) ((n : ℚ) / d) := by
  have unit : (0 : ℚ) < d := by exact_mod_cast pos
  have split : (n : ℚ) / d = (n / d : ℕ) + (n % d : ℕ) / d := by
    have division : (d : ℚ) * (n / d : ℕ) + (n % d : ℕ) = n := by
      exact_mod_cast Nat.div_add_mod n d
    rw [div_eq_iff unit.ne', add_mul, div_mul_cancel₀ _ unit.ne', mul_comm, division]
  have rest_lt : ((n % d : ℕ) : ℚ) / d < 1 := by
    rw [div_lt_one unit]
    exact_mod_cast Nat.mod_lt n pos
  generalize n / d = q at split
  generalize n % d = r at split rest_lt
  rw [accuracyOfFraction]
  split
  next zero =>
    subst zero
    show (n : ℚ) / d = q
    rw [split, Nat.cast_zero, zero_div, add_zero]
  next more =>
    have positive : (0 : ℚ) < r / d := div_pos (by exact_mod_cast Nat.pos_of_ne_zero more) unit
    rcases lt_trichotomy (2 * r) d with less | half | large
    · have below : (r : ℚ) / d < 1 / 2 := by
        rw [div_lt_div_iff₀ unit two_pos, one_mul, mul_comm]
        exact_mod_cast less
      rw [compare_lt_iff_lt.mpr less]
      show (q : ℚ) < n / d ∧ (n : ℚ) / d < q + 1 / 2
      rw [split]
      constructor <;> linarith
    · have middle : (r : ℚ) / d = 1 / 2 := by
        rw [div_eq_div_iff unit.ne' two_ne_zero, one_mul, mul_comm]
        exact_mod_cast half
      rw [compare_eq_iff_eq.mpr half]
      show (n : ℚ) / d = q + 1 / 2
      rw [split, middle]
    · have above : 1 / 2 < (r : ℚ) / d := by
        rw [div_lt_div_iff₀ two_pos unit, one_mul, mul_comm]
        exact_mod_cast large
      rw [compare_gt_iff_gt.mpr large]
      show (q : ℚ) + 1 / 2 < n / d ∧ (n : ℚ) / d < q + 1
      rw [split]
      constructor <;> linarith

/-- Unless its exponent is the least possible one, the quotient of the mantissas has 53 bits. -/
theorem quotient_long {m n : ℕ} (m_pos : 0 < m) (n_pos : 0 < n) {e f t : ℤ}
    (target :
      t = min (e - f) (Format.binary64.targetExponent (totalExponent m e - totalExponent n f)))
    (high : -1074 < t) : 2 ^ 52 ≤ m <<< (e - f - t).toNat / n := by
  have exponents : Format.binary64.targetExponent (totalExponent m e - totalExponent n f) =
      max ((m.log2 + 1 + e) - (n.log2 + 1 + f) - 53) (-1074) := rfl
  rw [exponents] at target
  generalize k_eq : (e - f - t).toNat = k
  have bits : n.log2 + 53 ≤ m.log2 + k := by omega
  rw [Nat.le_div_iff_mul_le n_pos, Nat.shiftLeft_eq]
  calc 2 ^ 52 * n ≤ 2 ^ 52 * 2 ^ (n.log2 + 1) := Nat.mul_le_mul_left _ Nat.lt_log2_self.le
    _ = 2 ^ (n.log2 + 53) := by rw [← pow_add]; congr 1; omega
    _ ≤ 2 ^ (m.log2 + k) := Nat.pow_le_pow_right two_pos bits
    _ = 2 ^ m.log2 * 2 ^ k := pow_add 2 _ _
    _ ≤ m * 2 ^ k := Nat.mul_le_mul_right _ (Nat.log2_self_le m_pos.ne')

/-- The quotient of two positive mantissas with their exponents is rounded to the nearest double. -/
theorem divCore_rounded (s : Sign) {m n : ℕ} (m_pos : 0 < m) (n_pos : 0 < n) (e f : ℤ) :
    let core := divCore Format.binary64 m e n f
    RoundedFrom (factor s * (m * 2 ^ e / (n * 2 ^ f)))
      (roundWithAccuracy Format.binary64 s core.1 core.2.1 core.2.2) := by
  generalize target :
    min (e - f) (Format.binary64.targetExponent (totalExponent m e - totalExponent n f)) = t
  have core_eq : divCore Format.binary64 m e n f = (m <<< (e - f - t).toNat / n, t,
      accuracyOfFraction (m <<< (e - f - t).toNat % n) n) := by
    rw [← target]
    rfl
  have long := quotient_long m_pos n_pos target.symm
  have t_le : t ≤ e - f := target ▸ min_le_left _ _
  obtain ⟨k, k_eq⟩ := Int.le.dest t_le
  rw [show (e - f - t).toNat = k by omega] at core_eq long
  have written : (m : ℚ) * 2 ^ e / (n * 2 ^ f) = (m <<< k : ℕ) / n * 2 ^ t := by
    rw [mul_div_mul_comm, ← zpow_sub₀ two_ne_zero, ← k_eq, zpow_add₀ two_ne_zero, zpow_natCast,
      Nat.shiftLeft_eq]
    push_cast
    ring
  have stands := Stands.fraction (m <<< k) n_pos
  rw [core_eq, written]
  generalize m <<< k / n = q at long stands ⊢
  have bits : -1074 < t → 52 ≤ q.log2 := fun high =>
    (Nat.le_log2 (by have := long high; omega)).mpr (long high)
  show RoundedFrom _ (roundWithAccuracy Format.binary64 s q t _)
  refine roundWithAccuracy_rounded s stands (fun high => ?_) ?_
  · refine Nat.pos_of_ne_zero fun none => high ?_
    subst none
    have low : t ≤ -1074 := not_lt.mp fun h => absurd (long h) (by norm_num)
    rw [place_eq, Nat.log2_zero]
    omega
  · rw [place_eq]
    omega

/-! ### Division -/

/-- A sign over a sign is their product. -/
theorem factor_div (s t : Sign) : factor (s / t) = factor s / factor t := by
  cases s <;> cases t <;> simp [factor] <;> rfl

/-- Division rounds the quotient. -/
theorem div_spec {a b : UnpackedFloat} (ha : a.isFinite = true) (hb : b.isFinite = true)
    (nonzero : amount b ≠ 0) :
    RoundedFrom (amount a / amount b) (UnpackedFloat.div Format.binary64 a b) := by
  cases b with
  | finite t n f n_pos =>
    cases a with
    | finite s m e m_pos =>
      have rounded := divCore_rounded (s / t) m_pos n_pos e f
      rw [factor_div, div_mul_div_comm] at rounded
      exact rounded
    | zero s =>
      rw [show amount (.zero s) = 0 from rfl, zero_div]
      exact .zero _
    | infinity s => cases ha
    | notANumber => cases ha
  | zero t => exact absurd rfl nonzero
  | infinity t => cases hb
  | notANumber => cases hb

/-- What is positive is finite or the upper infinity. -/
theorem finite_or_infinite_of_pos {x : Float} (pos : 0 < x) :
    Scalar.isFinite x = true ∧ 0 < number x ∨ x.toModel.unpack = .infinity .positive := by
  by_cases finite : Scalar.isFinite x = true
  · exact .inl ⟨finite, (Scalar.pos_iff finite).mp pos⟩
  · rw [isFinite_iff] at finite
    rw [lt_iff_unpack] at pos
    cases eq : x.toModel.unpack with
    | infinity s =>
      cases s with
      | negative =>
        rw [eq] at pos
        cases pos
      | positive => exact .inr rfl
    | notANumber =>
      rw [eq] at pos
      cases pos
    | _ => exact absurd (by rw [eq]; rfl) finite

/-- The quotient of a finite double by a positive one is rounded. An infinite divisor counts as
having the quotient zero, which is also what its number gives. -/
theorem quotient_spec {x y : Float} (hx : Scalar.isFinite x = true) (y_pos : 0 < y) :
    Scalar.Rounded number (number x / number y) (Scalar.extend (x / y)) := by
  refine rounded_pack (u := UnpackedFloat.div Format.binary64 x.toModel.unpack y.toModel.unpack) ?_
  have x_finite := (isFinite_iff x).mp hx
  rcases finite_or_infinite_of_pos y_pos with ⟨finite, pos⟩ | infinite
  · exact div_spec x_finite ((isFinite_iff y).mp finite) pos.ne'
  · rw [number, number, infinite, show amount (.infinity .positive) = 0 from rfl, div_zero]
    cases eq : x.toModel.unpack with
    | infinity s =>
      rw [eq] at x_finite
      cases x_finite
    | notANumber =>
      rw [eq] at x_finite
      cases x_finite
    | _ => exact .zero _

variable {x y : Float}

/-- The number of a positive double is not negative; that of the infinity counts as zero. -/
theorem number_nonneg (pos : 0 < x) : 0 ≤ number x := by
  rcases finite_or_infinite_of_pos pos with ⟨-, positive⟩ | infinite
  · exact positive.le
  · rw [number, infinite]
    exact le_rfl

/-- A finite double that is neither negative nor zero is positive. -/
theorem pos_of_nonneg (finite : Scalar.isFinite x = true) (nonneg : ¬x < 0)
    (nonzero : ¬(x == 0) = true) : 0 < x := by
  have compared := compare_number finite (Scalar.Faithful.finite_zero (α := Float))
  have zero : number 0 = 0 := Scalar.Faithful.value_zero (α := Float)
  refine (Scalar.pos_iff finite).mpr (lt_of_le_of_ne ?_ ?_)
  · rw [Scalar.Faithful.lt_iff finite Scalar.Faithful.finite_zero] at nonneg
    exact zero.symm.trans_le (not_lt.mp nonneg)
  · intro same
    refine nonzero ?_
    show (x.toModel.unpack.compare (0 : Float).toModel.unpack == some .eq) = true
    rw [show x.toModel.unpack.compare (0 : Float).toModel.unpack = some .eq from
      compared.trans (congrArg some (compare_eq_iff_eq.mpr (same.symm.trans zero.symm)))]
    rfl

/-- A positive double is not zero. -/
theorem beq_zero_of_pos (pos : 0 < x) : (x == 0) = false := by
  show (x.toModel.unpack.compare (0 : Float).toModel.unpack == some .eq) = false
  rcases finite_or_infinite_of_pos pos with ⟨finite, positive⟩ | infinite
  · have zero : number 0 = 0 := Scalar.Faithful.value_zero (α := Float)
    rw [compare_number finite (Scalar.Faithful.finite_zero (α := Float)), zero,
      compare_gt_iff_gt.mpr positive]
    rfl
  · rw [infinite]
    rfl

/-- Only the upper infinity stands for one. -/
theorem unpack_of_posInf (h : Scalar.extend x = .posInf) :
    x.toModel.unpack = .infinity .positive := by
  rw [extend_eq] at h
  split at h
  next => cases h
  next eq => exact eq
  next => cases h
  next => cases h

/-- What is rounded from a number that is not negative is defined and not negative. -/
theorem nonneg_of_rounded {s : ℚ} (h : Scalar.Rounded number s (Scalar.extend x)) (nonneg : 0 ≤ s) :
    x.isNaN = false ∧ ¬x < 0 := by
  have zero : number 0 = 0 := Scalar.Faithful.value_zero (α := Float)
  rw [Bool.eq_false_iff, Ne, isNaN_iff]
  rcases h.not_below Scalar.Faithful.finite_zero (zero.trans_le nonneg) with
    infinite | ⟨z, eq, finite, le⟩
  · refine ⟨by rw [infinite]; exact nofun, fun less => ?_⟩
    rw [lt_iff_unpack, unpack_of_posInf infinite] at less
    cases less
  · obtain ⟨x_finite, rfl⟩ := Scalar.isFinite_of_extend eq
    refine ⟨by rw [eq]; exact nofun, ?_⟩
    rw [Scalar.Faithful.lt_iff x_finite Scalar.Faithful.finite_zero]
    exact not_lt.mpr le

/-- The number of the least positive double. -/
theorem number_least : Scalar.isFinite (Float.ofBits 1) = true ∧
    number (Float.ofBits 1) = 2 ^ (-1074 : ℤ) := by
  obtain ⟨finite, eq⟩ := number_of_unpack
    (show (Float.ofBits 1).toModel.unpack = .finite .positive 1 (-1074) _ from rfl) rfl
  exact ⟨finite, eq.trans (by simp [amount, factor])⟩

/-- What is rounded from a number more than halfway to the least positive double is positive. -/
theorem pos_of_rounded {s : ℚ} (h : Scalar.Rounded number s (Scalar.extend x))
    (far : 2 ^ (-1075 : ℤ) < s) : 0 < x := by
  have half : (2 : ℚ) ^ (-1074 : ℤ) = 2 * 2 ^ (-1075 : ℤ) := by
    rw [show (-1074 : ℤ) = -1075 + 1 from rfl, zpow_add_one₀ two_ne_zero, mul_comm]
  have zero : number 0 = 0 := Scalar.Faithful.value_zero (α := Float)
  have unit : (0 : ℚ) < 2 ^ (-1075 : ℤ) := place_pos _
  generalize extended : Scalar.extend x = e at h
  cases h with
  | near z finite nearest whole =>
    obtain ⟨x_finite, rfl⟩ := Scalar.isFinite_of_extend extended
    refine (Scalar.pos_iff x_finite).mpr ?_
    show 0 < number z
    by_contra low
    -- The least positive double would be nearer than anything up to zero.
    have close := nearest _ number_least.1
    rw [number_least.2, half, abs_of_neg (by linarith)] at close
    rcases abs_cases (2 * (2 : ℚ) ^ (-1075 : ℤ) - s) with ⟨eq, -⟩ | ⟨eq, -⟩ <;> linarith
  | above beyond =>
    rw [lt_iff_unpack, unpack_of_posInf extended]
    rfl
  | below beyond => linarith [beyond 0 Scalar.Faithful.finite_zero]

/-- The quotient of two positive doubles, the first of them finite, is defined and not negative. -/
theorem quotient_nonneg (hx : Scalar.isFinite x = true) (x_pos : 0 < x) (y_pos : 0 < y) :
    (x / y).isNaN = false ∧ ¬x / y < 0 :=
  nonneg_of_rounded (quotient_spec hx y_pos)
    (div_nonneg (number_nonneg x_pos) (number_nonneg y_pos))

/-- A quotient that lies more than halfway to the least positive double is positive. -/
theorem quotient_pos (hx : Scalar.isFinite x = true) (y_pos : 0 < y)
    (far : 2 ^ (-1075 : ℤ) < number x / number y) : 0 < x / y :=
  pos_of_rounded (quotient_spec hx y_pos) far

end Milp.Double
