import Milp.Number.Duration
import Milp.Proofs.Number.Double

/-!
# Durations of doubles

A double of seconds that is not negative is rounded to the nearest nanosecond, unless it is too large
for a duration (`Duration.ofSeconds?_cases`).
-/

namespace Milp.Duration

open Double (number)

/-- Whether a whole number is the nearest to a fraction, and the even one of two that are. -/
def IsNearest (n : ℕ) (q : ℚ) : Prop := |n - q| ≤ 1 / 2 ∧ (|n - q| = 1 / 2 → Even n)

/-- A whole number is the nearest to itself. -/
theorem isNearest_self (n : ℕ) : IsNearest n n := by
  unfold IsNearest
  norm_num

/-- What a quotient is rounded to is the nearest whole number to it. -/
theorem isNearest_roundHalfEven (num : ℕ) {den : ℕ} (pos : 0 < den) :
    IsNearest (roundHalfEven num den) (num / den) := by
  have den_pos : (0 : ℚ) < den := Nat.cast_pos.mpr pos
  have quotient : (num : ℚ) / den = (num / den : ℕ) + (num % den : ℕ) / den := by
    have division : (den : ℚ) * (num / den : ℕ) + (num % den : ℕ) = num := by
      exact_mod_cast Nat.div_add_mod num den
    rw [← division]
    field_simp
  have rest_nonneg : (0 : ℚ) ≤ (num % den : ℕ) / den := by positivity
  have rest_lt : ((num % den : ℕ) : ℚ) / den < 1 :=
    (div_lt_one den_pos).mpr (Nat.cast_lt.mpr (Nat.mod_lt num pos))
  have below : 2 * (num % den) < den ↔ ((num % den : ℕ) : ℚ) / den < 1 / 2 := by
    rw [div_lt_div_iff₀ den_pos two_pos, one_mul, mul_comm]
    exact_mod_cast Iff.rfl
  have above : den < 2 * (num % den) ↔ (1 / 2 : ℚ) < (num % den : ℕ) / den := by
    rw [div_lt_div_iff₀ two_pos den_pos, one_mul, mul_comm _ (2 : ℚ)]
    exact_mod_cast Iff.rfl
  unfold roundHalfEven IsNearest
  simp only
  rw [quotient]
  -- From here on the rest is any fraction of one, and the cases are its sides of one half.
  generalize ((num % den : ℕ) : ℚ) / den = rest at rest_nonneg rest_lt below above
  have kept : |((num / den : ℕ) : ℚ) - ((num / den : ℕ) + rest)| = rest := by
    rw [sub_add_cancel_left, abs_neg, abs_of_nonneg rest_nonneg]
  have next : |((num / den + 1 : ℕ) : ℚ) - ((num / den : ℕ) + rest)| = 1 - rest := by
    push_cast
    rw [add_sub_add_left_eq_sub, abs_of_pos (sub_pos.mpr rest_lt)]
  split_ifs with low high even
  · rw [kept]
    have := below.mp low
    exact ⟨this.le, fun half => absurd half this.ne⟩
  · rw [next]
    have := above.mp high
    exact ⟨by linarith, fun half => by linarith⟩
  · rw [kept]
    exact ⟨not_lt.mp fun beyond => high (above.mpr beyond), fun _ => Nat.even_iff.mpr even⟩
  · rw [next]
    have := not_lt.mp fun beyond => low (below.mpr beyond)
    exact ⟨by linarith, fun _ => Nat.even_add_one.mpr fun even' => even (Nat.even_iff.mp even')⟩

/-- A number of seconds that is not negative makes the nearest duration, unless there are `2 ^ 64`
seconds or more. -/
theorem ofSeconds?_cases {x : Float} (finite : Scalar.isFinite x = true) (nonneg : 0 ≤ number x) :
    (2 ^ 64 ≤ number x ∧ ofSeconds? x = none) ∨
      ∃ d, number x < 2 ^ 64 ∧ ofSeconds? x = some d ∧
        IsNearest d.nanos (number x * 10 ^ 9) := by
  obtain ⟨negative, m, e, parts, small, number_eq⟩ := Double.exists_parts finite
  have place : (0 : ℚ) < 2 ^ e := zpow_pos two_pos e
  have signed : (negative && m != 0) = false ∧ number x = m * 2 ^ e := by
    cases negative with
    | false => exact ⟨rfl, by rw [number_eq, if_neg Bool.false_ne_true, one_mul]⟩
    | true =>
      rw [number_eq, if_pos rfl, neg_one_mul, neg_nonneg] at nonneg
      obtain rfl : m = 0 := by
        by_contra some
        have : (0 : ℚ) < m := Nat.cast_pos.mpr (Nat.pos_of_ne_zero some)
        exact absurd nonneg (not_le.mpr (mul_pos this place))
      exact ⟨rfl, by rw [number_eq]; simp⟩
  obtain ⟨sign, number_eq⟩ := signed
  unfold ofSeconds?
  simp only [parts, sign, if_neg Bool.false_ne_true, Nat.pow_eq]
  rcases lt_or_ge e 0 with fine | coarse
  · obtain ⟨k, rfl⟩ : ∃ k : ℕ, e = -(k : ℤ) := ⟨(-e).toNat, by omega⟩
    have unit : (1 : ℚ) ≤ 2 ^ k := one_le_pow₀ one_le_two
    rw [zpow_neg, zpow_natCast] at number_eq
    rw [if_pos fine, neg_neg, Int.toNat_natCast]
    refine .inr ⟨_, ?_, rfl, ?_⟩
    · have inverse : ((2 : ℚ) ^ k)⁻¹ ≤ 1 := inv_le_one_of_one_le₀ unit
      have mantissa : (m : ℚ) < 2 ^ 53 := by exact_mod_cast small
      calc number x = m * (2 ^ k)⁻¹ := number_eq
        _ ≤ m := mul_le_of_le_one_right (Nat.cast_nonneg m) inverse
        _ < 2 ^ 64 := mantissa.trans (by norm_num)
    · have nearest := isNearest_roundHalfEven (m * second) (Nat.two_pow_pos k)
      have scaled : ((m * second : ℕ) : ℚ) / (2 ^ k : ℕ) = number x * 10 ^ 9 := by
        rw [number_eq, second]
        push_cast
        ring
      rwa [scaled] at nearest
  · obtain ⟨k, rfl⟩ := Int.eq_ofNat_of_zero_le coarse
    have whole : number x = (m * 2 ^ k : ℕ) := by
      rw [number_eq, zpow_natCast]
      norm_cast
    rw [if_neg (not_lt.mpr coarse), Int.toNat_natCast, whole]
    split_ifs with within
    · refine .inr ⟨_, by exact_mod_cast within, rfl, ?_⟩
      have nearest := isNearest_self (m * 2 ^ k * second)
      rwa [Nat.cast_mul, show (second : ℚ) = 10 ^ 9 by norm_num [second]] at nearest
    · exact .inl ⟨by exact_mod_cast not_lt.mp within, rfl⟩

end Milp.Duration
