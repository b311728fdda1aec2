import Mathlib
import Milp.Proofs.Number.Exact

/-!
# The nearest double

A double is an integer of at most 53 bits times a power of two, and none of these powers lies below
`2 ^ -1074`. Of all such numbers, however large, rounding finds one with the least distance
(`nearest_round`), and it rounds integers to integers. What lies too far out for a double is a
matter of packing and of no concern here.

The proof follows a mantissa on its way: `Stands em x` says what a mantissa with its two residual
bits knows of the exact value `x`, every shift halves both, and at the target exponent the rounded
mantissa is within one half of it.
-/

namespace Milp.Double

open Float.Model Float.Model.UnpackedFloat

/-! ### Numbers on the grid -/

/-- A sign as a factor. -/
def factor : Sign → ℚ
  | .negative => -1
  | .positive => 1

/-- The number that an unpacked double stands for; zero where it stands for none. -/
def amount : UnpackedFloat → ℚ
  | .finite s m e _ => factor s * (m * 2 ^ e)
  | _ => 0

/-- Whether a number has at most 53 bits, none of them below the smallest place. -/
def OnGrid (c : ℚ) : Prop := ∃ n e : ℤ, |n| < 2 ^ 53 ∧ -1074 ≤ e ∧ c = n * 2 ^ e

/-- Whether no number on the grid is nearer to `s` than `z`. -/
def Nearest (z s : ℚ) : Prop := ∀ c, OnGrid c → |z - s| ≤ |c - s|

/-- Whether a finite unpacked double has the exponent that its size asks for. -/
def Canonical : UnpackedFloat → Prop
  | .finite _ m e _ => m < 2 ^ 53 ∧ -1074 ≤ e ∧ (2 ^ 52 ≤ m ∨ e = -1074)
  | _ => True

/-- Powers of two are positive. -/
theorem place_pos (e : ℤ) : (0 : ℚ) < 2 ^ e := zpow_pos (by norm_num) e

/-- A negated number on the grid is on the grid. -/
theorem OnGrid.neg {c : ℚ} (h : OnGrid c) : OnGrid (-c) := by
  obtain ⟨n, e, small, low, rfl⟩ := h
  exact ⟨-n, e, by rwa [abs_neg], low, by push_cast; ring⟩

/-- The distance is the same from the other side of zero. -/
theorem Nearest.neg {z s : ℚ} (h : Nearest z s) : Nearest (-z) (-s) := by
  intro c hc
  calc |-z - -s| = |z - s| := by rw [← abs_neg (z - s)]; congr 1; ring
    _ ≤ |-c - s| := h (-c) hc.neg
    _ = |c - -s| := by rw [← abs_neg (-c - s)]; congr 1; ring

/-- A number on the grid is its own nearest one. -/
theorem Nearest.eq {z s : ℚ} (h : Nearest z s) (hs : OnGrid s) : z = s := by
  have none : |z - s| ≤ 0 := by simpa using h s hs
  exact sub_eq_zero.mp (abs_nonpos_iff.mp none)

/-- A finite unpacked double in its place stands for a number on the grid. -/
theorem Canonical.onGrid {u : UnpackedFloat} (h : Canonical u) : OnGrid (amount u) := by
  cases u with
  | finite s m e pos =>
    obtain ⟨small, low, -⟩ := h
    have bound : |(m : ℤ)| < 2 ^ 53 := by rw [abs_of_nonneg (by positivity)]; exact_mod_cast small
    cases s with
    | negative =>
      exact ⟨-m, e, by rwa [abs_neg], low, by simp [amount, factor]⟩
    | positive => exact ⟨m, e, bound, low, by simp [amount, factor]⟩
  | _ => exact ⟨0, 0, by norm_num, by norm_num, by simp [amount]⟩

/-! ### Mantissas on their way -/

/-- What a mantissa with a round and a sticky bit knows of the exact value. -/
def Stands (em : ExtendedMantissa) (x : ℚ) : Prop :=
  match em.roundBit, em.stickyBit with
  | false, false => x = em.mantissa
  | false, true => em.mantissa < x ∧ x < em.mantissa + 1 / 2
  | true, false => x = em.mantissa + 1 / 2
  | true, true => em.mantissa + 1 / 2 < x ∧ x < em.mantissa + 1

namespace Stands

variable {em : ExtendedMantissa} {x : ℚ}

/-- At first the mantissa is exact. -/
theorem exact (m : ℕ) : Stands (.ofMantissaAndAccuracy m .exact) m := rfl

/-- What rounds to a mantissa and an accuracy was cut off to the mantissa. -/
theorem cut_off {m : ℕ} {acc : Accuracy} (h : Stands (.ofMantissaAndAccuracy m acc) x) :
    m ≤ x ∧ x < m + 1 := by
  cases acc with
  | exact =>
    have eq : x = m := h
    constructor <;> linarith
  | inexact o =>
    cases o with
    | lt =>
      obtain ⟨low, high⟩ : (m : ℚ) < x ∧ x < m + 1 / 2 := h
      constructor <;> linarith
    | eq =>
      have eq : x = m + 1 / 2 := h
      constructor <;> linarith
    | gt =>
      obtain ⟨low, high⟩ : (m : ℚ) + 1 / 2 < x ∧ x < m + 1 := h
      constructor <;> linarith

/-- A shift by one place halves the exact value. -/
theorem shiftRightOne (h : Stands em x) : Stands em.shiftRightOne (x / 2) := by
  obtain ⟨m, r, t⟩ := em
  have parity : m % 2 = 0 ∨ m % 2 = 1 := Nat.mod_two_eq_zero_or_one m
  have halves : ((m % 2 : ℕ) : ℚ) + 2 * ((m / 2 : ℕ) : ℚ) = m := by
    exact_mod_cast Nat.mod_add_div m 2
  rcases parity with even | odd
  · rw [even] at halves
    cases r <;> cases t <;> simp [Stands, ExtendedMantissa.shiftRightOne, even] at h halves ⊢ <;>
      first | linarith | (constructor <;> linarith)
  · rw [odd] at halves
    cases r <;> cases t <;> simp [Stands, ExtendedMantissa.shiftRightOne, odd] at h halves ⊢ <;>
      first | linarith | (constructor <;> linarith)

/-- A shift by `k` places divides the exact value by `2 ^ k`. -/
theorem shiftRight (h : Stands em x) (k : ℕ) : Stands (em >>> k) (x / 2 ^ k) := by
  show Stands (k.repeat ExtendedMantissa.shiftRightOne em) (x / 2 ^ k)
  induction k with
  | zero => simpa [Nat.repeat] using h
  | succ k ih =>
    rw [Nat.repeat, pow_succ, ← div_div]
    exact ih.shiftRightOne

/-- The rounded mantissa is within one half of the exact value. -/
theorem near_rounded (h : Stands em x) : |(em.roundedMantissa : ℚ) - x| ≤ 1 / 2 := by
  obtain ⟨m, r, t⟩ := em
  have parity : m % 2 = 0 ∨ m % 2 = 1 := Nat.mod_two_eq_zero_or_one m
  rw [abs_le]
  cases r <;> cases t <;>
    simp only [Stands, ExtendedMantissa.roundedMantissa, ExtendedMantissa.accuracy,
      Accuracy.roundToNearestEven] at h ⊢
  · constructor <;> linarith
  · constructor <;> linarith
  · rcases parity with even | odd
    · rw [even]
      constructor <;> push_cast <;> linarith
    · rw [odd]
      constructor <;> push_cast <;> linarith
  · constructor <;> push_cast <;> linarith

end Stands

/-- What is within one half of an integer is nearer to no other one. -/
theorem near_integer {q : ℤ} {x : ℚ} (h : |(q : ℚ) - x| ≤ 1 / 2) (n : ℤ) :
    |(q : ℚ) - x| ≤ |(n : ℚ) - x| := by
  rcases eq_or_ne n q with rfl | other
  · exact le_rfl
  · have apart : (1 : ℚ) ≤ |(n : ℚ) - q| := by
      exact_mod_cast Int.one_le_abs (sub_ne_zero.mpr other)
    have split : |(n : ℚ) - q| ≤ |(n : ℚ) - x| + |(q : ℚ) - x| := by
      rw [abs_sub_comm (q : ℚ) x]
      exact abs_sub_le _ _ _
    linarith

/-! ### The exponent that a number asks for -/

/-- The exponent that rounding gives to a mantissa and an exponent. -/
def place (m : ℕ) (e : ℤ) : ℤ := Format.binary64.targetExponent (totalExponent m e)

/-- The exponent leaves 53 bits, unless that goes below the smallest place. -/
theorem place_eq (m : ℕ) (e : ℤ) : place m e = max (m.log2 + 1 + e - 53) (-1074) := rfl

/-- No exponent lies below the smallest place. -/
theorem low_le_place (m : ℕ) (e : ℤ) : -1074 ≤ place m e := le_max_right _ _

/-- Zeros at the end of a mantissa count as bits. -/
theorem log2_shift {m : ℕ} (pos : 0 < m) (k : ℕ) : (m <<< k).log2 = m.log2 + k := by
  rw [Nat.shiftLeft_eq, Nat.log2_eq_iff (by positivity)]
  constructor
  · rw [pow_add]
    exact Nat.mul_le_mul_right _ (Nat.log2_self_le pos.ne')
  · rw [show m.log2 + k + 1 = m.log2 + 1 + k by ring, pow_add]
    exact (Nat.mul_lt_mul_right (by positivity)).mpr Nat.lt_log2_self

/-- The place of a number does not depend on how it is written. -/
theorem place_shift {m : ℕ} (pos : 0 < m) (e : ℤ) (k : ℕ) :
    place (m <<< k) (e - k) = place m e := by
  rw [place_eq, place_eq, log2_shift pos]
  congr 1
  push_cast
  ring

/-- In units of its place a number has at most 53 bits, also if its mantissa has been cut off. -/
theorem lt_of_place {m : ℕ} {x : ℚ} (below : x < m + 1) (e : ℤ) :
    x * 2 ^ e < 2 ^ 53 * 2 ^ place m e := by
  have top : (m : ℚ) + 1 ≤ 2 ^ (m.log2 + 1) := by exact_mod_cast Nat.lt_log2_self
  calc x * 2 ^ e < 2 ^ (m.log2 + 1) * 2 ^ e :=
        mul_lt_mul_of_pos_right (below.trans_le top) (place_pos e)
    _ = 2 ^ ((m.log2 + 1 + e - 53 : ℤ) + 53) := by
        rw [← zpow_natCast, ← zpow_add₀ two_ne_zero]
        congr 1
        push_cast
        ring
    _ ≤ 2 ^ (place m e + 53) :=
        zpow_le_zpow_right₀ one_le_two (by rw [place_eq]; exact Int.add_le_add_right (le_max_left _ _) _)
    _ = 2 ^ 53 * 2 ^ place m e := by rw [zpow_add₀ two_ne_zero, mul_comm]; rfl

/-- In units of its place a number has 53 bits, unless that is the smallest place. -/
theorem le_of_place {m : ℕ} (pos : 0 < m) {e : ℤ} (high : place m e ≠ -1074) :
    2 ^ 52 * 2 ^ place m e ≤ (m : ℚ) * 2 ^ e := by
  have top : (2 : ℚ) ^ m.log2 ≤ m := by exact_mod_cast Nat.log2_self_le pos.ne'
  have exponent : place m e = m.log2 + 1 + e - 53 := by
    rw [place_eq] at high ⊢
    exact max_eq_left (by omega)
  calc (2 : ℚ) ^ 52 * 2 ^ place m e = 2 ^ m.log2 * 2 ^ e := by
        rw [exponent, ← zpow_natCast, ← zpow_natCast, ← zpow_add₀ two_ne_zero,
          ← zpow_add₀ two_ne_zero]
        congr 1
        push_cast
        ring
    _ ≤ (m : ℚ) * 2 ^ e := mul_le_mul_of_nonneg_right top (place_pos e).le

/-- At the place of `s` the nearest integer gives the nearest number on the grid. Numbers at a
smaller place do not reach `2 ^ 52` units, and `s` does. -/
theorem nearest_of_units {m : ℕ} {e : ℤ} (pos : place m e ≠ -1074 → 0 < m) {x : ℚ} (above : m ≤ x)
    {q : ℕ} (near : |(q : ℚ) - x * 2 ^ e / 2 ^ place m e| ≤ 1 / 2) :
    Nearest (q * 2 ^ place m e) (x * 2 ^ e) := by
  have unit := place_pos (place m e)
  have scaled : ∀ y : ℚ, |y * 2 ^ place m e - x * 2 ^ e| =
      |y - x * 2 ^ e / 2 ^ place m e| * 2 ^ place m e := by
    intro y
    rw [← abs_of_pos unit, ← abs_mul, abs_of_pos unit, sub_mul, div_mul_cancel₀ _ unit.ne']
  have units : ∀ n : ℤ, |(q : ℚ) * 2 ^ place m e - x * 2 ^ e| ≤
      |(n : ℚ) * 2 ^ place m e - x * 2 ^ e| := by
    intro n
    rw [scaled, scaled]
    exact mul_le_mul_of_nonneg_right (near_integer (q := q) (by rwa [Int.cast_natCast]) n) unit.le
  rintro c ⟨n, f, small, low, rfl⟩
  rcases le_or_gt (place m e) f with coarse | fine
  · obtain ⟨k, rfl⟩ := Int.le.dest coarse
    have whole : (n : ℚ) * 2 ^ (place m e + k) = ((n * 2 ^ k : ℤ) : ℚ) * 2 ^ place m e := by
      rw [zpow_add₀ two_ne_zero, zpow_natCast]
      push_cast
      ring
    rw [whole]
    exact units _
  · have high : place m e ≠ -1074 := by omega
    have reached : 2 ^ 52 * 2 ^ place m e ≤ x * 2 ^ e :=
      (le_of_place (pos high) high).trans (mul_le_mul_of_nonneg_right above (place_pos e).le)
    have short : (n : ℚ) * 2 ^ f ≤ 2 ^ 52 * 2 ^ place m e := by
      have bound : (n : ℚ) ≤ 2 ^ 53 := by exact_mod_cast ((le_abs_self n).trans small.le)
      calc (n : ℚ) * 2 ^ f ≤ 2 ^ 53 * 2 ^ f := mul_le_mul_of_nonneg_right bound (place_pos f).le
        _ = 2 ^ 52 * 2 ^ (f + 1) := by rw [zpow_add_one₀ two_ne_zero]; ring
        _ ≤ 2 ^ 52 * 2 ^ place m e :=
          mul_le_mul_of_nonneg_left (zpow_le_zpow_right₀ one_le_two fine) (by positivity)
    calc |(q : ℚ) * 2 ^ place m e - x * 2 ^ e|
        ≤ |((2 ^ 52 : ℤ) : ℚ) * 2 ^ place m e - x * 2 ^ e| := units _
      _ = x * 2 ^ e - 2 ^ 52 * 2 ^ place m e := by
          rw [Int.cast_pow, Int.cast_ofNat, abs_sub_comm, abs_of_nonneg (by linarith)]
      _ ≤ x * 2 ^ e - n * 2 ^ f := by linarith
      _ = |(n : ℚ) * 2 ^ f - x * 2 ^ e| := by rw [abs_sub_comm, abs_of_nonneg (by linarith)]

/-- At the place of an integer the nearest integer gives an integer. -/
theorem whole_of_units {m : ℕ} {e : ℤ} {x : ℚ} {q : ℕ}
    (near : |(q : ℚ) - x * 2 ^ e / 2 ^ place m e| ≤ 1 / 2) (whole : Whole (x * 2 ^ e)) :
    Whole (q * 2 ^ place m e) := by
  rcases le_or_gt 0 (place m e) with coarse | fine
  · obtain ⟨k, place_eq⟩ := Int.eq_ofNat_of_zero_le coarse
    rw [place_eq, zpow_natCast]
    exact ⟨q * 2 ^ k, by push_cast; rfl⟩
  · -- Below the units an integer is a whole number of places, so that nothing is rounded.
    obtain ⟨n, n_eq⟩ := whole
    obtain ⟨k, neg_eq⟩ := Int.eq_ofNat_of_zero_le (neg_nonneg.mpr fine.le)
    have unit : (2 : ℚ) ^ place m e = (2 ^ k)⁻¹ := by
      rw [← neg_neg (place m e), neg_eq, zpow_neg, zpow_natCast]
    have exact : (q : ℚ) = n * 2 ^ k := by
      rw [n_eq, unit, div_inv_eq_mul] at near
      have self := near_integer (q := q) (x := n * 2 ^ k) (by rwa [Int.cast_natCast]) (n * 2 ^ k)
      push_cast at self
      rw [sub_self, abs_zero] at self
      exact sub_eq_zero.mp (abs_nonpos_iff.mp self)
    exact ⟨n, by rw [exact, unit]; field_simp⟩

/-! ### Rounding -/

/-- A mantissa that rounding has filled up to the 54th bit is shifted once more; every other one
stays. -/
theorem carry {q : ℕ} {t : ℤ} (small : q ≤ 2 ^ 53) (low : -1074 ≤ t)
    (full : 2 ^ 52 ≤ q ∨ t = -1074) :
    ∃ (m : ℕ) (e : ℤ),
      shiftToTargetExponent Format.binary64 q t .exact = (⟨m, false, false⟩, e) ∧
      m < 2 ^ 53 ∧ -1074 ≤ e ∧ (2 ^ 52 ≤ m ∨ e = -1074) ∧ (m : ℚ) * 2 ^ e = q * 2 ^ t := by
  have shifted : ∀ k : ℕ, (place q t - t).toNat = k →
      shiftToTargetExponent Format.binary64 q t .exact =
        (k.repeat ExtendedMantissa.shiftRightOne ⟨q, false, false⟩, t + k) := by
    rintro k rfl
    rfl
  rcases small.lt_or_eq with less | rfl
  · have stays : (place q t - t).toNat = 0 := by
      have bits : q.log2 ≤ 52 := by
        rcases Nat.eq_zero_or_pos q with rfl | pos
        · decide
        · exact Nat.lt_succ_iff.mp ((Nat.log2_lt pos.ne').mpr less)
      rw [place_eq]
      omega
    exact ⟨q, t, by simpa [Nat.repeat] using shifted 0 stays, less, low, full, rfl⟩
  · have moves : (place (2 ^ 53) t - t).toNat = 1 := by
      rw [place_eq, Nat.log2_two_pow]
      omega
    refine ⟨2 ^ 52, t + 1, (shifted 1 moves).trans rfl, by norm_num, by omega, .inl le_rfl, ?_⟩
    rw [zpow_add_one₀ two_ne_zero]
    push_cast
    ring

/-- A mantissa at or below its place is rounded to an integer of units of that place: to one next to
the exact value that it stands for. -/
theorem roundWithAccuracy_units (s : Sign) {m : ℕ} {e : ℤ} {acc : Accuracy} {x : ℚ}
    (stands : Stands (.ofMantissaAndAccuracy m acc) x) (pos : place m e ≠ -1074 → 0 < m)
    (below : e ≤ place m e) :
    ∃ q : ℕ, |(q : ℚ) - x * 2 ^ e / 2 ^ place m e| ≤ 1 / 2 ∧
      (roundWithAccuracy Format.binary64 s m e acc).isFinite = true ∧
      Canonical (roundWithAccuracy Format.binary64 s m e acc) ∧
      amount (roundWithAccuracy Format.binary64 s m e acc) =
        factor s * (q * 2 ^ place m e) := by
  have unit := place_pos (place m e)
  obtain ⟨above, less⟩ := stands.cut_off
  obtain ⟨k, k_eq⟩ := Int.le.dest below
  have first : shiftToTargetExponent Format.binary64 m e acc =
      (ExtendedMantissa.ofMantissaAndAccuracy m acc >>> k, place m e) := by
    have unfolded : shiftToTargetExponent Format.binary64 m e acc =
        (ExtendedMantissa.ofMantissaAndAccuracy m acc >>> (place m e - e).toNat,
          e + (place m e - e).toNat) := rfl
    rw [unfolded, show (place m e - e).toNat = k by omega, k_eq]
  have exact_eq : x * 2 ^ e / 2 ^ place m e = x / 2 ^ k := by
    rw [div_eq_div_iff unit.ne' (by positivity), ← k_eq, zpow_add₀ two_ne_zero, zpow_natCast]
    ring
  generalize em_eq : ExtendedMantissa.ofMantissaAndAccuracy m acc >>> k = em at first
  have near : |(em.roundedMantissa : ℚ) - x * 2 ^ e / 2 ^ place m e| ≤ 1 / 2 := by
    rw [exact_eq, ← em_eq]
    exact (stands.shiftRight k).near_rounded
  have small : em.roundedMantissa ≤ 2 ^ 53 := by
    have short : x * 2 ^ e / 2 ^ place m e < 2 ^ 53 := (div_lt_iff₀ unit).mpr (lt_of_place less e)
    have less : (em.roundedMantissa : ℚ) < ((2 ^ 53 + 1 : ℕ) : ℚ) := by
      push_cast
      linarith [(abs_le.mp near).2]
    exact Nat.lt_succ_iff.mp (by exact_mod_cast less)
  have full : 2 ^ 52 ≤ em.roundedMantissa ∨ place m e = -1074 := by
    by_cases lowest : place m e = -1074
    · exact .inr lowest
    · have long : (2 : ℚ) ^ 52 ≤ x * 2 ^ e / 2 ^ place m e :=
        (le_div_iff₀ unit).mpr ((le_of_place (pos lowest) lowest).trans
          (mul_le_mul_of_nonneg_right above (place_pos e).le))
      have more : ((2 ^ 52 : ℕ) : ℚ) < (em.roundedMantissa + 1 : ℕ) := by
        push_cast
        linarith [(abs_le.mp near).1]
      exact .inl (Nat.lt_succ_iff.mp (by exact_mod_cast more))
  obtain ⟨n, f, second, n_small, f_low, n_full, amount_eq⟩ := carry small (low_le_place m e) full
  refine ⟨em.roundedMantissa, near, ?_⟩
  simp only [roundWithAccuracy, first, second]
  split
  next zero =>
    have none : em.roundedMantissa * (2 : ℚ) ^ place m e = 0 := by
      rw [← amount_eq, show n = 0 from zero]
      simp
    exact ⟨rfl, trivial, by rw [none, mul_zero]; rfl⟩
  next => exact ⟨rfl, ⟨n_small, f_low, n_full⟩, by rw [← amount_eq]; rfl⟩

/-- Whether an unpacked double is what rounding makes of a number: it is finite and in its place,
nothing on the grid is nearer, and it is an integer if the number is one. -/
structure RoundedFrom (s : ℚ) (u : UnpackedFloat) : Prop where
  finite : u.isFinite = true
  canonical : Canonical u
  nearest : Nearest (amount u) s
  whole : Whole s → Whole (amount u)

/-- A sign takes integers to integers. -/
theorem whole_factor (s : Sign) {c : ℚ} (whole : Whole c) : Whole (factor s * c) := by
  obtain ⟨n, rfl⟩ := whole
  cases s with
  | negative => exact ⟨-n, by simp [factor]⟩
  | positive => exact ⟨n, by simp [factor]⟩

/-- A sign twice is none. -/
theorem factor_factor (s : Sign) (c : ℚ) : factor s * (factor s * c) = c := by
  cases s <;> simp [factor]

/-- A mantissa at or below its place is rounded to the nearest double of what it stands for. -/
theorem roundWithAccuracy_rounded (s : Sign) {m : ℕ} {e : ℤ} {acc : Accuracy} {x : ℚ}
    (stands : Stands (.ofMantissaAndAccuracy m acc) x) (pos : place m e ≠ -1074 → 0 < m)
    (below : e ≤ place m e) :
    RoundedFrom (factor s * (x * 2 ^ e)) (roundWithAccuracy Format.binary64 s m e acc) := by
  obtain ⟨q, near, finite, canonical, amount_eq⟩ := roundWithAccuracy_units s stands pos below
  refine ⟨finite, canonical, ?_, fun whole => ?_⟩
  · have nearest := nearest_of_units pos stands.cut_off.1 near
    rw [amount_eq]
    cases s with
    | negative => simpa [factor] using nearest.neg
    | positive => simpa [factor] using nearest
  · rw [amount_eq]
    refine whole_factor s (whole_of_units near ?_)
    rw [← factor_factor s (x * 2 ^ e)]
    exact whole_factor s whole

/-- What rounding a positive mantissa with a sign gives. -/
theorem round_spec (s : Sign) {m : ℕ} (pos : 0 < m) (e : ℤ) :
    (round Format.binary64 s m e).isFinite = true ∧ Canonical (round Format.binary64 s m e) ∧
      Nearest (amount (round Format.binary64 s m e)) (factor s * (m * 2 ^ e)) ∧
      (Whole (m * 2 ^ e) → Whole (amount (round Format.binary64 s m e))) := by
  generalize k_eq : (e - place m e).toNat = k
  have below : e - k ≤ place (m <<< k) (e - k) := by
    rw [place_shift pos]
    omega
  have written : ((m <<< k : ℕ) : ℚ) * 2 ^ (e - k) = m * 2 ^ e := by
    rw [Nat.shiftLeft_eq, zpow_sub₀ two_ne_zero, zpow_natCast]
    push_cast
    field_simp
  have shifted : 0 < m <<< k := by
    rw [Nat.shiftLeft_eq]
    positivity
  have unfolded : round Format.binary64 s m e =
      roundWithAccuracy Format.binary64 s (m <<< k) (e - k) .exact := by
    rw [← k_eq]
    rfl
  obtain ⟨finite, canonical, nearest, whole⟩ :=
    roundWithAccuracy_rounded s (.exact (m <<< k)) (fun _ => shifted) below
  rw [written] at nearest whole
  rw [unfolded]
  exact ⟨finite, canonical, nearest, fun h => whole (whole_factor s h)⟩

/-- What is on the grid already is rounded to itself. -/
theorem RoundedFrom.refl {u : UnpackedFloat} (finite : u.isFinite = true) (canonical : Canonical u) :
    RoundedFrom (amount u) u where
  finite := finite
  canonical := canonical
  nearest := fun c _ => by
    rw [sub_self, abs_zero]
    exact abs_nonneg _
  whole := id

/-- Zero is rounded to a zero of either sign. -/
theorem RoundedFrom.zero (s : Sign) : RoundedFrom 0 (.zero s) :=
  .refl (u := .zero s) rfl trivial

/-- An integer times a power of two is rounded to the nearest double. -/
theorem normalize_spec (n e : ℤ) (zeroSign : Sign) :
    RoundedFrom (n * 2 ^ e) (UnpackedFloat.normalize Format.binary64 n e zeroSign) := by
  rcases lt_trichotomy n 0 with neg | rfl | pos
  · obtain ⟨k, rfl⟩ : ∃ k : ℕ, n = -k := ⟨n.natAbs, by omega⟩
    have shape : UnpackedFloat.normalize Format.binary64 (-k : ℤ) e zeroSign =
        round Format.binary64 .negative k e := by
      simp [UnpackedFloat.normalize, Int.compare_eq_lt.mpr neg]
    obtain ⟨finite, canonical, nearest, whole⟩ := round_spec .negative (show 0 < k by omega) e
    rw [shape, show (((-k : ℤ) : ℚ) * 2 ^ e) = factor .negative * (k * 2 ^ e) by simp [factor]]
    refine ⟨finite, canonical, nearest, fun ⟨j, j_eq⟩ => whole ⟨-j, ?_⟩⟩
    rw [Int.cast_neg, ← j_eq, factor]
    ring
  · rw [Int.cast_zero, zero_mul]
    exact .zero zeroSign
  · obtain ⟨k, rfl⟩ := Int.eq_ofNat_of_zero_le pos.le
    have shape : UnpackedFloat.normalize Format.binary64 (k : ℤ) e zeroSign =
        round Format.binary64 .positive k e := by
      simp [UnpackedFloat.normalize, Int.compare_eq_gt.mpr pos]
    obtain ⟨finite, canonical, nearest, whole⟩ := round_spec .positive (show 0 < k by omega) e
    rw [shape]
    exact ⟨finite, canonical, by simpa [factor] using nearest, by simpa using whole⟩

/-! ### Sums and differences -/

/-- A mantissa that is written at a smaller exponent stands for the same number. -/
theorem decreaseExponent_spec (m : ℕ) {e f : ℤ} (le : f ≤ e) :
    ((decreaseExponent m e f).1 : ℚ) * 2 ^ f = m * 2 ^ e := by
  obtain ⟨k, rfl⟩ := Int.le.dest le
  rw [decreaseExponent, show (f + k - f).toNat = k by omega, Nat.shiftLeft_eq,
    zpow_add₀ two_ne_zero, zpow_natCast]
  push_cast
  ring

/-- A sign applied to an integer is a factor. -/
theorem apply_eq (s : Sign) (n : ℤ) : ((s.apply n : ℤ) : ℚ) = factor s * n := by
  cases s <;> simp [Sign.apply, factor]

/-- Addition rounds the sum. -/
theorem add_spec {a b : UnpackedFloat} (ha : a.isFinite = true) (hb : b.isFinite = true)
    (ca : Canonical a) (cb : Canonical b) :
    RoundedFrom (amount a + amount b) (UnpackedFloat.add Format.binary64 a b) := by
  cases a with
  | infinity => cases ha
  | notANumber => cases ha
  | zero s =>
    rw [show amount (.zero s) = 0 from rfl, zero_add]
    cases b with
    | infinity => cases hb
    | notANumber => cases hb
    | zero t =>
      rw [UnpackedFloat.add]
      split <;> exact .zero _
    | finite t n f pos => exact .refl rfl cb
  | finite s m e pos =>
    cases b with
    | infinity => cases hb
    | notANumber => cases hb
    | zero t =>
      rw [show amount (.zero t) = 0 from rfl, add_zero]
      exact .refl rfl ca
    | finite t n f pos' =>
      have total := normalize_spec (s.apply (decreaseExponent m e (min e f)).1 +
        t.apply (decreaseExponent n f (min e f)).1) (min e f) .positive
      rw [Int.cast_add, apply_eq, apply_eq, Int.cast_natCast, Int.cast_natCast, add_mul, mul_assoc,
        mul_assoc, decreaseExponent_spec m (min_le_left e f),
        decreaseExponent_spec n (min_le_right e f)] at total
      exact total

/-- A turned sign turns the factor. -/
theorem factor_neg (s : Sign) : factor (-s) = -factor s := by
  cases s
  · exact (neg_neg (1 : ℚ)).symm
  · rfl

/-- A turned sign turns the number. -/
theorem amount_neg (u : UnpackedFloat) : amount u.neg = -amount u := by
  cases u with
  | finite t n f pos => rw [UnpackedFloat.neg, amount, amount, factor_neg, neg_mul]
  | _ => exact neg_zero.symm

/-- To subtract a finite double is to add it with its sign turned. -/
theorem sub_eq_add {b : UnpackedFloat} (hb : b.isFinite = true) (a : UnpackedFloat) :
    UnpackedFloat.sub Format.binary64 a b = UnpackedFloat.add Format.binary64 a b.neg := by
  cases b with
  | infinity => cases hb
  | notANumber => cases hb
  | zero t => cases a <;> rfl
  | finite t n f pos =>
    cases a with
    | finite s m e pos' =>
      have turned : ∀ k : ℤ, (-t).apply k = -t.apply k := by
        intro k
        cases t
        · exact (neg_neg k).symm
        · rfl
      simp only [UnpackedFloat.sub, UnpackedFloat.add, UnpackedFloat.neg, turned]
      rfl
    | _ => rfl

/-- Subtraction rounds the difference. -/
theorem sub_spec {a b : UnpackedFloat} (ha : a.isFinite = true) (hb : b.isFinite = true)
    (ca : Canonical a) (cb : Canonical b) :
    RoundedFrom (amount a - amount b) (UnpackedFloat.sub Format.binary64 a b) := by
  rw [sub_eq_add hb, sub_eq_add_neg, ← amount_neg]
  exact add_spec ha (by cases b <;> exact hb) ca (by cases b <;> exact cb)

end Milp.Double
