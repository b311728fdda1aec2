import Milp.Proofs.Number.Double

/-!
# Products of doubles

Multiplication multiplies the mantissas as integers and rounds once. Of two doubles in their places
one has all its 53 bits, and so has the product then, or both lie at the smallest place. In either
case there is nothing to be shifted up before rounding, and a product is rounded to the nearest
double (`mul_spec`, `product_spec`).
-/

namespace Milp.Double

open Float.Model Float.Model.UnpackedFloat

/-- The product of two doubles in their places does not lie above its place. -/
theorem mul_le_place {s t : Sign} {m n : ℕ} {e f : ℤ} {m_pos : 0 < m} {n_pos : 0 < n}
    (hm : Canonical (.finite s m e m_pos)) (hn : Canonical (.finite t n f n_pos)) :
    e + f ≤ place (m * n) (e + f) := by
  rw [place_eq]
  by_cases full : 2 ^ 52 ≤ m * n
  · have bits : 52 ≤ (m * n).log2 := (Nat.le_log2 (Nat.mul_pos m_pos n_pos).ne').mpr full
    omega
  · have m_short : ¬2 ^ 52 ≤ m := fun long => full (long.trans (Nat.le_mul_of_pos_right m n_pos))
    have n_short : ¬2 ^ 52 ≤ n := fun long => full (long.trans (Nat.le_mul_of_pos_left n m_pos))
    have e_least := hm.2.2.resolve_left m_short
    have f_least := hn.2.2.resolve_left n_short
    omega

/-- A sign times a sign is their product. -/
theorem factor_mul (s t : Sign) : factor (s * t) = factor s * factor t := by
  cases s <;> cases t <;> simp [factor]

/-- Multiplication rounds the product. -/
theorem mul_spec {a b : UnpackedFloat} (ha : a.isFinite = true) (hb : b.isFinite = true)
    (ca : Canonical a) (cb : Canonical b) :
    RoundedFrom (amount a * amount b) (UnpackedFloat.mul Format.binary64 a b) := by
  cases a with
  | infinity => cases ha
  | notANumber => cases ha
  | zero s =>
    rw [show amount (.zero s) = 0 from rfl, zero_mul]
    cases b with
    | infinity => cases hb
    | notANumber => cases hb
    | _ => exact .zero _
  | finite s m e m_pos =>
    cases b with
    | infinity => cases hb
    | notANumber => cases hb
    | zero t =>
      rw [show amount (.zero t) = 0 from rfl, mul_zero]
      exact .zero _
    | finite t n f n_pos =>
      have rounded := roundWithAccuracy_rounded (s * t) (Stands.exact (m * n))
        (fun _ => Nat.mul_pos m_pos n_pos) (mul_le_place ca cb)
      have written : factor (s * t) * ((m * n : ℕ) * 2 ^ (e + f)) =
          amount (.finite s m e m_pos) * amount (.finite t n f n_pos) := by
        rw [amount, amount, factor_mul, zpow_add₀ two_ne_zero]
        push_cast
        ring
      rw [written] at rounded
      exact rounded

/-- The product of two finite doubles is rounded. -/
theorem product_spec {x y : Float} (hx : Scalar.isFinite x = true)
    (hy : Scalar.isFinite y = true) :
    Scalar.Rounded number (number x * number y) (Scalar.extend (x * y)) :=
  rounded_pack (mul_spec ((isFinite_iff x).mp hx) ((isFinite_iff y).mp hy) (canonical_unpack _).1
    (canonical_unpack _).1)

end Milp.Double
