import Milp.Proofs.Number.Product
import Milp.Proofs.Random.Sampling

/-!
# Exponential draws

An exponential draw takes a point of a layer: a position times the right end of the layer. Whatever
the words are, a position is at least `2 ^ -53` and a point lies between `2 ^ -57` and `2 ^ 6`
(`Engine.point_ordinary`). Only a draw from the tail of the distribution is computed otherwise, with
the logarithm of a fraction (`Engine.tail?`).

The logarithm is not computed here, and so nothing is known of it. That of a fraction on the grid of
`2 ^ -53` lies between `-37` and zero, unless the fraction is zero; where it does, a draw from the
tail is ordinary as well (`Engine.TailsBounded.ordinary`).
-/

namespace Milp.Random

open Milp.Double (number)

/-- Whether a draw is a positive number, and neither too small nor too large to divide by. -/
structure Ordinary (e : Float) : Prop where
  finite : Scalar.isFinite e = true
  low : 2 ^ (-57 : ℤ) ≤ number e
  high : number e ≤ 2 ^ (6 : ℤ)

/-- The number of an ordinary draw is positive. -/
theorem Ordinary.number_pos {e : Float} (h : Ordinary e) : 0 < number e :=
  (Double.place_pos _).trans_le h.low

/-- An ordinary draw is positive. -/
theorem Ordinary.pos {e : Float} (h : Ordinary e) : 0 < e :=
  (Scalar.pos_iff h.finite).mpr h.number_pos

/-- What is rounded from a number between the limits of an ordinary draw is ordinary. -/
theorem Ordinary.of_rounded {s : ℚ} {e : Float} (h : Scalar.Rounded number s (Scalar.extend e))
    (low : 2 ^ (-57 : ℤ) ≤ s) (high : s ≤ 2 ^ (6 : ℤ)) : Ordinary e := by
  obtain ⟨finite, low', high'⟩ := Double.between_two_zpow h (by norm_num) (by norm_num) low high
  exact ⟨finite, low', high'⟩

namespace Layers

/-- An entry in front of a position is one of the first ones. -/
theorem getD_mem_take {β : Type} (xs : Array β) (d : β) {n i : ℕ} (inside : i < n)
    (le : n ≤ xs.size) : xs.getD i d ∈ xs.toList.take n := by
  rw [Array.getD_eq_getD_getElem?, Array.getElem?_eq_getElem (by omega), Option.getD_some,
    List.mem_take_iff_getElem]
  exact ⟨i, by rw [Array.length_toList]; omega, rfl⟩

/-- The right ends of the layers lie between `2 ^ -4` and `2 ^ 4`. -/
theorem edge_spec {layer : ℕ} (inside : layer < 256) :
    Scalar.isFinite (edge layer) = true ∧ 2 ^ (-4 : ℤ) ≤ number (edge layer) ∧
      number (edge layer) ≤ 2 ^ (4 : ℤ) := by
  have fields : (edgeBits.toList.take 256).all fun bits =>
      1019 ≤ bits.toNat / 2 ^ 52 && bits.toNat / 2 ^ 52 ≤ 1026 := by
    decide +kernel
  have enough : 256 ≤ edgeBits.size := by decide +kernel
  obtain ⟨low, high⟩ : 1019 ≤ (edgeBits.getD layer 0).toNat / 2 ^ 52 ∧
      (edgeBits.getD layer 0).toNat / 2 ^ 52 ≤ 1026 := by
    simpa using List.all_eq_true.mp fields _ (getD_mem_take edgeBits 0 inside enough)
  obtain ⟨finite, above, below⟩ := Double.ofBits_binade
    (rfl : (edgeBits.getD layer 0).toNat / 2 ^ 52 = _) (by omega) (by omega)
  refine ⟨finite, le_trans ?_ above, below.trans ?_⟩
  · exact zpow_le_zpow_right₀ one_le_two (by omega)
  · exact zpow_le_zpow_right₀ one_le_two (by omega)

end Layers

namespace Engine

/-! ### Points of the layers -/

/-- The position in a layer that is chosen by the high bits of a word. -/
def position (bits : UInt64) : Float :=
  Float.ofBits ((0x3FF0000000000000 : UInt64) ||| (bits >>> 12)) -
    (1 - Float.ofBits 0x3CA0000000000000)

/-- The point that a word stands for: in the layer that its low bits choose, at the position that
its high bits do. -/
def point (bits : UInt64) : Float := position bits * Layers.edge (bits % 256).toNat

/-- A position is not smaller than `2 ^ -53`, and not larger than two. -/
theorem position_spec (bits : UInt64) :
    Scalar.isFinite (position bits) = true ∧ 2 ^ (-53 : ℤ) ≤ number (position bits) ∧
      number (position bits) ≤ 2 ^ (1 : ℤ) := by
  have field : ((0x3FF0000000000000 : UInt64) ||| (bits >>> 12)).toNat / 2 ^ 52 = 1023 := by
    have low : bits.toNat >>> 12 < 2 ^ 52 := by
      rw [Nat.shiftRight_eq_div_pow]
      exact Nat.div_lt_of_lt_mul bits.toNat_lt
    have together := Nat.two_pow_add_eq_or_of_lt low 1023
    rw [UInt64.toNat_or, UInt64.toNat_shiftRight]
    show (2 ^ 52 * 1023 ||| bits.toNat >>> 12) / 2 ^ 52 = 1023
    omega
  obtain ⟨a_finite, a_low, a_high⟩ := Double.ofBits_binade field (by norm_num) (by norm_num)
  obtain ⟨c_finite, c_eq⟩ := Double.number_of_unpack
    (show (1 - Float.ofBits 0x3CA0000000000000 : Float).toModel.unpack =
      .finite .positive (2 ^ 53 - 1) (-53) (by norm_num) from rfl) rfl
  have c_number : number (1 - Float.ofBits 0x3CA0000000000000) = 1 - 2 ^ (-53 : ℤ) := by
    rw [c_eq]
    norm_num [Double.amount, Double.factor]
  have rounded : Scalar.Rounded number (number _ - number _) (Scalar.extend (position bits)) :=
    Scalar.Faithful.sub_spec a_finite c_finite
  rw [c_number] at rounded
  have unit : (2 : ℚ) ^ (-53 : ℤ) ≤ 1 := zpow_le_one_of_nonpos₀ one_le_two (by norm_num)
  norm_num only at a_low a_high
  exact Double.between_two_zpow rounded (by norm_num) (by norm_num) (by linarith) (by linarith)

/-- A point of a layer is an ordinary draw. -/
theorem point_ordinary (bits : UInt64) : Ordinary (point bits) := by
  have inside : (bits % 256).toNat < 256 := by
    rw [UInt64.toNat_mod]
    exact Nat.mod_lt _ (by decide)
  obtain ⟨p_finite, p_low, p_high⟩ := position_spec bits
  obtain ⟨e_finite, e_low, e_high⟩ := Layers.edge_spec inside
  have p_pos := (Double.place_pos (-53)).trans_le p_low
  refine .of_rounded (Double.product_spec p_finite e_finite) ?_ ?_
  · rw [show (-57 : ℤ) = -53 + -4 from rfl, zpow_add₀ two_ne_zero]
    exact mul_le_mul p_low e_low (Double.place_pos _).le p_pos.le
  · refine (mul_le_mul p_high e_high ((Double.place_pos _).le.trans e_low)
      (Double.place_pos _).le).trans ?_
    norm_num

/-! ### The tail -/

/-- The fraction that an exponential draw takes the logarithm of, if it comes from the tail. -/
def tailWithin : ℕ → Engine → Option Float
  | 0, _ => none
  | fuel + 1, g =>
    let (bits, g) := g.long
    let layer := (bits % 256).toNat
    let x := point bits
    if x < Layers.edge (layer + 1) then none
    else
      let (u, g) := g.unit
      if layer = 0 then some u
      else
        let lower := Layers.height layer
        let upper := Layers.height (layer + 1)
        if upper + (lower - upper) * u < Float.exp (-x) then none
        else tailWithin fuel g

/-- The fraction for a draw that may be rejected as often as the model allows for. -/
def tail? (g : Engine) : Option Float := tailWithin (Nat.pow 2 32) g

/-- A draw is ordinary unless it comes from the tail, and there it is computed with a logarithm. -/
theorem exponentialWithin_cases (fuel : ℕ) (g : Engine) :
    tailWithin fuel g = none ∧ Ordinary (exponentialWithin fuel g).1 ∨
      ∃ u, tailWithin fuel g = some u ∧
        (exponentialWithin fuel g).1 = Layers.edge 1 - Float.log u := by
  induction fuel generalizing g with
  | zero =>
    obtain ⟨finite, low, high⟩ := Layers.edge_spec (show 1 < 256 by norm_num)
    refine .inl ⟨rfl, finite, le_trans ?_ low, high.trans ?_⟩
    · exact zpow_le_zpow_right₀ one_le_two (by norm_num)
    · exact zpow_le_zpow_right₀ one_le_two (by norm_num)
  | succ fuel ih =>
    have ordinary := point_ordinary g.long.1
    by_cases inside : point g.long.1 < Layers.edge ((g.long.1 % 256).toNat + 1)
    · have drawn : exponentialWithin (fuel + 1) g = (point g.long.1, g.long.2) := if_pos inside
      exact .inl ⟨if_pos inside, by rw [drawn]; exact ordinary⟩
    by_cases base : (g.long.1 % 256).toNat = 0
    · have drawn : exponentialWithin (fuel + 1) g =
          (Layers.edge 1 - Float.log g.long.2.unit.1, g.long.2.unit.2) :=
        (if_neg inside).trans (if_pos base)
      exact .inr ⟨g.long.2.unit.1, (if_neg inside).trans (if_pos base), by rw [drawn]⟩
    by_cases dense : Layers.height ((g.long.1 % 256).toNat + 1) +
        (Layers.height (g.long.1 % 256).toNat - Layers.height ((g.long.1 % 256).toNat + 1)) *
          g.long.2.unit.1 < Float.exp (-point g.long.1)
    · have drawn : exponentialWithin (fuel + 1) g = (point g.long.1, g.long.2.unit.2) :=
        (if_neg inside).trans ((if_neg base).trans (if_pos dense))
      refine .inl ⟨(if_neg inside).trans ((if_neg base).trans (if_pos dense)), ?_⟩
      rw [drawn]
      exact ordinary
    · have rejected : exponentialWithin (fuel + 1) g = exponentialWithin fuel g.long.2.unit.2 :=
        (if_neg inside).trans ((if_neg base).trans (if_neg dense))
      have rejected' : tailWithin (fuel + 1) g = tailWithin fuel g.long.2.unit.2 :=
        (if_neg inside).trans ((if_neg base).trans (if_neg dense))
      rw [rejected, rejected']
      exact ih _

/-- Whether the logarithms that the next `n` exponential draws take are those of positive fractions
on the grid of `2 ^ -53`: numbers between `-37` and zero. -/
def TailsBounded (g : Engine) (n : ℕ) : Prop :=
  ∀ i < n, ∀ u, (after (exponentialScalar : Engine → Float × Engine) i g).tail? = some u →
    Scalar.isFinite (Float.log u) = true ∧ -37 ≤ number (Float.log u) ∧ number (Float.log u) ≤ 0

/-- Where the logarithms are bounded, all draws are ordinary. -/
theorem TailsBounded.ordinary {g : Engine} {n : ℕ} (h : g.TailsBounded n) {i : ℕ} (inside : i < n) :
    Ordinary (after (exponentialScalar : Engine → Float × Engine) i g).exponential.1 := by
  have logs := h i inside
  generalize after (exponentialScalar : Engine → Float × Engine) i g = g' at logs ⊢
  rcases exponentialWithin_cases (Nat.pow 2 32) g' with ⟨-, ordinary⟩ | ⟨u, tail, drawn⟩
  · exact ordinary
  · obtain ⟨log_finite, log_low, log_high⟩ := logs u tail
    obtain ⟨edge_finite, edge_low, edge_high⟩ := Layers.edge_spec (show 1 < 256 by norm_num)
    have rounded : Scalar.Rounded number (number _ - number _)
        (Scalar.extend (Layers.edge 1 - Float.log u)) :=
      Scalar.Faithful.sub_spec edge_finite log_finite
    have drawn' : g'.exponential.1 = Layers.edge 1 - Float.log u := drawn
    rw [drawn']
    have tiny : (2 : ℚ) ^ (-57 : ℤ) ≤ 2 ^ (-4 : ℤ) :=
      zpow_le_zpow_right₀ one_le_two (by norm_num)
    norm_num only at edge_high
    refine .of_rounded rounded (by linarith) ?_
    norm_num only
    linarith

end Engine
end Milp.Random
