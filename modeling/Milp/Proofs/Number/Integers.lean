import Milp.Proofs.Number.Product

/-!
# Integers as doubles and back

An integer becomes the double nearest to it (`ofInt_spec`): a magnitude below `2 ^ 53` is rounded
and then multiplied by one, a larger one is rounded once. So the integers below `2 ^ 53` are kept
as they are (`ofInt_exact`). The way back is `Number.wholeBelow?`, which reads the number of a
double where that is an integer below the given bound (`wholeBelow?_eq_some_iff`).
-/

namespace Milp.Double

open Float.Model Float.Model.UnpackedFloat

/-! ### Rounding -/

/-- A positive mantissa at an exponent that is not too high for it is rounded to the nearest
double. -/
theorem roundWithAccuracy_spec {m : ℕ} (pos : 0 < m) {e : ℤ} (below : e ≤ place m e) :
    RoundedFrom (m * 2 ^ e) (roundWithAccuracy Format.binary64 .positive m e .exact) := by
  have rounded := roundWithAccuracy_rounded .positive (Stands.exact m) (fun _ => pos) below
  rwa [factor, one_mul] at rounded

/-- To turn the sign of what is rounded is to turn the sign of the outcome. -/
theorem RoundedFrom.neg {s : ℚ} {u : UnpackedFloat} (h : RoundedFrom s u) :
    RoundedFrom (-s) u.neg where
  finite := by cases u <;> exact h.finite
  canonical := by cases u <;> exact h.canonical
  nearest := by
    rw [amount_neg]
    exact h.nearest.neg
  whole := by
    rintro ⟨n, n_eq⟩
    obtain ⟨k, k_eq⟩ := h.whole ⟨-n, by rw [Int.cast_neg, ← n_eq, neg_neg]⟩
    exact ⟨-k, by rw [amount_neg, k_eq, Int.cast_neg]⟩

/-- What is rounded from a number in the range of 64 bits is not too large to be stored. -/
theorem RoundedFrom.fits {s : ℚ} {u : UnpackedFloat} (h : RoundedFrom s u) (small : |s| ≤ 2 ^ 64) :
    Fits u := by
  have close := h.nearest 0 ⟨0, 0, by norm_num, by norm_num, by norm_num⟩
  rw [zero_sub, abs_neg] at close
  cases u with
  | finite t m e pos =>
    by_contra large
    have far := large_of_not_fits h.canonical large
    have limit : (8192 : ℚ) ≤ 2 ^ (971 : ℤ) := by
      calc (8192 : ℚ) = 2 ^ (13 : ℤ) := by norm_num
        _ ≤ 2 ^ (971 : ℤ) := zpow_le_zpow_right₀ one_le_two (by norm_num)
    have apart := abs_sub_abs_le_abs_sub (amount (.finite t m e pos)) s
    rw [abs_amount] at apart
    generalize (2 : ℚ) ^ (971 : ℤ) = p at far limit
    linarith
  | _ => trivial

/-! ### Integers become doubles -/

/-- One, as the power of ten that a small natural number is multiplied by. -/
theorem unpack_tenth_power :
    (Float.exactlyRepresentablePowersOfTen[0]).toModel.unpack =
      .finite .positive (2 ^ 52) (-52) (by norm_num) := rfl

/-- One is in its place. -/
theorem canonical_one : Canonical (.finite .positive (2 ^ 52) (-52) (by norm_num)) :=
  ⟨by norm_num, by norm_num, .inl le_rfl⟩

/-- What a natural number in the range of 64 bits becomes before it is stored. -/
theorem ofNat_spec {n : ℕ} (small : n ≤ 2 ^ 63) :
    ∃ u, (Float.ofNat n).toModel = .pack u ∧ RoundedFrom n u := by
  by_cases below : n < 2 ^ 53
  · have rounded := normalize_spec n 0 .positive
    rw [zpow_zero, mul_one, Int.cast_natCast] at rounded
    have same : amount (normalize Format.binary64 n 0 .positive) = n :=
      rounded.nearest.eq ⟨n, 0, by simpa using below, by norm_num, by simp⟩
    have fits := rounded.fits (by rw [Nat.abs_cast]; exact_mod_cast small.trans (by norm_num))
    have stored := unpack_pack rounded.finite rounded.canonical fits
    have final := mul_spec rounded.finite rfl rounded.canonical canonical_one
    have one : amount (.finite .positive (2 ^ 52) (-52) (by norm_num)) = 1 := by
      norm_num [amount, factor]
    rw [same, one, mul_one, ← stored] at final
    refine ⟨_, ?_, final⟩
    have shape : Float.ofNat n = n.toUInt64.toFloat * Float.exactlyRepresentablePowersOfTen[0] :=
      dif_pos ⟨below, Nat.zero_le 22⟩
    have word : n.toUInt64.toNat = n :=
      UInt64.toNat_ofNat_of_lt (below.trans (show 2 ^ 53 < 2 ^ 64 by norm_num))
    rw [shape]
    show Float.Model.pack (UnpackedFloat.mul Format.binary64
      (Float.Model.pack (normalize Format.binary64 (n.toUInt64.toNat : ℤ) 0 .positive)).unpack _) = _
    rw [word, unpack_tenth_power]
  · have pos : 0 < n := by omega
    have mantissa : 0 < n <<< 53 * 10 ^ 0 := by
      rw [Nat.shiftLeft_eq]
      positivity
    have low : (-53 + 0 : ℤ) ≤ place (n <<< 53 * 10 ^ 0) (-53 + 0) := by
      rw [pow_zero, mul_one, place_eq, log2_shift pos]
      omega
    have rounded := roundWithAccuracy_spec mantissa low
    have written : ((n <<< 53 * 10 ^ 0 : ℕ) : ℚ) * 2 ^ (-53 + 0 : ℤ) = n := by
      rw [Nat.shiftLeft_eq]
      push_cast
      norm_num
      ring
    rw [written] at rounded
    refine ⟨_, ?_, rounded⟩
    have shape : Float.ofNat n = .ofModel (.ofScientific n 0) := dif_neg fun h => below h.1
    rw [shape]
    show Float.Model.pack (UnpackedFloat.ofScientific Format.binary64 n 0) = _
    have moderate : ¬(0 : ℤ) < -(2 ^ Format.binary64.exponentBits + (n.log2 : ℤ)) := by
      have : (0 : ℤ) < 2 ^ Format.binary64.exponentBits := by positivity
      omega
    rw [UnpackedFloat.ofScientific, dif_neg pos.ne', if_neg (by decide), if_neg moderate,
      if_pos le_rfl]
    rfl

/-- An integer in the range of 64 bits becomes the nearest double. -/
theorem ofInt_spec {i : ℤ} (small : |i| ≤ 2 ^ 63) :
    Scalar.isFinite (Float.ofInt i) = true ∧ Nearest (number (Float.ofInt i)) i := by
  obtain ⟨u, stored, rounded⟩ : ∃ u, (Float.ofInt i).toModel = .pack u ∧ RoundedFrom i u := by
    cases i with
    | ofNat n => exact ofNat_spec (by simpa using small)
    | negSucc n =>
      have size : n + 1 ≤ 2 ^ 63 := by
        rw [Int.abs_eq_natAbs, Int.natAbs_negSucc] at small
        exact_mod_cast small
      obtain ⟨u, stored, rounded⟩ := ofNat_spec size
      have fits := rounded.fits (by rw [Nat.abs_cast]; exact_mod_cast size.trans (by norm_num))
      refine ⟨u.neg, ?_, by simpa using rounded.neg⟩
      show Float.Model.pack (Float.ofNat (n + 1)).toModel.unpack.neg = _
      rw [stored, unpack_pack rounded.finite rounded.canonical fits]
  have fits := rounded.fits (by exact_mod_cast small.trans (by norm_num))
  have unpacked : (Float.ofInt i).toModel.unpack = u := by
    rw [stored, unpack_pack rounded.finite rounded.canonical fits]
  obtain ⟨finite, number_eq⟩ := number_of_unpack unpacked rounded.finite
  refine ⟨finite, ?_⟩
  rw [number_eq]
  exact rounded.nearest

/-- An integer that a double stands for becomes a double that stands for it. -/
theorem ofInt_exact {i : ℤ} (small : |i| ≤ 2 ^ 63) {x : Float} (hx : number x = i) :
    number (Float.ofInt i) = i :=
  (ofInt_spec small).2.eq (hx ▸ onGrid_number x)

/-- An integer below `2 ^ 53` becomes a double that stands for it. -/
theorem ofInt_small {i : ℤ} (small : |i| < 2 ^ 53) : number (Float.ofInt i) = i :=
  (ofInt_spec (small.le.trans (by norm_num))).2.eq ⟨i, 0, small, by norm_num, by simp⟩

/-- An integer from `2 ^ 53` on does not become a smaller double. -/
theorem ofInt_large {i : ℤ} (small : |i| ≤ 2 ^ 63) (large : 2 ^ 53 ≤ |i|) :
    2 ^ 53 ≤ |number (Float.ofInt i)| := by
  obtain ⟨-, nearest⟩ := ofInt_spec small
  have apart : |(i : ℚ)| - |number (Float.ofInt i)| ≤ |number (Float.ofInt i) - i| := by
    rw [abs_sub_comm]
    exact abs_sub_abs_le_abs_sub _ _
  rcases le_total 0 i with nonneg | nonpos
  · have near := nearest (2 ^ 53) ⟨1, 53, by norm_num, by norm_num, by norm_num⟩
    rw [abs_of_nonneg nonneg] at large
    have large' : (2 : ℚ) ^ 53 ≤ i := by exact_mod_cast large
    rw [abs_of_nonpos (sub_nonpos.mpr large')] at near
    rw [abs_of_nonneg (show (0 : ℚ) ≤ i by exact_mod_cast nonneg)] at apart
    linarith
  · have near := nearest (-2 ^ 53) ⟨-1, 53, by norm_num, by norm_num, by norm_num⟩
    rw [abs_of_nonpos nonpos] at large
    have large' : (2 : ℚ) ^ 53 ≤ -i := by exact_mod_cast large
    rw [abs_of_nonneg (show (0 : ℚ) ≤ -2 ^ 53 - i by linarith)] at near
    rw [abs_of_nonpos (show (i : ℚ) ≤ 0 by exact_mod_cast nonpos)] at apart
    linarith

/-! ### Doubles become integers -/

/-- The whole number that a mantissa and an exponent make up, if they do. -/
def magnitude? (m : ℕ) (e : ℤ) : Option ℕ :=
  if e < 0 then
    if (m >>> (-e).toNat) <<< (-e).toNat = m then some (m >>> (-e).toNat) else none
  else some (m <<< e.toNat)

/-- A mantissa and an exponent make up their product, if that is whole. -/
theorem magnitude?_eq_some_iff {m : ℕ} {e : ℤ} {k : ℕ} :
    magnitude? m e = some k ↔ (k : ℚ) = m * 2 ^ e := by
  by_cases fine : e < 0
  · obtain ⟨j, rfl⟩ : ∃ j : ℕ, e = -j := ⟨(-e).toNat, by omega⟩
    have scaled : (k : ℚ) = m * 2 ^ (-j : ℤ) ↔ k * 2 ^ j = m := by
      rw [zpow_neg, zpow_natCast, ← div_eq_mul_inv, eq_div_iff (by positivity)]
      exact_mod_cast Iff.rfl
    rw [magnitude?, if_pos fine, scaled, neg_neg, Int.toNat_natCast, Nat.shiftRight_eq_div_pow,
      Nat.shiftLeft_eq]
    constructor
    · intro h
      split_ifs at h with whole
      cases h
      exact whole
    · rintro rfl
      rw [Nat.mul_div_cancel _ (by positivity), if_pos rfl]
  · obtain ⟨j, rfl⟩ : ∃ j : ℕ, e = j := ⟨e.toNat, by omega⟩
    rw [magnitude?, if_neg fine, Int.toNat_natCast, Nat.shiftLeft_eq, zpow_natCast,
      Option.some_inj, eq_comm]
    exact_mod_cast Iff.rfl

/-- The integer read from a double that is taken apart. -/
theorem wholeBelow?_of_parts {bound : ℕ} {x : Float} {negative : Bool} {m : ℕ} {e : ℤ}
    (parts : Number.parts x = .finite negative m e) {i : ℤ} :
    Number.wholeBelow? bound x = some i ↔
      ∃ k : ℕ, (k : ℚ) = m * 2 ^ e ∧ k < bound ∧ (if negative then -(k : ℤ) else k) = i := by
  have read : Number.wholeBelow? bound x =
      (magnitude? m e).bind fun k =>
        if k < bound then some (if negative then -(k : ℤ) else k) else none := by
    unfold Number.wholeBelow? magnitude?
    rw [parts]
    dsimp only
    generalize (if e < 0 then _ else _ : Option ℕ) = made
    cases made <;> rfl
  rw [read]
  cases made : magnitude? m e with
  | some j =>
    have j_eq := magnitude?_eq_some_iff.mp made
    constructor
    · intro h
      by_cases below : j < bound
      · exact ⟨j, j_eq, below, Option.some_inj.mp ((if_pos below).symm.trans h)⟩
      · cases (if_neg below).symm.trans h
    · rintro ⟨k, k_eq, below, rfl⟩
      obtain rfl : j = k := by exact_mod_cast j_eq.trans k_eq.symm
      exact if_pos below
  | none =>
    constructor
    · intro h
      cases h
    · rintro ⟨k, k_eq, -⟩
      rw [magnitude?_eq_some_iff.mpr k_eq] at made
      cases made

/-- A double is read as an integer exactly if that integer is its number and below the bound. -/
theorem wholeBelow?_eq_some_iff {bound : ℕ} {x : Float} {i : ℤ} :
    Number.wholeBelow? bound x = some i ↔
      Scalar.isFinite x = true ∧ number x = i ∧ i.natAbs < bound := by
  by_cases finite : Scalar.isFinite x = true
  · obtain ⟨negative, m, e, parts, -, number_eq⟩ := exists_parts finite
    have nonneg : (0 : ℚ) ≤ m * 2 ^ e := mul_nonneg (Nat.cast_nonneg m) (place_pos e).le
    rw [wholeBelow?_of_parts parts, number_eq, and_iff_right finite]
    constructor
    · rintro ⟨k, k_eq, below, rfl⟩
      rw [← k_eq]
      cases negative <;> simp [below]
    · rintro ⟨same, below⟩
      refine ⟨i.natAbs, ?_, below, ?_⟩
      · rw [Nat.cast_natAbs, Int.cast_abs, ← same]
        cases negative <;> simp [abs_of_nonneg nonneg]
      · cases negative with
        | false =>
          have : (0 : ℚ) ≤ i := by rw [← same]; simpa using nonneg
          have : 0 ≤ i := by exact_mod_cast this
          rw [if_neg Bool.false_ne_true]
          omega
        | true =>
          have : (i : ℚ) ≤ 0 := by rw [← same]; simpa using nonneg
          have : i ≤ 0 := by exact_mod_cast this
          rw [if_pos rfl]
          omega
  · have unread : Number.wholeBelow? bound x = none := by
      rw [isFinite_iff] at finite
      rw [Number.wholeBelow?, parts_eq]
      cases eq : x.toModel.unpack with
      | infinity => rfl
      | notANumber => rfl
      | _ => exact absurd (by rw [eq]; rfl) finite
    rw [unread]
    simp [finite]

end Milp.Double
