import Milp.Proofs.Number.Nearest

/-!
# The bits of a double

What rounding gives is stored in the 64 bits of a double as it is (`unpack_pack`), unless it is too
large; then it becomes an infinity (`unpack_pack_large`). The exponent field comes before the
mantissa field, so doubles are compared as their numbers (`compare_eq`).
-/

namespace Milp.Double

open Float.Model Float.Model.UnpackedFloat

/-! ### Fields of bits -/

/-- The exponent field as a number. -/
theorem toNat_unpackExponent (b : BitVec 64) :
    (@unpackExponent Format.binary64 b).toNat = b.toNat / 2 ^ 52 % 2 ^ 11 := by
  simp [unpackExponent, Nat.shiftRight_eq_div_pow]

/-- The mantissa field as a number. -/
theorem toNat_unpackMantissa (b : BitVec 64) :
    (@unpackMantissa Format.binary64 b).toNat = b.toNat % 2 ^ 52 := by
  simp [unpackMantissa]

/-- The sign is the highest bit. -/
theorem ofBitVec_unpackSign (b : BitVec 64) :
    Sign.ofBitVec (@unpackSign Format.binary64 b) =
      if b.toNat / 2 ^ 63 = 1 then .negative else .positive := by
  have bound := b.isLt
  have top : (@unpackSign Format.binary64 b).toNat = b.toNat / 2 ^ 63 := by
    simp [unpackSign, Nat.shiftRight_eq_div_pow]
    omega
  rw [Sign.ofBitVec]
  by_cases high : b.toNat / 2 ^ 63 = 1
  · rw [if_pos high, if_neg]
    intro zero
    rw [zero, high] at top
    cases top
  · rw [if_neg high, if_pos]
    refine BitVec.eq_of_toNat_eq ?_
    rw [top, BitVec.toNat_ofNat]
    omega

/-- The number with the given sign bit, exponent and mantissa fields is unpacked like this. -/
theorem unpack_eq (b : BitVec 64) {sign : Sign} {biased fraction : ℕ}
    (sign_eq : (if b.toNat / 2 ^ 63 = 1 then Sign.negative else .positive) = sign)
    (biased_eq : b.toNat / 2 ^ 52 % 2048 = biased) (fraction_eq : b.toNat % 2 ^ 52 = fraction) :
    UnpackedFloat.unpack Format.binary64 b =
      if biased = 2047 then if fraction = 0 then .infinity sign else .notANumber
      else if biased = 0 then
        if h : fraction = 0 then .zero sign
        else .finite sign fraction (-1074) (Nat.pos_of_ne_zero h)
      else .finite sign (fraction + 2 ^ 52) (biased - 1075) (by positivity) := by
  have exponent := toNat_unpackExponent b
  have mantissa := toNat_unpackMantissa b
  have signs := ofBitVec_unpackSign b
  rw [show (2 : ℕ) ^ 11 = 2048 from rfl, biased_eq] at exponent
  rw [fraction_eq] at mantissa
  rw [sign_eq] at signs
  have ones : @unpackExponent Format.binary64 b = -1#_ ↔ biased = 2047 := by
    rw [← BitVec.toNat_inj, exponent]
    rfl
  have zeros : @unpackExponent Format.binary64 b = 0#_ ↔ biased = 0 := by
    rw [← BitVec.toNat_inj, exponent]
    rfl
  have empty : @unpackMantissa Format.binary64 b = 0#_ ↔ fraction = 0 := by
    rw [← BitVec.toNat_inj, mantissa]
    rfl
  simp only [UnpackedFloat.unpack, ones, zeros, empty, signs]
  split_ifs with infinite bare least none
  · rfl
  · rfl
  · rfl
  · congr 1
    rw [exponent, least]
    rfl
  · congr 1
    · rw [BitVec.toNat_append, mantissa, ← Nat.shiftLeft_add_eq_or_of_lt (by omega)]
      simp [Nat.shiftLeft_eq, add_comm]
    · rw [exponent]
      rfl

/-- A sign, an exponent and a mantissa next to each other. -/
theorem toNat_packComponents (s : Sign) (e : BitVec 11) (m : BitVec 52) :
    (packComponents Format.binary64 s e m).toNat =
      s.toBitVec.toNat * 2 ^ 63 + e.toNat * 2 ^ 52 + m.toNat := by
  have e_lt := e.isLt
  have m_lt := m.isLt
  rw [packComponents, BitVec.toNat_append, BitVec.toNat_append,
    ← Nat.shiftLeft_add_eq_or_of_lt e_lt, ← Nat.shiftLeft_add_eq_or_of_lt m_lt,
    Nat.shiftLeft_eq, Nat.shiftLeft_eq]
  ring

/-- What a sign, an exponent and a mantissa field are unpacked to. -/
theorem unpack_packComponents (s : Sign) {biased fraction : ℕ} (biased_lt : biased < 2048)
    (fraction_lt : fraction < 2 ^ 52) :
    UnpackedFloat.unpack Format.binary64
        (packComponents Format.binary64 s (BitVec.ofNat 11 biased) (BitVec.ofNat 52 fraction)) =
      if biased = 2047 then if fraction = 0 then .infinity s else .notANumber
      else if biased = 0 then
        if h : fraction = 0 then .zero s
        else .finite s fraction (-1074) (Nat.pos_of_ne_zero h)
      else .finite s (fraction + 2 ^ 52) (biased - 1075) (by positivity) := by
  have bits := toNat_packComponents s (BitVec.ofNat 11 biased) (BitVec.ofNat 52 fraction)
  rw [BitVec.toNat_ofNat, BitVec.toNat_ofNat, Nat.mod_eq_of_lt (show biased < 2 ^ 11 from biased_lt),
    Nat.mod_eq_of_lt fraction_lt] at bits
  apply unpack_eq
  · cases s
    · exact if_pos (by rw [bits]; simp [Sign.toBitVec]; omega)
    · exact if_neg (by rw [bits]; simp [Sign.toBitVec]; omega)
  · rw [bits]
    cases s <;> simp [Sign.toBitVec] <;> omega
  · rw [bits]
    cases s <;> simp [Sign.toBitVec] <;> omega

/-! ### Packing -/

/-- Whether a finite unpacked double is not too large to be stored. -/
def Fits : UnpackedFloat → Prop
  | .finite _ _ e _ => e ≤ 971
  | _ => True

/-- The fields that a finite double is stored in. -/
theorem pack_finite (s : Sign) {m : ℕ} (pos : 0 < m) {e : ℤ} (small : m < 2 ^ 53)
    (low : -1074 ≤ e) :
    UnpackedFloat.pack Format.binary64 (.finite s m e pos) =
      if 972 ≤ e then packComponents Format.binary64 s (BitVec.ofNat 11 2047) (BitVec.ofNat 52 0)
      else if 2 ^ 52 ≤ m then
        packComponents Format.binary64 s (BitVec.ofNat 11 (e + 1075).toNat)
          (BitVec.ofNat 52 (m - 2 ^ 52))
      else packComponents Format.binary64 s (BitVec.ofNat 11 0) (BitVec.ofNat 52 m) := by
  have biased : (e + Format.binary64.exponentBias + Format.binary64.mantissaBitsWithoutImplicit) =
      e + 1075 := by
    rw [show ((Format.binary64.exponentBias : ℕ) : ℤ) = 1023 from rfl,
      show ((Format.binary64.mantissaBitsWithoutImplicit : ℕ) : ℤ) = 52 from rfl]
    ring
  have bits : m.log2 + 1 = Format.binary64.mantissaBits ↔ 2 ^ 52 ≤ m := by
    rw [show Format.binary64.mantissaBits = 52 + 1 from rfl, Nat.add_right_cancel_iff,
      Nat.log2_eq_iff pos.ne']
    exact ⟨And.left, fun le => ⟨le, small⟩⟩
  simp only [UnpackedFloat.pack, biased, bits]
  by_cases large : 972 ≤ e
  · rw [if_pos (by omega), if_pos large]
    rfl
  · rw [if_neg (by omega), if_neg large]
    by_cases full : 2 ^ 52 ≤ m
    · rw [if_pos full, if_pos full]
      refine congrArg (packComponents Format.binary64 s _) (BitVec.eq_of_toNat_eq ?_)
      rw [BitVec.toNat_ofNat, BitVec.toNat_ofNat, Nat.mod_eq_sub_mod full]
    · rw [if_neg full, if_neg full]

/-- A double in its place is stored as it is, if it is not too large. -/
theorem unpack_pack {u : UnpackedFloat} (finite : u.isFinite = true) (canonical : Canonical u)
    (fits : Fits u) : (Float.Model.pack u).unpack = u := by
  show UnpackedFloat.unpack Format.binary64 (UnpackedFloat.pack Format.binary64 u) = u
  cases u with
  | infinity => cases finite
  | notANumber => cases finite
  | zero s =>
    exact (unpack_packComponents s (show 0 < 2048 by norm_num) (show 0 < 2 ^ 52 by norm_num)).trans
      (by simp)
  | finite s m e pos =>
    obtain ⟨small, low, full⟩ := canonical
    have high : e ≤ 971 := fits
    rw [pack_finite s pos small low, if_neg (by omega)]
    by_cases normal : 2 ^ 52 ≤ m
    · rw [if_pos normal, unpack_packComponents s (by omega) (by omega), if_neg (by omega),
        if_neg (by omega)]
      congr 1
      · omega
      · omega
    · rw [if_neg normal, unpack_packComponents s (by omega) (by omega), if_neg (by omega),
        if_pos rfl, dif_neg pos.ne']
      congr 1
      exact ((or_iff_right normal).mp full).symm

/-- A double that is too large is stored as an infinity. -/
theorem unpack_pack_large {s : Sign} {m : ℕ} {e : ℤ} {pos : 0 < m}
    (canonical : Canonical (.finite s m e pos)) (large : ¬Fits (.finite s m e pos)) :
    (Float.Model.pack (.finite s m e pos)).unpack = .infinity s := by
  obtain ⟨small, low, -⟩ := canonical
  have high : 972 ≤ e := by
    have : ¬e ≤ 971 := large
    omega
  show UnpackedFloat.unpack Format.binary64 (UnpackedFloat.pack Format.binary64 _) = _
  rw [pack_finite s pos small low, if_pos high, unpack_packComponents s (by omega) (by omega),
    if_pos rfl, if_pos rfl]

/-- What is read off 64 bits is in its place and not too large. -/
theorem canonical_unpack (b : BitVec 64) :
    Canonical (UnpackedFloat.unpack Format.binary64 b) ∧
      Fits (UnpackedFloat.unpack Format.binary64 b) := by
  generalize sign_eq : (if b.toNat / 2 ^ 63 = 1 then Sign.negative else .positive) = sign
  rw [unpack_eq b sign_eq rfl rfl]
  split_ifs with infinite bare least none
  · exact ⟨trivial, trivial⟩
  · exact ⟨trivial, trivial⟩
  · exact ⟨trivial, trivial⟩
  · exact ⟨⟨by omega, by omega, .inr rfl⟩, show (-1074 : ℤ) ≤ 971 by norm_num⟩
  · refine ⟨⟨by omega, by omega, .inl (by omega)⟩, ?_⟩
    show (_ : ℤ) ≤ 971
    omega

/-! ### Comparing -/

/-- The exponents decide between numbers in their places, and the mantissas between those of one
place. -/
theorem compare_places {m n : ℕ} {e f : ℤ} (hm : m < 2 ^ 53 ∧ -1074 ≤ e ∧ (2 ^ 52 ≤ m ∨ e = -1074))
    (hn : n < 2 ^ 53 ∧ -1074 ≤ f ∧ (2 ^ 52 ≤ n ∨ f = -1074)) :
    (compare e f).then (compare m n) = compare ((m : ℚ) * 2 ^ e) (n * 2 ^ f) := by
  have below : ∀ {m n : ℕ} {e f : ℤ}, m < 2 ^ 53 → -1074 ≤ e → (2 ^ 52 ≤ n ∨ f = -1074) → e < f →
      (m : ℚ) * 2 ^ e < n * 2 ^ f := by
    intro m n e f small low full less
    have mantissa : (2 : ℚ) ^ 52 ≤ n := by
      exact_mod_cast full.resolve_right (by omega)
    have top : (m : ℚ) < 2 ^ 53 := by exact_mod_cast small
    calc (m : ℚ) * 2 ^ e < 2 ^ 53 * 2 ^ e := mul_lt_mul_of_pos_right top (place_pos e)
      _ = 2 ^ 52 * 2 ^ (e + 1) := by rw [zpow_add_one₀ two_ne_zero]; ring
      _ ≤ 2 ^ 52 * 2 ^ f :=
        mul_le_mul_of_nonneg_left (zpow_le_zpow_right₀ one_le_two less) (by positivity)
      _ ≤ n * 2 ^ f := mul_le_mul_of_nonneg_right mantissa (place_pos f).le
  rcases lt_trichotomy e f with less | rfl | more
  · rw [compare_lt_iff_lt.mpr less, compare_lt_iff_lt.mpr (below hm.1 hm.2.1 hn.2.2 less)]
    rfl
  · rw [compare_eq_iff_eq.mpr rfl, Ordering.then]
    rcases lt_trichotomy m n with less | rfl | more
    · rw [compare_lt_iff_lt.mpr less, eq_comm, compare_lt_iff_lt]
      exact mul_lt_mul_of_pos_right (by exact_mod_cast less) (place_pos e)
    · rw [compare_eq_iff_eq.mpr rfl, compare_eq_iff_eq.mpr rfl]
    · rw [compare_gt_iff_gt.mpr more, eq_comm, compare_gt_iff_gt]
      exact mul_lt_mul_of_pos_right (by exact_mod_cast more) (place_pos e)
  · rw [compare_gt_iff_gt.mpr more, compare_gt_iff_gt.mpr (below hn.1 hn.2.1 hm.2.2 more)]
    rfl

/-- A finite double other than zero has the sign of its number. -/
theorem amount_sign (s : Sign) {m : ℕ} (pos : 0 < m) (e : ℤ) :
    0 < factor s * amount (.finite s m e pos) := by
  have size : 0 < (m : ℚ) * 2 ^ e := mul_pos (by exact_mod_cast pos) (place_pos e)
  cases s <;> simp [amount, factor, size]

/-- Finite doubles are compared as their numbers. -/
theorem compare_eq {a b : UnpackedFloat} (ha : a.isFinite = true) (hb : b.isFinite = true)
    (ca : Canonical a) (cb : Canonical b) :
    a.compare b = some (compare (amount a) (amount b)) := by
  have negative : ∀ {m e} (pos : 0 < m), amount (.finite .negative m e pos) < 0 := fun {m e} pos => by
    simpa [factor] using amount_sign .negative pos e
  have positive : ∀ {m e} (pos : 0 < m), 0 < amount (.finite .positive m e pos) := fun {m e} pos => by
    simpa [factor] using amount_sign .positive pos e
  cases a with
  | infinity => cases ha
  | notANumber => cases ha
  | zero s =>
    cases b with
    | infinity => cases hb
    | notANumber => cases hb
    | zero t => exact congrArg some (compare_eq_iff_eq.mpr rfl).symm
    | finite t n f pos =>
      cases t with
      | negative => exact congrArg some (compare_gt_iff_gt.mpr (negative pos)).symm
      | positive => exact congrArg some (compare_lt_iff_lt.mpr (positive pos)).symm
  | finite s m e pos =>
    cases b with
    | infinity => cases hb
    | notANumber => cases hb
    | zero t =>
      cases s with
      | negative => exact congrArg some (compare_lt_iff_lt.mpr (negative pos)).symm
      | positive => exact congrArg some (compare_gt_iff_gt.mpr (positive pos)).symm
    | finite t n f pos' =>
      have places := compare_places ca cb
      cases s with
      | negative =>
        cases t with
        | negative =>
          show some ((compare e f).then (compare m n)).swap = _
          rw [places, amount, amount, factor, neg_one_mul, neg_one_mul]
          rcases lt_trichotomy ((m : ℚ) * 2 ^ e) (n * 2 ^ f) with less | same | more
          · rw [compare_lt_iff_lt.mpr less, compare_gt_iff_gt.mpr (neg_lt_neg less)]
            rfl
          · rw [same, compare_eq_iff_eq.mpr rfl, compare_eq_iff_eq.mpr rfl]
            rfl
          · rw [compare_gt_iff_gt.mpr more, compare_lt_iff_lt.mpr (neg_lt_neg more)]
            rfl
        | positive =>
          exact congrArg some (compare_lt_iff_lt.mpr ((negative pos).trans (positive pos'))).symm
      | positive =>
        cases t with
        | negative =>
          exact congrArg some (compare_gt_iff_gt.mpr ((negative pos').trans (positive pos))).symm
        | positive =>
          show some ((compare e f).then (compare m n)) = _
          rw [places]
          simp [amount, factor]

end Milp.Double
