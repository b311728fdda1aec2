import Milp.Proofs.Number.Faithful
import Milp.Proofs.Number.Packing

/-!
# Doubles are faithful

The numbers of the program are doubles. The arithmetic of doubles rounds to the nearest number, and
floor, ceiling and rounding work on the same mantissas and exponents (`parts_eq`), so all that
`Scalar.Faithful` asks for holds of them.
-/

namespace Milp.Double

open Float.Model Float.Model.UnpackedFloat

/-- The rational number that a finite double stands for. -/
def number (x : Float) : ℚ := amount x.toModel.unpack

/-- The number of a double is on the grid. -/
theorem onGrid_number (x : Float) : OnGrid (number x) := (canonical_unpack _).1.onGrid

/-! ### Finite and infinite doubles -/

/-- Doubles are compared in their unpacked form. -/
theorem lt_iff_unpack (x y : Float) : x < y ↔ x.toModel.unpack.lt y.toModel.unpack = true := by
  show decide (x.toModel < y.toModel) = true ↔ _
  rw [decide_eq_true_iff]
  rfl

/-- What a double stands for depends on what is unpacked from it. -/
theorem extend_eq (x : Float) :
    Scalar.extend x = match x.toModel.unpack with
      | .infinity .negative => .negInf
      | .infinity .positive => .posInf
      | .notANumber => .undefined
      | _ => .fin x := by
  show Number.extend x = _
  have negative : x < 0 ↔ x.toModel.unpack.lt (.zero .positive) = true := lt_iff_unpack x 0
  simp only [Number.extend, negative, Float.isNaN, Float.isInf, Float.Model.isNaN,
    Float.Model.isInf]
  cases x.toModel.unpack with
  | infinity s => cases s <;> rfl
  | _ => rfl

/-- A double is finite as soon as its unpacked form is. -/
theorem isFinite_iff (x : Float) :
    Scalar.isFinite x = true ↔ x.toModel.unpack.isFinite = true := by
  rw [Scalar.isFinite, extend_eq]
  cases x.toModel.unpack with
  | infinity s => cases s <;> simp [UnpackedFloat.isFinite]
  | _ => simp [UnpackedFloat.isFinite]

/-- An undefined double stands for something undefined. -/
theorem isNaN_iff {x : Float} : x.isNaN = true ↔ Scalar.extend x = .undefined := by
  show x.isNaN = true ↔ Number.extend x = .undefined
  unfold Number.extend
  split
  next undefined => exact iff_of_true undefined rfl
  next defined =>
    refine iff_of_false defined ?_
    split
    · split <;> exact nofun
    · exact nofun

/-- A finite double stands for itself. -/
theorem extend_of_isFinite {x : Float} (h : Scalar.isFinite x = true) :
    Scalar.extend x = .fin x := by
  rw [isFinite_iff] at h
  rw [extend_eq]
  cases eq : x.toModel.unpack with
  | infinity s =>
    rw [eq] at h
    cases h
  | notANumber =>
    rw [eq] at h
    cases h
  | _ => rfl

/-- The distance of a double to zero. -/
theorem abs_amount (s : Sign) (m : ℕ) (e : ℤ) (pos : 0 < m) :
    |amount (.finite s m e pos)| = m * 2 ^ e := by
  have nonneg : 0 ≤ (m : ℚ) * 2 ^ e := mul_nonneg (by positivity) (place_pos e).le
  cases s with
  | negative => rw [amount, factor, neg_one_mul, abs_neg, abs_of_nonneg nonneg]
  | positive => rw [amount, factor, one_mul, abs_of_nonneg nonneg]

/-- The largest number that a double can stand for. -/
def largest : ℚ := (2 ^ 53 - 1) * 2 ^ (971 : ℤ)

/-- No double stands for a larger number. -/
theorem number_le_largest (x : Float) : |number x| ≤ largest := by
  obtain ⟨canonical, fits⟩ : Canonical x.toModel.unpack ∧ Fits x.toModel.unpack :=
    canonical_unpack _
  rw [number]
  cases eq : x.toModel.unpack with
  | finite s m e pos =>
    rw [eq] at canonical fits
    have mantissa : (m : ℚ) ≤ 2 ^ 53 - 1 := by
      have : m + 1 ≤ 2 ^ 53 := canonical.1
      have : ((m + 1 : ℕ) : ℚ) ≤ ((2 ^ 53 : ℕ) : ℚ) := by exact_mod_cast this
      push_cast at this
      linarith
    rw [abs_amount]
    exact mul_le_mul mantissa (zpow_le_zpow_right₀ one_le_two fits) (place_pos e).le (by norm_num)
  | _ =>
    show |(0 : ℚ)| ≤ largest
    rw [abs_zero]
    exact mul_nonneg (by norm_num) (place_pos _).le

/-- What is rounded to something too large lies beyond all doubles. -/
theorem beyond_of_large {z s : ℚ} (nearest : Nearest z s) (large : 2 ^ 53 * 2 ^ (971 : ℤ) ≤ z) :
    largest + 1 < s := by
  have place : (4 : ℚ) ≤ 2 ^ (971 : ℤ) := by
    calc (4 : ℚ) = 2 ^ (2 : ℤ) := by norm_num
      _ ≤ 2 ^ (971 : ℤ) := zpow_le_zpow_right₀ one_le_two (by norm_num)
  have near := nearest largest
    ⟨2 ^ 53 - 1, 971, by norm_num, by norm_num, by rw [largest]; norm_num only [Int.cast_sub, Int.cast_pow]⟩
  have above : z - s ≤ |z - s| := le_abs_self _
  unfold largest at near ⊢
  generalize (2 : ℚ) ^ (971 : ℤ) = p at place near large
  rcases le_or_gt s ((2 ^ 53 - 1) * p) with inside | outside
  · rw [abs_of_nonneg (sub_nonneg.mpr inside)] at near
    linarith
  · rw [abs_of_neg (sub_neg.mpr outside)] at near
    linarith

/-- A double in its place that is too large to be stored is that large. -/
theorem large_of_not_fits {s : Sign} {m : ℕ} {e : ℤ} {pos : 0 < m}
    (canonical : Canonical (.finite s m e pos)) (large : ¬Fits (.finite s m e pos)) :
    2 ^ 53 * 2 ^ (971 : ℤ) ≤ (m : ℚ) * 2 ^ e := by
  have high : 972 ≤ e := not_le.mp large
  have mantissa : (2 : ℚ) ^ 52 ≤ m := by
    exact_mod_cast canonical.2.2.resolve_right (by omega)
  calc (2 : ℚ) ^ 53 * 2 ^ (971 : ℤ) = 2 ^ 52 * (2 : ℚ) ^ (972 : ℤ) := by
        rw [show (972 : ℤ) = 971 + 1 from rfl, zpow_add_one₀ two_ne_zero]
        ring
    _ ≤ m * (2 : ℚ) ^ e :=
      mul_le_mul mantissa (zpow_le_zpow_right₀ one_le_two high) (place_pos _).le (by positivity)

/-- What rounding makes of a number, once it is stored. -/
theorem rounded_pack {s : ℚ} {u : UnpackedFloat} (h : RoundedFrom s u) :
    Scalar.Rounded number s (Scalar.extend (Float.ofModel (.pack u))) := by
  have nearest := h.nearest
  by_cases fits : Fits u
  · have stored : (Float.ofModel (.pack u)).toModel.unpack = u :=
      unpack_pack h.finite h.canonical fits
    have number_eq : number (Float.ofModel (.pack u)) = amount u := congrArg amount stored
    have finite : Scalar.isFinite (Float.ofModel (.pack u)) = true := by
      rw [isFinite_iff, stored]
      exact h.finite
    rw [extend_of_isFinite finite]
    refine .near _ finite (fun c _ => ?_) (fun whole => ?_)
    · rw [number_eq]
      exact nearest _ (onGrid_number c)
    · rw [number_eq]
      exact h.whole whole
  · cases u with
    | finite t m e pos =>
      have large := large_of_not_fits h.canonical fits
      rw [extend_eq, show (Float.ofModel (.pack (.finite t m e pos))).toModel.unpack = .infinity t from
        unpack_pack_large h.canonical fits]
      cases t with
      | positive =>
        rw [amount, factor, one_mul] at nearest
        refine .above fun c _ => ?_
        linarith [(abs_le.mp (number_le_largest c)).2, beyond_of_large nearest large]
      | negative =>
        rw [amount, factor, neg_one_mul] at nearest
        have turned := nearest.neg
        rw [neg_neg] at turned
        refine .below fun c _ => ?_
        linarith [(abs_le.mp (number_le_largest c)).1, beyond_of_large turned large]
    | _ => exact absurd trivial fits

/-! ### Whole numbers -/

/-- `Number.parts` reads the sign, the mantissa and the exponent off the bits that the arithmetic
works with. -/
theorem parts_eq (x : Float) :
    Number.parts x = match x.toModel.unpack with
      | .infinity s => .infinite (s == .negative)
      | .notANumber => .nan
      | .zero s => .finite (s == .negative) 0 (-1074)
      | .finite s m e _ => .finite (s == .negative) m e := by
  generalize sign_eq : (if x.toModel.toBits.toBitVec.toNat / 2 ^ 63 = 1 then Sign.negative
    else .positive) = sign
  have unpacked : x.toModel.unpack = _ := unpack_eq x.toModel.toBits.toBitVec sign_eq rfl rfl
  have negative : (x.toModel.toBits.toBitVec.toNat / 2 ^ 63 == 1) = (sign == .negative) := by
    rw [← sign_eq]
    split_ifs with high
    · rw [high]
      rfl
    · exact beq_eq_false_iff_ne.mpr high
  have read : Number.parts x =
      if x.toModel.toBits.toBitVec.toNat / 2 ^ 52 % 2048 = 2047 then
        if x.toModel.toBits.toBitVec.toNat % 2 ^ 52 = 0 then
          .infinite (x.toModel.toBits.toBitVec.toNat / 2 ^ 63 == 1) else .nan
      else if x.toModel.toBits.toBitVec.toNat / 2 ^ 52 % 2048 = 0 then
        .finite (x.toModel.toBits.toBitVec.toNat / 2 ^ 63 == 1)
          (x.toModel.toBits.toBitVec.toNat % 2 ^ 52) (-1074)
      else .finite (x.toModel.toBits.toBitVec.toNat / 2 ^ 63 == 1)
        (x.toModel.toBits.toBitVec.toNat % 2 ^ 52 + 2 ^ 52)
        (Int.ofNat (x.toModel.toBits.toBitVec.toNat / 2 ^ 52 % 2048) - 1075) := rfl
  rw [read, unpacked, negative]
  split_ifs with infinite bare least none
  · rfl
  · rfl
  · rw [none]
  · rfl
  · rfl

/-- The parts of a finite double make up its number. -/
theorem exists_parts {x : Float} (h : Scalar.isFinite x = true) :
    ∃ negative m e, Number.parts x = .finite negative m e ∧ m < 2 ^ 53 ∧
      number x = (if negative then -1 else 1) * (m * 2 ^ e) := by
  have canonical : Canonical x.toModel.unpack := (canonical_unpack _).1
  rw [isFinite_iff] at h
  rw [parts_eq, number]
  cases eq : x.toModel.unpack with
  | infinity s =>
    rw [eq] at h
    cases h
  | notANumber =>
    rw [eq] at h
    cases h
  | zero s => exact ⟨s == .negative, 0, -1074, rfl, by norm_num, by simp [amount]⟩
  | finite s m e pos =>
    rw [eq] at canonical
    exact ⟨s == .negative, m, e, rfl, canonical.1, by cases s <;> rfl⟩

/-- The parts of a double that is given by its sign, its exponent field and its mantissa field. -/
theorem parts_ofBits (negative : Bool) {biased fraction : ℕ} (biased_lt : biased < 2047)
    (fraction_lt : fraction < 2 ^ 52) {x : Float}
    (h : x = Float.ofBits (UInt64.ofNat
      ((if negative then Nat.pow 2 63 else 0) + biased * Nat.pow 2 52 + fraction))) :
    Scalar.isFinite x = true ∧ Number.parts x =
      if biased = 0 then .finite negative fraction (-1074)
      else .finite negative (fraction + 2 ^ 52) ((biased : ℤ) - 1075) := by
  generalize bits_eq :
    (if negative then Nat.pow 2 63 else 0) + biased * Nat.pow 2 52 + fraction = bits at h
  obtain ⟨bits_lt, biased_eq, fraction_eq, sign_eq⟩ : bits < 2 ^ 64 ∧
      bits / 2 ^ 52 % 2048 = biased ∧ bits % 2 ^ 52 = fraction ∧
      (if bits / 2 ^ 63 = 1 then Sign.negative else .positive) =
        if negative then .negative else .positive := by
    rw [Nat.pow_eq, Nat.pow_eq] at bits_eq
    cases negative
    · rw [if_neg Bool.false_ne_true] at bits_eq
      exact ⟨by omega, by omega, by omega, if_neg (by omega)⟩
    · rw [if_pos rfl] at bits_eq
      exact ⟨by omega, by omega, by omega, if_pos (by omega)⟩
  have read_eq : (UInt64.ofNat bits).toBitVec.toNat = bits := UInt64.toNat_ofNat_of_lt bits_lt
  rw [← read_eq] at biased_eq fraction_eq sign_eq
  have unpacked := unpack_eq _ sign_eq biased_eq fraction_eq
  obtain ⟨canonical, fits⟩ := canonical_unpack (UInt64.ofNat bits).toBitVec
  have finite : (UnpackedFloat.unpack Format.binary64 (UInt64.ofNat bits).toBitVec).isFinite =
      true := by
    rw [unpacked, if_neg biased_lt.ne]
    split_ifs <;> rfl
  have stored : x.toModel.unpack =
      UnpackedFloat.unpack Format.binary64 (UInt64.ofNat bits).toBitVec := by
    rw [h]
    exact unpack_pack finite canonical fits
  have sign : ((if negative then Sign.negative else .positive) == .negative) = negative := by
    cases negative <;> rfl
  refine ⟨by rw [isFinite_iff, stored]; exact finite, ?_⟩
  rw [parts_eq, stored, unpacked, if_neg biased_lt.ne]
  generalize (if negative then Sign.negative else .positive) = s at sign ⊢
  split_ifs with least none
  · rw [none, ← sign]
  · rw [← sign]
  · rw [← sign]

/-- A double that is given by bits without a sign lies between the powers of two that its exponent
field stands for. -/
theorem ofBits_binade {bits : UInt64} {k : ℕ} (field : bits.toNat / 2 ^ 52 = k) (normal : 0 < k)
    (small : k < 2047) :
    Scalar.isFinite (Float.ofBits bits) = true ∧
      2 ^ (k - 1023 : ℤ) ≤ number (Float.ofBits bits) ∧
      number (Float.ofBits bits) ≤ 2 ^ (k - 1022 : ℤ) := by
  have rest_lt : bits.toNat % 2 ^ 52 < 2 ^ 52 := Nat.mod_lt _ (by norm_num)
  have split : bits = UInt64.ofNat (0 + k * Nat.pow 2 52 + bits.toNat % 2 ^ 52) := by
    rw [← field, Nat.zero_add, Nat.pow_eq, Nat.div_add_mod', UInt64.ofNat_toNat]
  obtain ⟨finite, parts⟩ := parts_ofBits false small rest_lt (congrArg Float.ofBits split)
  rw [if_neg normal.ne'] at parts
  obtain ⟨_, m, e, parts', -, number_eq⟩ := exists_parts finite
  cases parts.symm.trans parts'
  rw [if_neg Bool.false_ne_true, one_mul] at number_eq
  have unit := place_pos (k - 1075 : ℤ)
  have low : (2 : ℚ) ^ (k - 1023 : ℤ) = 2 ^ 52 * 2 ^ (k - 1075 : ℤ) := by
    rw [show (k - 1023 : ℤ) = (52 : ℕ) + (k - 1075) by push_cast; ring, zpow_add₀ two_ne_zero,
      zpow_natCast]
  have high : (2 : ℚ) ^ (k - 1022 : ℤ) = 2 ^ 53 * 2 ^ (k - 1075 : ℤ) := by
    rw [show (k - 1022 : ℤ) = (53 : ℕ) + (k - 1075) by push_cast; ring, zpow_add₀ two_ne_zero,
      zpow_natCast]
  rw [number_eq, low, high]
  refine ⟨finite, mul_le_mul_of_nonneg_right ?_ unit.le, mul_le_mul_of_nonneg_right ?_ unit.le⟩
  · exact_mod_cast Nat.le_add_left _ _
  · exact_mod_cast (by omega : bits.toNat % 2 ^ 52 + 2 ^ 52 ≤ 2 ^ 53)

/-- `Number.whole` makes nothing but zero of zero. -/
theorem parts_whole_zero (negative : Bool) :
    Scalar.isFinite (Number.whole negative 0) = true ∧
      Number.parts (Number.whole negative 0) = .finite negative 0 (-1074) := by
  obtain ⟨finite, parts⟩ := parts_ofBits negative (show 0 < 2047 by norm_num)
    (show 0 < 2 ^ 52 by norm_num) (x := Number.whole negative 0) (by rw [Nat.zero_mul]; rfl)
  exact ⟨finite, parts.trans (if_pos rfl)⟩

/-- `Number.whole` moves the leading digit of a magnitude to its place. -/
theorem parts_whole (negative : Bool) {k : ℕ} (pos : 0 < k) (small : k < 2 ^ 53) :
    k.log2 ≤ 52 ∧ Scalar.isFinite (Number.whole negative k) = true ∧
      Number.parts (Number.whole negative k) =
        .finite negative (k * 2 ^ (52 - k.log2)) (-((52 - k.log2 : ℕ) : ℤ)) := by
  have top_le : k.log2 ≤ 52 := Nat.lt_succ_iff.mp ((Nat.log2_lt pos.ne').mpr small)
  have scaled : k * 2 ^ (52 - k.log2) < 2 ^ 53 := by
    calc k * 2 ^ (52 - k.log2) < 2 ^ (k.log2 + 1) * 2 ^ (52 - k.log2) :=
          (Nat.mul_lt_mul_right (by positivity)).mpr Nat.lt_log2_self
      _ = 2 ^ 53 := by rw [← pow_add]; congr 1; omega
  have full : 2 ^ 52 ≤ k * 2 ^ (52 - k.log2) := by
    calc 2 ^ 52 = 2 ^ k.log2 * 2 ^ (52 - k.log2) := by rw [← pow_add]; congr 1; omega
      _ ≤ k * 2 ^ (52 - k.log2) := Nat.mul_le_mul_right _ (Nat.log2_self_le pos.ne')
  obtain ⟨finite, parts⟩ := parts_ofBits negative (show k.log2 + 1023 < 2047 by omega)
    (show k * 2 ^ (52 - k.log2) - 2 ^ 52 < 2 ^ 52 by omega) (x := Number.whole negative k)
    (by rw [Number.whole, if_neg pos.ne']; rfl)
  have exponent : ((k.log2 + 1023 : ℕ) : ℤ) - 1075 = -((52 - k.log2 : ℕ) : ℤ) := by omega
  rw [if_neg (by omega), Nat.sub_add_cancel full, exponent] at parts
  exact ⟨top_le, finite, parts⟩

/-- `Number.whole` makes the whole number of a sign and a magnitude. -/
theorem whole_spec (negative : Bool) {k : ℕ} (small : k < 2 ^ 53) :
    Scalar.isFinite (Number.whole negative k) = true ∧
      number (Number.whole negative k) = (if negative then -1 else 1) * (k : ℚ) := by
  rcases Nat.eq_zero_or_pos k with rfl | pos
  · obtain ⟨finite, parts⟩ := parts_whole_zero negative
    obtain ⟨_, m, e, parts', -, number_eq⟩ := exists_parts finite
    cases parts.symm.trans parts'
    exact ⟨finite, by rw [number_eq]; simp⟩
  · obtain ⟨-, finite, parts⟩ := parts_whole negative pos small
    obtain ⟨_, m, e, parts', -, number_eq⟩ := exists_parts finite
    cases parts.symm.trans parts'
    refine ⟨finite, ?_⟩
    rw [number_eq, zpow_neg, zpow_natCast]
    push_cast
    field_simp

/-- A number with places below the unit is rounded to the whole number next to it on one side or
the other. -/
theorem roundBy_fine (up : Bool → Nat → Nat → Bool) {x : Float} {negative : Bool} {m : ℕ} {e : ℤ}
    (parts : Number.parts x = .finite negative m e) (small : m < 2 ^ 53) {k : ℕ}
    (fine : e = -((k : ℤ) + 1)) :
    ∃ n, n = (if up negative (m % 2 ^ (k + 1)) (2 ^ k) then m / 2 ^ (k + 1) + 1
        else m / 2 ^ (k + 1)) ∧
      n < 2 ^ 53 ∧ Number.roundBy up x = Number.whole negative n := by
  have shift : (-e).toNat = k + 1 := by omega
  have kept : m >>> (k + 1) = m / 2 ^ (k + 1) := Nat.shiftRight_eq_div_pow m (k + 1)
  have rest : m - (m / 2 ^ (k + 1)) <<< (k + 1) = m % 2 ^ (k + 1) := by
    rw [Nat.shiftLeft_eq, mul_comm, Nat.mod_def]
  have half : m / 2 ^ (k + 1) < 2 ^ 52 := by
    calc m / 2 ^ (k + 1) ≤ m / 2 := by
          rw [pow_succ', ← Nat.div_div_eq_div_mul]
          exact Nat.div_le_self _ _
      _ < 2 ^ 52 := by omega
  refine ⟨_, rfl, by split <;> omega, ?_⟩
  rw [Number.roundBy, parts]
  simp only
  rw [if_pos (by omega), shift, kept, rest]
  rfl

/-- The number that it is rounded to. -/
theorem roundBy_parts (up : Bool → Nat → Nat → Bool) {x : Float} {negative : Bool} {m : ℕ} {e : ℤ}
    (parts : Number.parts x = .finite negative m e) (small : m < 2 ^ 53) {k : ℕ}
    (fine : e = -((k : ℤ) + 1)) :
    Scalar.isFinite (Number.roundBy up x) = true ∧
      number (Number.roundBy up x) = (if negative then -1 else 1) *
        (if up negative (m % 2 ^ (k + 1)) (2 ^ k) then m / 2 ^ (k + 1) + 1
          else m / 2 ^ (k + 1) : ℕ) := by
  obtain ⟨n, rfl, small, made⟩ := roundBy_fine up parts small fine
  rw [made]
  exact whole_spec negative small

/-- A whole number with a sign is an integer. -/
theorem whole_signed (negative : Bool) (n : ℕ) : Whole ((if negative then -1 else 1) * (n : ℚ)) := by
  cases negative
  · exact ⟨n, by simp⟩
  · exact ⟨-n, by simp⟩

/-- A number without places below the unit is left alone and is an integer. -/
theorem roundBy_coarse (up : Bool → Nat → Nat → Bool) {x : Float} {negative : Bool} {m : ℕ} {e : ℤ}
    (parts : Number.parts x = .finite negative m e) (coarse : 0 ≤ e)
    (number_eq : number x = (if negative then -1 else 1) * (m * 2 ^ e)) :
    Number.roundBy up x = x ∧ Whole (number x) := by
  constructor
  · rw [Number.roundBy, parts]
    exact if_neg (not_lt.mpr coarse)
  · obtain ⟨k, rfl⟩ := Int.eq_ofNat_of_zero_le coarse
    rw [number_eq, zpow_natCast]
    exact_mod_cast whole_signed negative (m * 2 ^ k)

/-- A finite double is rounded to a whole one, in whatever direction. -/
theorem roundBy_spec (up : Bool → Nat → Nat → Bool) {x : Float} (h : Scalar.isFinite x = true) :
    Scalar.isFinite (Number.roundBy up x) = true ∧ Whole (number (Number.roundBy up x)) := by
  obtain ⟨negative, m, e, parts, small, number_eq⟩ := exists_parts h
  rcases le_or_gt 0 e with coarse | fine
  · obtain ⟨same, whole⟩ := roundBy_coarse up parts coarse number_eq
    rw [same]
    exact ⟨h, whole⟩
  · obtain ⟨k, k_eq⟩ : ∃ k : ℕ, e = -((k : ℤ) + 1) := ⟨(-e - 1).toNat, by omega⟩
    obtain ⟨finite, rounded⟩ := roundBy_parts up parts small k_eq
    exact ⟨finite, rounded ▸ whole_signed negative _⟩

/-- A number whose places below the unit are all zero is rounded to the number above them. -/
theorem round_of_parts {x : Float} {negative : Bool} {n k : ℕ}
    (parts : Number.parts x = .finite negative (n * 2 ^ (k + 1)) (-((k : ℤ) + 1)))
    (small : n * 2 ^ (k + 1) < 2 ^ 53) : Number.round x = Number.whole negative n := by
  obtain ⟨n', n'_eq, -, made⟩ := roundBy_fine (fun _ rest half => half ≤ rest) parts small rfl
  have half : ¬ 2 ^ k ≤ 0 := not_le.mpr (by positivity)
  rw [Nat.mul_mod_left, Nat.mul_div_cancel _ (by positivity), decide_eq_false half] at n'_eq
  rw [Number.round, made, n'_eq, if_neg Bool.false_ne_true]

/-- A whole number is the nearest one to itself. -/
theorem round_whole (negative : Bool) {n : ℕ} (small : n < 2 ^ 53) :
    Number.round (Number.whole negative n) = Number.whole negative n := by
  rcases Nat.eq_zero_or_pos n with rfl | pos
  · have parts := (parts_whole_zero negative).2
    obtain ⟨k, k_eq⟩ : ∃ k : ℕ, (-1074 : ℤ) = -((k : ℤ) + 1) := ⟨1073, by norm_num⟩
    have empty : 0 * 2 ^ (k + 1) = 0 := Nat.zero_mul _
    exact round_of_parts (parts.trans (by rw [k_eq, empty])) (by rw [empty]; norm_num)
  · obtain ⟨-, finite, parts⟩ := parts_whole negative pos small
    obtain ⟨_, m, e, parts', m_lt, number_eq⟩ := exists_parts finite
    cases parts.symm.trans parts'
    rcases Nat.eq_zero_or_pos (52 - n.log2) with none | fine
    · exact (roundBy_coarse _ parts (by rw [none]; rfl) number_eq).1
    · obtain ⟨k, k_eq⟩ := Nat.exists_eq_add_of_lt fine
      rw [Nat.zero_add] at k_eq
      rw [k_eq] at parts m_lt
      push_cast at parts
      exact round_of_parts parts m_lt

/-- Rounding twice is rounding once, also for the sign of a zero. -/
theorem round_round {x : Float} (h : Scalar.isFinite x = true) :
    Number.round (Number.round x) = Number.round x := by
  obtain ⟨negative, m, e, parts, small, number_eq⟩ := exists_parts h
  rcases le_or_gt 0 e with coarse | fine
  · have same : Number.round x = x := (roundBy_coarse _ parts coarse number_eq).1
    rw [same, same]
  · obtain ⟨k, k_eq⟩ : ∃ k : ℕ, e = -((k : ℤ) + 1) := ⟨(-e - 1).toNat, by omega⟩
    obtain ⟨n, -, n_lt, made⟩ := roundBy_fine (fun _ rest half => half ≤ rest) parts small k_eq
    rw [show Number.round x = Number.whole negative n from made]
    exact round_whole negative n_lt

/-- A finite double is whole and left alone by rounding, or it has a whole part and a fraction, and
rounding takes the whole part or the next whole number away from zero. -/
theorem roundBy_cases {x : Float} (h : Scalar.isFinite x = true) :
    (Whole (number x) ∧ ∀ up, Number.roundBy up x = x) ∨
      ∃ (negative : Bool) (kept rest half : ℕ) (fraction : ℚ), 0 ≤ fraction ∧ fraction < 1 ∧
        (fraction = 0 ↔ rest = 0) ∧
        number x = (if negative then -1 else 1) * (kept + fraction) ∧
        ∀ up, number (Number.roundBy up x) = (if negative then -1 else 1) *
          (if up negative rest half then kept + 1 else kept : ℕ) := by
  obtain ⟨negative, m, e, parts, small, number_eq⟩ := exists_parts h
  rcases le_or_gt 0 e with coarse | fine
  · have alone := fun up => roundBy_coarse up parts coarse number_eq
    exact .inl ⟨(alone fun _ _ _ => true).2, fun up => (alone up).1⟩
  · obtain ⟨k, k_eq⟩ : ∃ k : ℕ, e = -((k : ℤ) + 1) := ⟨(-e - 1).toNat, by omega⟩
    have unit : (0 : ℚ) < 2 ^ (k + 1) := by positivity
    have inverse : (2 : ℚ) ^ e = (2 ^ (k + 1))⁻¹ := by
      rw [k_eq, zpow_neg]
      norm_cast
    have division : (2 : ℚ) ^ (k + 1) * (m / 2 ^ (k + 1) : ℕ) + (m % 2 ^ (k + 1) : ℕ) = m := by
      exact_mod_cast Nat.div_add_mod m (2 ^ (k + 1))
    have rest_lt : ((m % 2 ^ (k + 1) : ℕ) : ℚ) < 2 ^ (k + 1) := by
      exact_mod_cast Nat.mod_lt m (by positivity)
    have quotient : (m : ℚ) * 2 ^ e =
        (m / 2 ^ (k + 1) : ℕ) + (m % 2 ^ (k + 1) : ℕ) / 2 ^ (k + 1) := by
      rw [inverse, ← division]
      field_simp
    refine .inr ⟨negative, m / 2 ^ (k + 1), m % 2 ^ (k + 1), 2 ^ k, _, by positivity,
      (div_lt_one unit).mpr rest_lt, ?_, by rw [number_eq, quotient],
      fun up => (roundBy_parts up parts small k_eq).2⟩
    rw [div_eq_zero_iff, or_iff_left unit.ne', Nat.cast_eq_zero]

/-- The floor of a double is the floor of its number. -/
theorem floor_spec {x : Float} (h : Scalar.isFinite x = true) :
    Scalar.isFinite (Number.floor x) = true ∧ number (Number.floor x) = ⌊number x⌋ := by
  refine ⟨(roundBy_spec _ h).1, ?_⟩
  obtain ⟨⟨n, n_eq⟩, same⟩ |
      ⟨negative, kept, rest, half, fraction, nonneg, below, zero, number_eq, rounded⟩ :=
    roundBy_cases h
  · rw [Number.floor, same, n_eq, Int.floor_intCast]
  rw [Number.floor, rounded, number_eq]
  cases negative with
  | false =>
    have floor_eq : ⌊(kept : ℚ) + fraction⌋ = kept :=
      Int.floor_eq_iff.mpr ⟨by simpa using nonneg, by simpa using below⟩
    simp [floor_eq]
  | true =>
    by_cases whole : rest = 0
    · have floor_eq : ⌊-(kept : ℚ)⌋ = -kept := by exact_mod_cast Int.floor_intCast (-(kept : ℤ))
      simp [whole, zero.mpr whole, floor_eq]
    · have pos : 0 < fraction := lt_of_le_of_ne nonneg fun eq => whole (zero.mp eq.symm)
      have floor_eq : ⌊-((kept : ℚ) + fraction)⌋ = -((kept : ℤ) + 1) :=
        Int.floor_eq_iff.mpr ⟨by push_cast; linarith, by push_cast; linarith⟩
      have up : (true && rest != 0) = true := bne_iff_ne.mpr whole
      rw [up, if_pos rfl, if_pos rfl, neg_one_mul, neg_one_mul, floor_eq]
      push_cast
      ring

/-- The ceiling of a double is the ceiling of its number. -/
theorem ceil_spec {x : Float} (h : Scalar.isFinite x = true) :
    Scalar.isFinite (Number.ceil x) = true ∧ number (Number.ceil x) = ⌈number x⌉ := by
  refine ⟨(roundBy_spec _ h).1, ?_⟩
  obtain ⟨⟨n, n_eq⟩, same⟩ |
      ⟨negative, kept, rest, half, fraction, nonneg, below, zero, number_eq, rounded⟩ :=
    roundBy_cases h
  · rw [Number.ceil, same, n_eq, Int.ceil_intCast]
  rw [Number.ceil, rounded, number_eq]
  cases negative with
  | false =>
    by_cases whole : rest = 0
    · simp [whole, zero.mpr whole]
    · have pos : 0 < fraction := lt_of_le_of_ne nonneg fun eq => whole (zero.mp eq.symm)
      have ceil_eq : ⌈(kept : ℚ) + fraction⌉ = (kept : ℤ) + 1 :=
        Int.ceil_eq_iff.mpr ⟨by push_cast; linarith, by push_cast; linarith⟩
      simp [whole, ceil_eq]
  | true =>
    have ceil_eq : ⌈-((kept : ℚ) + fraction)⌉ = -(kept : ℤ) :=
      Int.ceil_eq_iff.mpr ⟨by push_cast; linarith, by push_cast; linarith⟩
    have up : (!true && rest != 0) = false := rfl
    rw [up, if_neg Bool.false_ne_true, if_pos rfl, neg_one_mul, neg_one_mul, ceil_eq]
    push_cast
    rfl

/-! ### Doubles as scalars -/

/-- Finite doubles are compared as their numbers. -/
theorem compare_number {x y : Float} (hx : Scalar.isFinite x = true)
    (hy : Scalar.isFinite y = true) :
    x.toModel.unpack.compare y.toModel.unpack = some (compare (number x) (number y)) :=
  compare_eq ((isFinite_iff x).mp hx) ((isFinite_iff y).mp hy) (canonical_unpack _).1
    (canonical_unpack _).1

/-- A double that is unpacked to a finite one is finite and has its number. -/
theorem number_of_unpack {x : Float} {u : UnpackedFloat} (h : x.toModel.unpack = u)
    (finite : u.isFinite = true) : Scalar.isFinite x = true ∧ number x = amount u :=
  ⟨by rw [isFinite_iff, h]; exact finite, congrArg amount h⟩

/-- Powers of two are doubles, unless they are too large or too small. -/
theorem exists_two_zpow {k : ℤ} (low : -1022 ≤ k) (high : k ≤ 1023) :
    ∃ x : Float, Scalar.isFinite x = true ∧ number x = 2 ^ k := by
  have canonical : Canonical (.finite .positive (2 ^ 52) (k - 52) (by norm_num)) :=
    ⟨by norm_num, by omega, .inl le_rfl⟩
  have fits : Fits (.finite .positive (2 ^ 52) (k - 52) (by norm_num)) :=
    show k - 52 ≤ 971 by omega
  have stored : (Float.ofModel (.pack _)).toModel.unpack = _ := unpack_pack rfl canonical fits
  obtain ⟨finite, number_eq⟩ := number_of_unpack stored rfl
  refine ⟨_, finite, number_eq.trans ?_⟩
  rw [amount, factor, one_mul, zpow_sub₀ two_ne_zero]
  push_cast
  field_simp

/-- The double one is unpacked to `2 ^ 52` places of `2 ^ -52`. -/
theorem unpack_one :
    (1 : Float).toModel.unpack = .finite .positive (2 ^ 52) (-52) (by norm_num) := rfl

instance : Scalar.Faithful Float where
  value := number
  extend_of_fin {x y} h := by
    rw [extend_eq] at h
    split at h <;> cases h
    rfl
  finite_zero := (number_of_unpack (show (0 : Float).toModel.unpack = .zero .positive from rfl) rfl).1
  value_zero := (number_of_unpack (show (0 : Float).toModel.unpack = .zero .positive from rfl) rfl).2
  finite_one := (number_of_unpack unpack_one rfl).1
  value_one := (number_of_unpack unpack_one rfl).2.trans (by norm_num [amount, factor])
  lt_iff {x y} hx hy := by
    rw [lt_iff_unpack, ← compare_lt_iff_lt, UnpackedFloat.lt, compare_number hx hy]
    simp
  le_iff {x y} hx hy := by
    have compared := compare_number hx hy
    show decide (x.toModel ≤ y.toModel) = true ↔ _
    rw [decide_eq_true_iff]
    show (x.toModel.unpack.compare y.toModel.unpack).any (·.isLE) = true ↔ _
    rw [compared, Option.any_some, ← not_lt, ← compare_gt_iff_gt]
    cases compare (number x) (number y) <;> decide
  defined {x} hx := by
    have compared := compare_number hx hx
    show (!(x.toModel.unpack.compare x.toModel.unpack == some .eq)) = false
    rw [compared, compare_eq_iff_eq.mpr rfl]
    rfl
  floor_spec := floor_spec
  ceil_spec := roundBy_spec _
  round_spec := roundBy_spec _
  add_spec {x y} hx hy := rounded_pack (add_spec ((isFinite_iff x).mp hx) ((isFinite_iff y).mp hy)
    (canonical_unpack _).1 (canonical_unpack _).1)
  sub_spec {x y} hx hy := rounded_pack (sub_spec ((isFinite_iff x).mp hx) ((isFinite_iff y).mp hy)
    (canonical_unpack _).1 (canonical_unpack _).1)

/-- What is rounded from a number between two powers of two stays between them. -/
theorem between_two_zpow {s : ℚ} {x : Float} (h : Scalar.Rounded number s (Scalar.extend x))
    {k l : ℤ} (k_low : -1022 ≤ k) (l_high : l ≤ 1023) (low : 2 ^ k ≤ s) (high : s ≤ 2 ^ l) :
    Scalar.isFinite x = true ∧ 2 ^ k ≤ number x ∧ number x ≤ 2 ^ l := by
  have ordered : k ≤ l := (zpow_le_zpow_iff_right₀ one_lt_two).mp (low.trans high)
  obtain ⟨a, a_finite, a_eq⟩ := exists_two_zpow k_low (ordered.trans l_high)
  obtain ⟨b, b_finite, b_eq⟩ := exists_two_zpow (k_low.trans ordered) l_high
  have between := Scalar.Rounded.between h a_finite b_finite (a_eq.trans_le low)
    (high.trans_eq b_eq.symm)
  rwa [show Scalar.value a = 2 ^ k from a_eq, show Scalar.value b = 2 ^ l from b_eq] at between

/-! ### The order of doubles -/

/-- Unpacked doubles that are not undefined are comparable, either way round. -/
theorem exists_compare {u v : UnpackedFloat} (hu : u.isNaN = false) (hv : v.isNaN = false) :
    ∃ o, u.compare v = some o ∧ v.compare u = some o.swap := by
  cases u with
  | notANumber => cases hu
  | infinity s =>
    cases v with
    | notANumber => cases hv
    | infinity t => exact ⟨_, rfl, by cases s <;> cases t <;> rfl⟩
    | _ => cases s <;> exact ⟨_, rfl, rfl⟩
  | zero s =>
    cases v with
    | notANumber => cases hv
    | zero t => exact ⟨_, rfl, rfl⟩
    | infinity t => cases t <;> exact ⟨_, rfl, rfl⟩
    | finite t => cases t <;> exact ⟨_, rfl, rfl⟩
  | finite s m e =>
    cases v with
    | notANumber => cases hv
    | zero t => cases s <;> exact ⟨_, rfl, rfl⟩
    | infinity t => cases t <;> exact ⟨_, rfl, rfl⟩
    | finite t n f =>
      have exponents : compare f e = (compare e f).swap := Std.OrientedCmp.eq_swap
      have mantissas : compare n m = (compare m n).swap := Std.OrientedCmp.eq_swap
      cases s <;> cases t <;> refine ⟨_, rfl, ?_⟩ <;>
        simp [UnpackedFloat.compare, Ordering.swap_then, exponents, mantissas]

/-- Of two doubles that are not undefined, one that is not larger is at most the other. -/
theorem le_of_not_lt {x y : Float} (hx : x.isNaN = false) (hy : y.isNaN = false) (h : ¬x < y) :
    y ≤ x := by
  obtain ⟨o, forth, back⟩ := exists_compare hx hy
  rw [lt_iff_unpack, UnpackedFloat.lt, forth] at h
  show decide (y.toModel ≤ x.toModel) = true
  rw [decide_eq_true_iff]
  show (y.toModel.unpack.compare x.toModel.unpack).any (·.isLE) = true
  rw [back]
  cases o with
  | lt => exact absurd rfl h
  | _ => rfl

/-- Where an unpacked double stands among the numbers and the two infinities. -/
def rank : UnpackedFloat → WithBot (WithTop ℚ)
  | .infinity .negative => ⊥
  | .infinity .positive => ⊤
  | u => ((amount u : WithTop ℚ) : WithBot (WithTop ℚ))

/-- Unpacked doubles that are not undefined are compared by where they stand. -/
theorem unpacked_lt_iff_rank {u v : UnpackedFloat} (hu : u.isNaN = false) (hv : v.isNaN = false)
    (cu : Canonical u) (cv : Canonical v) : u.lt v = true ↔ rank u < rank v := by
  have finite {u v : UnpackedFloat} (hu : u.isFinite = true) (hv : v.isFinite = true)
      (cu : Canonical u) (cv : Canonical v) : u.lt v = true ↔ amount u < amount v := by
    rw [UnpackedFloat.lt, compare_eq hu hv cu cv, ← compare_lt_iff_lt]
    simp
  have below (q : ℚ) : ((q : WithTop ℚ) : WithBot (WithTop ℚ)) < ⊤ :=
    WithBot.coe_lt_coe.mpr (WithTop.coe_lt_top q)
  cases u with
  | notANumber => cases hu
  | infinity s =>
    cases v with
    | notANumber => cases hv
    | infinity t =>
      have signs : compare Sign.negative Sign.positive = .lt := rfl
      have turned : compare Sign.positive Sign.negative = .gt := rfl
      cases s <;> cases t <;> simp [UnpackedFloat.lt, UnpackedFloat.compare, rank, signs, turned]
    | _ => cases s <;> simp [UnpackedFloat.lt, UnpackedFloat.compare, rank]
  | _ =>
    cases v with
    | notANumber => cases hv
    | infinity t => cases t <;> simp [UnpackedFloat.lt, UnpackedFloat.compare, rank, below]
    | _ => exact (finite rfl rfl cu cv).trans (by simp [rank])

/-- Doubles that are not undefined are compared by where they stand. -/
theorem lt_iff_rank {x y : Float} (hx : x.isNaN = false) (hy : y.isNaN = false) :
    x < y ↔ rank x.toModel.unpack < rank y.toModel.unpack := by
  rw [lt_iff_unpack]
  exact unpacked_lt_iff_rank hx hy (canonical_unpack _).1 (canonical_unpack _).1

/-- The infinities are beyond all finite doubles. -/
theorem infinity_beyond {u : UnpackedFloat} (finite : u.isFinite = true) :
    (UnpackedFloat.infinity .negative).lt u = true ∧ u.lt (.infinity .positive) = true := by
  cases u with
  | infinity => cases finite
  | notANumber => cases finite
  | _ => exact ⟨rfl, rfl⟩

/-- What lies between two finite doubles is finite, and so do the numbers lie. -/
theorem between {x low high : Float} (low_finite : Scalar.isFinite low = true)
    (high_finite : Scalar.isFinite high = true) (defined : x.isNaN = false) (above : ¬x < low)
    (below : ¬high < x) :
    Scalar.isFinite x = true ∧ number low ≤ number x ∧ number x ≤ number high := by
  have finite : Scalar.isFinite x = true := by
    rw [isFinite_iff] at low_finite high_finite ⊢
    cases eq : x.toModel.unpack with
    | infinity s =>
      rw [lt_iff_unpack, eq] at above below
      cases s with
      | negative => exact absurd (infinity_beyond low_finite).1 above
      | positive => exact absurd (infinity_beyond high_finite).2 below
    | notANumber =>
      rw [Float.isNaN, Float.Model.isNaN, eq] at defined
      cases defined
    | _ => rfl
  rw [Scalar.Faithful.lt_iff finite low_finite, not_lt] at above
  rw [Scalar.Faithful.lt_iff high_finite finite, not_lt] at below
  exact ⟨finite, above, below⟩

/-- A double from a small positive one to one tenth is a moderate tolerance. -/
theorem moderate {t : Float} (defined : t.isNaN = false) (low : ¬t < 1e-12)
    (high : ¬(1e-1 : Float) < t) : Scalar.Moderate t := by
  obtain ⟨least_finite, least_eq⟩ := number_of_unpack
    (show (1e-12 : Float).toModel.unpack = .finite .positive 4951760157141521 (-92) _ from rfl) rfl
  obtain ⟨most_finite, most_eq⟩ := number_of_unpack
    (show (1e-1 : Float).toModel.unpack = .finite .positive 7205759403792794 (-56) _ from rfl) rfl
  obtain ⟨finite, above, below⟩ := between least_finite most_finite defined low high
  rw [least_eq] at above
  rw [most_eq] at below
  refine ⟨finite, le_trans ?_ above, lt_of_le_of_lt below ?_⟩
  · norm_num [amount, factor]
  · norm_num [amount, factor]

end Milp.Double
