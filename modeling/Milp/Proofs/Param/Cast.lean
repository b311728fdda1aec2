import Milp.Param.Value
import Milp.Proofs.Number.Integers

/-!
# Casts and what the values stand for

A value of a parameter stands for a number or for a text (`ParamValue.meaning`). A cast gives a
value of the type asked for that stands for the same, with one exception (`cast_faithful`): an
integer of 64 bits that is no double becomes the double nearest to it (`Rounds`). Where a cast can
be taken back, it gives the value that was cast (`Alike`), and it can be taken back except from a
truth value to a double and from a double that is too large to be read as an integer (`OneWay`).
-/

namespace Milp

/-- What a double stands for, exactly. -/
def Double.extended (x : Float) : Extended ℚ :=
  match Scalar.extend x with
  | .negInf => .negInf
  | .fin y => .fin (Double.number y)
  | .posInf => .posInf
  | .undefined => .undefined

/-- What a value of a parameter stands for. -/
inductive Meaning where
  | number (value : Extended ℚ)
  | text (characters : List Char)
  deriving DecidableEq

namespace ParamValue

variable {u v w : ParamValue} {t : ParamType} {i j : ℤ}

/-- What the value stands for: truth values are one and zero, and a character is a text. -/
def meaning : ParamValue → Meaning
  | .bool b => .number (.fin (if b then 1 else 0))
  | .int i => .number (.fin i.toInt)
  | .long i => .number (.fin i.toInt)
  | .real x => .number (Double.extended x)
  | .char c => .text [c]
  | .string s => .text s.toList

/-- Whether the values are equal, the two zeros among doubles included. -/
def Alike (v w : ParamValue) : Prop := v = w ∨ v.same w = true

/-- Whether the first value is an integer that no double stands for and the second one is a double
next to it. -/
def Rounds (v w : ParamValue) : Prop :=
  ∃ i x, v = .long i ∧ w = .real x ∧ Scalar.isFinite x = true ∧
    (∀ y, Scalar.isFinite y = true → Double.number y ≠ i.toInt) ∧
    ∀ y, Scalar.isFinite y = true → |Double.number x - i.toInt| ≤ |Double.number y - i.toInt|

/-- Whether the first value was cast to the second one in a way that cannot be taken back: truth
values do not become doubles, and large doubles do not become integers. -/
def OneWay (v w : ParamValue) : Prop :=
  (∃ x b, v = .real x ∧ w = .bool b) ∨
    ∃ i x, v = .long i ∧ w = .real x ∧ (wholeBound : ℚ) ≤ |Double.number x|

/-! ### Values that are integers -/

/-- A finite double stands for its number. -/
theorem extended_of_isFinite {x : Float} (h : Scalar.isFinite x = true) :
    Double.extended x = .fin (Double.number x) := by
  rw [Double.extended, Scalar.extend_of_isFinite h]

/-- A double that is an integer is finite, is that number and is small. -/
theorem asInteger?_real {x : Float} :
    (ParamValue.real x).asInteger? = some i ↔
      Scalar.isFinite x = true ∧ Double.number x = i ∧ i.natAbs < wholeBound :=
  Double.wholeBelow?_eq_some_iff

/-- A value that is an integer stands for it. -/
theorem meaning_of_asInteger? (h : v.asInteger? = some i) : v.meaning = .number (.fin i) := by
  cases v with
  | bool b => cases b <;> cases h <;> rfl
  | int k => cases h; rfl
  | long k => cases h; rfl
  | real x =>
    obtain ⟨finite, same, -⟩ := asInteger?_real.mp h
    rw [meaning, extended_of_isFinite finite, same]
  | char => cases h
  | string => cases h

/-- The integer that a value is has 64 bits. -/
theorem range_of_asInteger? (h : v.asInteger? = some i) : -2 ^ 63 ≤ i ∧ i < 2 ^ 63 := by
  cases v with
  | bool b => cases b <;> cases h <;> norm_num
  | int k =>
    cases h
    have := k.toInt_lt
    have := k.le_toInt
    omega
  | long k => cases h; exact ⟨k.le_toInt, k.toInt_lt⟩
  | real x =>
    obtain ⟨-, -, small⟩ := asInteger?_real.mp h
    rw [wholeBound] at small
    omega
  | char => cases h
  | string => cases h

/-- The magnitude of the integer that a value is has 64 bits. -/
theorem abs_of_asInteger? (h : v.asInteger? = some i) : |i| ≤ 2 ^ 63 := by
  obtain ⟨low, high⟩ := range_of_asInteger? h
  exact abs_le.mpr ⟨low, high.le⟩

/-- No text is an integer. -/
theorem not_text_of_asInteger? (h : v.asInteger? = some i) :
    v.type ≠ .char ∧ v.type ≠ .string := by
  cases v with
  | char => cases h
  | string => cases h
  | _ => exact ⟨nofun, nofun⟩

/-- Values of one type that are the same integer are alike. -/
theorem alike_of_asInteger? (type_eq : v.type = w.type) (hv : v.asInteger? = some i)
    (hw : w.asInteger? = some i) : Alike v w := by
  cases v with
  | bool b =>
    cases w <;> cases type_eq
    next c => exact .inl (by cases b <;> cases c <;> cases hv <;> cases hw <;> rfl)
  | int k =>
    cases w <;> cases type_eq
    cases hv
    exact .inl (congrArg _ (Int32.toInt_inj.mp (Option.some_inj.mp hw).symm))
  | long k =>
    cases w <;> cases type_eq
    cases hv
    exact .inl (congrArg _ (Int64.toInt_inj.mp (Option.some_inj.mp hw).symm))
  | real x =>
    cases w <;> cases type_eq
    next y =>
    obtain ⟨finite_x, x_eq, -⟩ := asInteger?_real.mp hv
    obtain ⟨finite_y, y_eq, -⟩ := asInteger?_real.mp hw
    refine .inr ?_
    show (x.toModel.unpack.compare y.toModel.unpack == some .eq) = true
    rw [Double.compare_number finite_x finite_y, x_eq, y_eq, compare_eq_iff_eq.mpr rfl]
    rfl
  | char => cases hv
  | string => cases hv

/-! ### Casts to another type -/

/-- A cast succeeds where the value has a place in the type. -/
theorem cast_eq_ok_iff : v.cast t = .ok w ↔ v.cast? t = some w := by
  unfold cast
  cases v.cast? t <;> simp

/-- A cast gives a value of its target type. -/
theorem type_of_cast (h : v.cast t = .ok w) :
    w.type = t := by
  have found := cast_eq_ok_iff.mp h
  unfold cast? at found
  split_ifs at found with same
  · cases found
    exact same
  · cases t with
    | long =>
      obtain ⟨i, -, rfl⟩ := Option.map_eq_some_iff.mp found
      rfl
    | int =>
      simp only at found
      split at found
      · split_ifs at found
        cases found
        rfl
      · cases found
    | char =>
      simp only at found
      split at found
      · split at found <;> cases found
        rfl
      · cases found
    | _ =>
      simp only at found
      split at found <;> cases found <;> rfl

/-- A cast to a truth value or to an integer keeps the integer. -/
theorem asInteger?_of_cast? (integral : t = .bool ∨ t = .int ∨ t = .long) (other : v.type ≠ t)
    (h : v.cast? t = some w) : ∃ i, v.asInteger? = some i ∧ w.asInteger? = some i := by
  unfold cast? at h
  rw [if_neg other] at h
  rcases integral with rfl | rfl | rfl
  · simp only at h
    split at h
    next zero =>
      cases h
      exact ⟨0, zero, rfl⟩
    next one =>
      cases h
      exact ⟨1, one, rfl⟩
    next => cases h
  · simp only at h
    split at h
    next i whole =>
      split_ifs at h with range
      cases h
      have below : i < 2 ^ 31 := Int.lt_of_le_sub_one range.2
      exact ⟨i, whole, congrArg some (Int32.toInt_ofInt_of_le range.1 below)⟩
    next => cases h
  · obtain ⟨i, whole, rfl⟩ := Option.map_eq_some_iff.mp h
    obtain ⟨low, high⟩ := range_of_asInteger? whole
    exact ⟨i, whole, congrArg some (Int64.toInt_ofInt_of_le low high)⟩

/-- An integer is cast to every type of integers that has a value for it. -/
theorem exists_cast? (integral : t = .bool ∨ t = .int ∨ t = .long) (hv : v.asInteger? = some i)
    (held : ∃ u : ParamValue, u.type = t ∧ u.asInteger? = some i) : ∃ u, v.cast? t = some u := by
  obtain ⟨u, rfl, hu⟩ := held
  by_cases same : v.type = u.type
  · exact ⟨v, if_pos same⟩
  · unfold cast?
    rw [if_neg same]
    cases u with
    | bool b =>
      cases b
      · cases hu
        exact ⟨.bool false, by simp only [type, hv]; rfl⟩
      · cases hu
        exact ⟨.bool true, by simp only [type, hv]; rfl⟩
    | int k =>
      cases hu
      refine ⟨.int (Int32.ofInt k.toInt), ?_⟩
      simp only [type, hv]
      exact if_pos ⟨k.minValue_le_toInt, k.toInt_le⟩
    | long k => exact ⟨.long (Int64.ofInt i), by simp only [type, hv]; rfl⟩
    | _ => rcases integral with h | h | h <;> cases h

/-- A cast to a double takes the double of an integer. -/
theorem eq_of_cast?_real (other : v.type ≠ .real) (h : v.cast? .real = some w) :
    (v.type = .int ∨ v.type = .long) ∧
      ∃ i, v.asInteger? = some i ∧ w = .real (Float.ofInt i) := by
  unfold cast? at h
  rw [if_neg other] at h
  simp only at h
  split at h
  next k =>
    cases h
    exact ⟨.inl rfl, k.toInt, rfl, rfl⟩
  next k =>
    cases h
    exact ⟨.inr rfl, k.toInt, rfl, rfl⟩
  next => cases h

/-- The double of an integer below the bound is read as that integer. -/
theorem asInteger?_ofInt (low : i.natAbs < wholeBound) :
    (ParamValue.real (Float.ofInt i)).asInteger? = some i := by
  have fine : |i| < 2 ^ 53 := by
    rw [Int.abs_eq_natAbs]
    rw [wholeBound] at low
    omega
  obtain ⟨finite, -⟩ := Double.ofInt_spec (fine.le.trans (by norm_num))
  exact asInteger?_real.mpr ⟨finite, Double.ofInt_small fine, low⟩

/-- The double of an integer from the bound on is too large to be read. -/
theorem asInteger?_ofInt_large (small : |i| ≤ 2 ^ 63) (high : wholeBound ≤ i.natAbs) :
    (wholeBound : ℚ) ≤ |Double.number (Float.ofInt i)| ∧
      (ParamValue.real (Float.ofInt i)).asInteger? = none := by
  have large : (wholeBound : ℚ) ≤ |Double.number (Float.ofInt i)| := by
    by_cases fine : |i| < 2 ^ 53
    · rw [Double.ofInt_small fine, ← Int.cast_abs, Int.abs_eq_natAbs]
      exact_mod_cast high
    · have large := Double.ofInt_large small (not_lt.mp fine)
      rw [wholeBound]
      norm_num at large ⊢
      linarith
  refine ⟨large, Option.eq_none_iff_forall_ne_some.mpr fun j read => ?_⟩
  obtain ⟨-, same, below⟩ := asInteger?_real.mp read
  rw [same, ← Int.cast_abs, Int.abs_eq_natAbs] at large
  exact absurd (by exact_mod_cast large) (not_le.mpr below)

/-- Among numbers, what is cast is an integer, and it stays that integer or becomes the double next
to it. -/
theorem cast?_number (numeric : t ≠ .char ∧ t ≠ .string) (other : v.type ≠ t)
    (h : v.cast? t = some w) :
    ∃ i, v.asInteger? = some i ∧ (w.asInteger? = some i ∨
      (v.type = .int ∨ v.type = .long) ∧ w = .real (Float.ofInt i)) := by
  have integral : (t = .bool ∨ t = .int ∨ t = .long) → _ := fun kind =>
    asInteger?_of_cast? kind other h
  cases t with
  | bool => exact (integral (.inl rfl)).imp fun _ => .imp_right .inl
  | int => exact (integral (.inr (.inl rfl))).imp fun _ => .imp_right .inl
  | long => exact (integral (.inr (.inr rfl))).imp fun _ => .imp_right .inl
  | real =>
    obtain ⟨kind, i, hv, hw⟩ := eq_of_cast?_real other h
    exact ⟨i, hv, .inr ⟨kind, hw⟩⟩
  | char => exact absurd rfl numeric.1
  | string => exact absurd rfl numeric.2

/-- Between characters and strings, what is cast is one character. -/
theorem cast?_text (textual : t = .char ∨ t = .string) (other : v.type ≠ t)
    (h : v.cast? t = some w) :
    ∃ c : Char, (v = .char c ∧ w = .string c.toString) ∨ (v = .string c.toString ∧ w = .char c) := by
  unfold cast? at h
  rw [if_neg other] at h
  rcases textual with rfl | rfl
  · simp only at h
    split at h
    next s =>
      split at h
      next c single =>
        cases h
        have : s = c.toString := String.toList_inj.mp (by rw [single]; simp)
        exact ⟨c, .inr ⟨by rw [this], rfl⟩⟩
      next => cases h
    next => cases h
  · simp only at h
    split at h
    next c =>
      cases h
      exact ⟨c, .inl ⟨rfl, rfl⟩⟩
    next => cases h

/-! ### What a cast keeps -/

/-- A value is cast to its own type as it is. -/
theorem cast?_self (v : ParamValue) : v.cast? v.type = some v := by
  unfold cast?
  exact if_pos rfl

/-- What is cast stands for the same, or is rounded. -/
theorem meaning_of_cast? (h : v.cast? t = some w) : w.meaning = v.meaning ∨ Rounds v w := by
  by_cases same : v.type = t
  · subst same
    cases v.cast?_self.symm.trans h
    exact .inl rfl
  by_cases textual : t = .char ∨ t = .string
  · obtain ⟨c, ⟨rfl, rfl⟩ | ⟨rfl, rfl⟩⟩ := cast?_text textual same h
    · exact .inl (by simp [meaning])
    · exact .inl (by simp [meaning])
  obtain ⟨i, hv, hw | ⟨kind, rfl⟩⟩ := cast?_number (not_or.mp textual) same h
  · exact .inl ((meaning_of_asInteger? hw).trans (meaning_of_asInteger? hv).symm)
  have small := abs_of_asInteger? hv
  obtain ⟨finite, nearest⟩ := Double.ofInt_spec small
  by_cases double : ∃ y, Scalar.isFinite y = true ∧ Double.number y = i
  · obtain ⟨y, -, y_eq⟩ := double
    refine .inl ?_
    rw [meaning_of_asInteger? hv, meaning, extended_of_isFinite finite,
      Double.ofInt_exact small y_eq]
  · have none : ∀ y, Scalar.isFinite y = true → Double.number y ≠ i := fun y hy y_eq =>
      double ⟨y, hy, y_eq⟩
    refine .inr ?_
    cases v with
    | int k =>
      cases hv
      have := k.toInt_lt
      have := k.le_toInt
      exact absurd (Double.ofInt_small (by rw [abs_lt]; omega)) (none _ finite)
    | long k =>
      cases hv
      exact ⟨k, _, rfl, rfl, finite, none, fun y _ => nearest _ (Double.onGrid_number y)⟩
    | _ => rcases kind with h | h <;> cases h

/-- What is cast back is what it was. -/
theorem alike_of_cast?_back (h : v.cast? t = some w) (back : w.cast? v.type = some u) :
    Alike u v := by
  have type_w : w.type = t := type_of_cast (cast_eq_ok_iff.mpr h)
  have type_u : u.type = v.type := type_of_cast (cast_eq_ok_iff.mpr back)
  by_cases same : v.type = t
  · subst same
    cases v.cast?_self.symm.trans h
    cases v.cast?_self.symm.trans back
    exact .inl rfl
  have other : w.type ≠ v.type := fun h => same (h.symm.trans type_w)
  by_cases textual : t = .char ∨ t = .string
  · obtain ⟨c, ⟨rfl, rfl⟩ | ⟨rfl, rfl⟩⟩ := cast?_text textual same h
    · obtain ⟨d, ⟨made, -⟩ | ⟨made, rfl⟩⟩ := cast?_text (.inl rfl) other back
      · cases made
      · have letters : c.toString.toList = d.toString.toList := by rw [string.inj made]
        obtain rfl : c = d := by simpa using letters
        exact .inl rfl
    · obtain ⟨d, ⟨made, rfl⟩ | ⟨made, -⟩⟩ := cast?_text (.inr rfl) other back
      · cases made
        exact .inl rfl
      · cases made
  obtain ⟨i, hv, hw⟩ := cast?_number (not_or.mp textual) same h
  obtain ⟨j, hw', hu⟩ := cast?_number (not_text_of_asInteger? hv) other back
  obtain rfl : i = j := by
    rcases hw with hw | ⟨-, rfl⟩
    · exact Option.some_inj.mp (hw.symm.trans hw')
    · by_cases low : i.natAbs < wholeBound
      · exact Option.some_inj.mp ((asInteger?_ofInt low).symm.trans hw')
      · cases (asInteger?_ofInt_large (abs_of_asInteger? hv) (not_lt.mp low)).2.symm.trans hw'
  rcases hu with hu | ⟨-, rfl⟩
  · exact alike_of_asInteger? type_u hu hv
  · cases v <;> cases type_u
    obtain ⟨-, -, low⟩ := asInteger?_real.mp hv
    exact alike_of_asInteger? rfl (asInteger?_ofInt low) hv

/-- What is cast can be cast back, with two exceptions. -/
theorem exists_cast?_back (h : v.cast? t = some w) :
    (∃ u, w.cast? v.type = some u) ∨ OneWay v w := by
  have type_w : w.type = t := type_of_cast (cast_eq_ok_iff.mpr h)
  by_cases same : v.type = t
  · subst same
    cases v.cast?_self.symm.trans h
    exact .inl ⟨v, h⟩
  by_cases textual : t = .char ∨ t = .string
  · obtain ⟨c, ⟨rfl, rfl⟩ | ⟨rfl, rfl⟩⟩ := cast?_text textual same h
    · exact .inl ⟨.char c, by simp [cast?, type]⟩
    · exact .inl ⟨.string c.toString, rfl⟩
  obtain ⟨i, hv, hw⟩ := cast?_number (not_or.mp textual) same h
  by_cases real : v.type = .real
  · rcases hw with hw | ⟨kind, -⟩
    · cases v <;> cases real
      cases w with
      | bool b => exact .inr (.inl ⟨_, b, rfl, rfl⟩)
      | int k => exact .inl ⟨.real (Float.ofInt k.toInt), rfl⟩
      | long k => exact .inl ⟨.real (Float.ofInt k.toInt), rfl⟩
      | real => exact absurd type_w same
      | _ => cases hw
    · rw [real] at kind
      rcases kind with h | h <;> cases h
  have integral : v.type = .bool ∨ v.type = .int ∨ v.type = .long := by
    obtain ⟨char, string⟩ := not_text_of_asInteger? hv
    cases v with
    | bool => exact .inl rfl
    | int => exact .inr (.inl rfl)
    | long => exact .inr (.inr rfl)
    | real => exact absurd rfl real
    | char => exact absurd rfl char
    | string => exact absurd rfl string
  rcases hw with hw | ⟨kind, rfl⟩
  · exact .inl (exists_cast? integral hw ⟨v, rfl, hv⟩)
  · by_cases low : i.natAbs < wholeBound
    · exact .inl (exists_cast? integral (asInteger?_ofInt low) ⟨v, rfl, hv⟩)
    · obtain ⟨large, -⟩ := asInteger?_ofInt_large (abs_of_asInteger? hv) (not_lt.mp low)
      refine .inr (.inr ?_)
      cases v with
      | long k => exact ⟨k, _, rfl, rfl, large⟩
      | int k =>
        cases hv
        have := k.toInt_lt
        have := k.le_toInt
        rw [wholeBound] at low
        omega
      | _ => rcases kind with h | h <;> cases h

/-- A cast gives a value of the type asked for. It stands for the same, unless it is the double
next to an integer that is no double. Where it is cast back it gives what it was, and it is cast
back unless it is a truth value that was a double, or a double that is too large. -/
theorem cast_faithful (h : v.cast t = .ok w) :
    w.type = t ∧ (w.meaning = v.meaning ∨ Rounds v w) ∧
      (∀ u, w.cast v.type = .ok u → Alike u v) ∧
      ∀ e, w.cast v.type = .error e → OneWay v w := by
  have found := cast_eq_ok_iff.mp h
  refine ⟨type_of_cast h, meaning_of_cast? found, fun u back => ?_, fun e refused => ?_⟩
  · exact alike_of_cast?_back found (cast_eq_ok_iff.mp back)
  · refine (exists_cast?_back found).resolve_left ?_
    rintro ⟨u, back⟩
    rw [cast_eq_ok_iff.mpr back] at refused
    cases refused

/-- The integer five becomes the double five, and from there it can only become five again. -/
theorem five_cast :
    (ParamValue.long 5).cast .real = .ok (.real (Float.ofInt 5)) ∧
      (ParamValue.real (Float.ofInt 5)).meaning = .number (.fin 5) ∧
      ∀ u, (ParamValue.real (Float.ofInt 5)).cast .long = .ok u → Alike u (.long 5) := by
  have cast : (ParamValue.long 5).cast .real = .ok (.real (Float.ofInt 5)) := rfl
  obtain ⟨-, meaning | rounds, back, -⟩ := cast_faithful cast
  · exact ⟨cast, meaning, back⟩
  · obtain ⟨_, _, made, -, -, none, -⟩ := rounds
    cases made
    obtain ⟨finite, -⟩ := Double.ofInt_spec (i := 5) (by norm_num)
    exact absurd (Double.ofInt_small (i := 5) (by norm_num)) (none _ finite)

/-- The integer `2 ^ 53 + 1` becomes the double `2 ^ 53`. -/
theorem cast_loses :
    ∃ w, (ParamValue.long 9007199254740993).cast .real = .ok w ∧
      w.meaning = .number (.fin 9007199254740992) ∧
      w.meaning ≠ (ParamValue.long 9007199254740993).meaning := by
  obtain ⟨finite, same⟩ := Double.number_of_unpack (show
    (Float.ofInt 9007199254740993).toModel.unpack = .finite .positive (2 ^ 52) 1 (by norm_num)
    from rfl) rfl
  have meaning_eq : (ParamValue.real (Float.ofInt 9007199254740993)).meaning =
      .number (.fin 9007199254740992) := by
    rw [meaning, extended_of_isFinite finite, same]
    norm_num [Double.amount, Double.factor]
  refine ⟨_, rfl, meaning_eq, ?_⟩
  rw [show (9007199254740993 : Int64).toInt = 9007199254740993 from rfl, meaning_eq]
  decide

end ParamValue

end Milp
