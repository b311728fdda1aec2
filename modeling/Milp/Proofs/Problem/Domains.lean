import Milp.Proofs.Number.Double
import Milp.Proofs.Problem.IntegralBounds

/-!
# The values that a variable is left

A variable of some kind that is added with bounds keeps the values of its kind that lie between them,
neither more nor less (`VariableKind.domain_liesBetween`), and it is refused for its bounds exactly if
there are none (`VariableKind.domain_nonempty`). An undefined upper bound leaves no values, except to
a binary variable, to which it is no bound (`VariableKind.counted`).
-/

namespace Milp

open Scalar (IsInteger)
open Double (number)

/-! ### Values and bounds -/

/-- Whether variables of the kind take the value. -/
def VariableKind.Takes : VariableKind → ℚ → Prop
  | .binary, x => x = 0 ∨ x = 1
  | .integer, x => Whole x
  | .continuous, _ => True

namespace Extended

/-- Whether the bound is at least the value. -/
def IsUpper (u : Extended Float) (x : ℚ) : Prop :=
  match u with
  | .fin y => x ≤ number y
  | .posInf => True
  | _ => False

/-- A bound of a value is one of all smaller values. -/
theorem IsUpper.mono {u : Extended Float} {x y : ℚ} (h : u.IsUpper y) (le : x ≤ y) :
    u.IsUpper x := by
  cases u with
  | fin z => exact le.trans h
  | posInf => trivial
  | negInf => exact h
  | undefined => exact h

/-- Whether the bound is finite if it is a number. -/
def IsProper (u : Extended Float) : Prop := ∀ y, u = .fin y → Scalar.isFinite y = true

/-- What a double stands for is finite if it is a number. -/
theorem isProper_extend (x : Float) : (Scalar.extend x).IsProper := by
  intro y eq
  obtain ⟨finite, rfl⟩ := Scalar.isFinite_of_extend eq
  exact finite

/-- A lower bound that is at most the upper one is a value below it. -/
theorem le_iff_isUpper {l : Float} {u : Extended Float} (finite : Scalar.isFinite l = true)
    (proper : u.IsProper) : (Scalar.extend l).le u = true ↔ u.IsUpper (number l) := by
  rw [Scalar.extend_of_isFinite finite]
  cases u with
  | fin y =>
    show decide (l ≤ y) = true ↔ number l ≤ number y
    rw [decide_eq_true_iff]
    exact Scalar.Faithful.le_iff finite (proper y rfl)
  | posInf => exact iff_of_true rfl trivial
  | negInf => exact iff_of_false Bool.false_ne_true id
  | undefined => exact iff_of_false Bool.false_ne_true id

end Extended

/-- Whether a value lies between the bounds. -/
def LiesBetween (lower : Float) (upper : Extended Float) (x : ℚ) : Prop :=
  number lower ≤ x ∧ upper.IsUpper x

/-- The upper bound that counts: an undefined one is no bound to a binary variable. -/
def VariableKind.counted : VariableKind → Extended Float → Extended Float
  | .binary, .undefined => .posInf
  | _, u => u

variable {kind : VariableKind} {lower upper : Float} {u : Extended Float} {x : ℚ}

/-! ### Rounding bounds inwards -/

/-- A lower bound that is rounded up has the same whole values above it. -/
theorem Double.ceil_le_iff (finite : Scalar.isFinite lower = true) (whole : Whole x) :
    number (Scalar.ceil lower) ≤ x ↔ number lower ≤ x := by
  obtain ⟨n, rfl⟩ := whole
  have ceil_eq : number (Scalar.ceil lower) = ⌈number lower⌉ := (Double.ceil_spec finite).2
  rw [ceil_eq, Int.cast_le, Int.ceil_le]

/-- An upper bound that is rounded down has the same whole values below it. -/
theorem Extended.isUpper_roundedDown (proper : u.IsProper) (whole : Whole x) :
    u.roundedDown.IsUpper x ↔ u.IsUpper x := by
  cases u with
  | fin y =>
    obtain ⟨n, rfl⟩ := whole
    have floor_eq : number (Scalar.floor y) = ⌊number y⌋ := (Double.floor_spec (proper y rfl)).2
    show (n : ℚ) ≤ number (Scalar.floor y) ↔ (n : ℚ) ≤ number y
    rw [floor_eq, Int.cast_le, Int.le_floor]
  | _ => rfl

/-- Rounding a finite upper bound leaves it finite. -/
theorem Extended.IsProper.roundedDown (proper : u.IsProper) : u.roundedDown.IsProper := by
  cases u with
  | fin y =>
    rintro _ ⟨⟩
    exact (Double.floor_spec (proper y rfl)).1
  | _ =>
    intro y eq
    cases eq

/-! ### Cutting bounds to zero and one -/

/-- The larger of zero and a finite lower bound. -/
theorem Double.max_zero (finite : Scalar.isFinite lower = true) :
    Scalar.isFinite (Scalar.max 0 lower) = true ∧
      number (Scalar.max 0 lower) = max 0 (number lower) := by
  have zero : number 0 = 0 := Scalar.Faithful.value_zero (α := Float)
  have order : (0 : Float) < lower ↔ 0 < number lower := by
    rw [← zero]
    exact Scalar.Faithful.lt_iff Scalar.Faithful.finite_zero finite
  rw [Scalar.max, Scalar.Faithful.defined Scalar.Faithful.finite_zero, if_neg Bool.false_ne_true]
  by_cases positive : 0 < lower
  · rw [if_pos positive, max_eq_right (order.mp positive).le]
    exact ⟨finite, rfl⟩
  · rw [if_neg positive, max_eq_left (not_lt.mp fun pos => positive (order.mpr pos))]
    exact ⟨Scalar.Faithful.finite_zero, zero⟩

/-- Cutting an upper bound to one leaves it proper. -/
theorem Extended.IsProper.min_one (proper : u.IsProper) : (u.min (.fin 1)).IsProper := by
  rcases u.min_eq_or (.fin 1) with old | one
  · rw [old]
    exact proper
  · rw [one]
    rintro _ ⟨⟩
    exact Scalar.Faithful.finite_one

/-- Cutting an upper bound to one leaves the values up to one, and all of these where it was
undefined. -/
theorem Extended.isUpper_min_one (proper : u.IsProper) :
    (u.min (.fin 1)).IsUpper x ↔ (VariableKind.binary.counted u).IsUpper x ∧ x ≤ 1 := by
  have one : number 1 = 1 := Scalar.Faithful.value_one (α := Float)
  have cut : (Extended.fin (1 : Float)).IsUpper x ↔ x ≤ 1 := by
    rw [← one]
    exact Iff.rfl
  cases u with
  | fin y =>
    have order : (1 : Float) < y ↔ 1 < number y := by
      rw [← one]
      exact Scalar.Faithful.lt_iff Scalar.Faithful.finite_one (proper y rfl)
    show (if decide (1 < y) = true then fin 1 else fin y).IsUpper x ↔ x ≤ number y ∧ x ≤ 1
    by_cases above : 1 < y
    · rw [if_pos (decide_eq_true above), cut]
      exact ⟨fun h => ⟨h.trans (order.mp above).le, h⟩, And.right⟩
    · rw [if_neg (by simpa using above)]
      exact ⟨fun h => ⟨h, h.trans (not_lt.mp fun gt => above (order.mpr gt))⟩, And.left⟩
  | posInf => exact cut.trans (true_and _).symm.to_iff
  | negInf => exact ⟨False.elim, And.left⟩
  | undefined => exact cut.trans (true_and _).symm.to_iff

/-! ### What a variable is left -/

/-- The bounds of an integral variable are rounded inwards, after they are cut to zero and one if it
is binary. -/
theorem VariableKind.domain_eq (kind : VariableKind) (lower : Float) (u : Extended Float) :
    kind.domain lower u = match kind with
      | .binary => (Scalar.ceil (Scalar.max 0 lower), (u.min (.fin 1)).roundedDown)
      | .integer => (Scalar.ceil lower, u.roundedDown)
      | .continuous => (lower, u) := by
  cases kind <;> rfl

/-- A variable keeps the values of its kind that lie between its bounds, and no others. -/
theorem VariableKind.domain_liesBetween (finite : Scalar.isFinite lower = true) (proper : u.IsProper)
    (takes : kind.Takes x) :
    LiesBetween (kind.domain lower u).1 (kind.domain lower u).2 x ↔
      LiesBetween lower (kind.counted u) x := by
  unfold LiesBetween
  rw [domain_eq]
  cases kind with
  | binary =>
    have whole : Whole x := by
      rcases takes with rfl | rfl
      · exact ⟨0, by simp⟩
      · exact ⟨1, by simp⟩
    -- Cutting to zero and one takes neither value away.
    have unit : 0 ≤ x ∧ x ≤ 1 := by
      rcases takes with rfl | rfl <;> norm_num
    obtain ⟨max_finite, max_eq⟩ := Double.max_zero finite
    simp only [Double.ceil_le_iff max_finite whole, Extended.isUpper_roundedDown proper.min_one whole,
      Extended.isUpper_min_one proper, max_eq, max_le_iff, unit, true_and, and_true]
  | integer =>
    simp only [Double.ceil_le_iff finite takes, Extended.isUpper_roundedDown proper takes]
    cases u <;> rfl
  | continuous => cases u <;> rfl

/-- The bounds that a variable is left are finite, or no upper bound at all. -/
theorem VariableKind.domain_proper (kind : VariableKind) (finite : Scalar.isFinite lower = true)
    (proper : u.IsProper) :
    Scalar.isFinite (kind.domain lower u).1 = true ∧ (kind.domain lower u).2.IsProper := by
  rw [domain_eq]
  cases kind with
  | binary =>
    exact ⟨(Double.ceil_spec (Double.max_zero finite).1).1, proper.min_one.roundedDown⟩
  | integer => exact ⟨(Double.ceil_spec finite).1, proper.roundedDown⟩
  | continuous => exact ⟨finite, proper⟩

/-- The lower bound that a variable is left is a value of its kind, unless it is above the upper
one. -/
theorem VariableKind.takes_domain (finite : Scalar.isFinite lower = true) (proper : u.IsProper)
    (ordered : (kind.domain lower u).2.IsUpper (number (kind.domain lower u).1)) :
    kind.Takes (number (kind.domain lower u).1) := by
  rw [domain_eq] at ordered ⊢
  cases kind with
  | binary =>
    obtain ⟨max_finite, max_eq⟩ := Double.max_zero finite
    have ceil_eq : number (Scalar.ceil (Scalar.max 0 lower)) = ⌈max 0 (number lower)⌉ := by
      rw [← max_eq]
      exact (Double.ceil_spec max_finite).2
    simp only at ordered ⊢
    rw [ceil_eq] at ordered ⊢
    rw [Extended.isUpper_roundedDown proper.min_one ⟨_, rfl⟩, Extended.isUpper_min_one proper]
      at ordered
    have nonneg : 0 ≤ ⌈max 0 (number lower)⌉ := Int.ceil_nonneg (le_max_left 0 _)
    have le_one : ⌈max 0 (number lower)⌉ ≤ 1 := by exact_mod_cast ordered.2
    obtain zero | one : ⌈max 0 (number lower)⌉ = 0 ∨ ⌈max 0 (number lower)⌉ = 1 := by omega
    · exact .inl (by rw [zero, Int.cast_zero])
    · exact .inr (by rw [one, Int.cast_one])
  | integer => exact ⟨_, (Double.ceil_spec finite).2⟩
  | continuous => trivial

/-- A variable is left bounds in order exactly if some value of its kind lies between the bounds
that it is given. -/
theorem VariableKind.domain_nonempty (finite : Scalar.isFinite lower = true)
    (proper : u.IsProper) :
    (Scalar.extend (kind.domain lower u).1).le (kind.domain lower u).2 = true ↔
      ∃ x, kind.Takes x ∧ LiesBetween lower (kind.counted u) x := by
  obtain ⟨lower_finite, upper_proper⟩ := kind.domain_proper finite proper
  rw [Extended.le_iff_isUpper lower_finite upper_proper]
  constructor
  · intro ordered
    have takes := takes_domain finite proper ordered
    exact ⟨_, takes, (domain_liesBetween finite proper takes).mp ⟨le_rfl, ordered⟩⟩
  · rintro ⟨x, takes, admits⟩
    obtain ⟨above, below⟩ := (domain_liesBetween finite proper takes).mpr admits
    exact below.mono above

/-! ### Adding a variable -/

/-- A variable with a new name is added if its coefficient and its lower bound are finite and its
bounds are in order once they are cut and rounded. -/
theorem Problem.addVariable_eq_ok_iff {p q : Problem Float} {name : String}
    (fresh : p.find? name = none) {objective : Float} {v : Var} :
    p.addVariable name kind objective lower u = .ok (v, q) ↔
      Scalar.isFinite objective = true ∧ Scalar.isFinite lower = true ∧
        let d := kind.domain lower u
        (Scalar.extend d.1).le d.2 = true ∧ v = p.size ∧
          q = { p with vars := p.vars.push ⟨name, kind, objective, d.1, d.2⟩ } := by
  simp only [addVariable, fresh, Option.isSome_none, Bool.false_eq_true, if_false,
    Bool.not_eq_true']
  by_cases objective_finite : Scalar.isFinite objective = true
  · by_cases finite : Scalar.isFinite lower = true
    · by_cases ordered : (Scalar.extend (kind.domain lower u).1).le (kind.domain lower u).2 = true
      · simp [objective_finite, finite, ordered, eq_comm]
      · simp [objective_finite, finite, ordered]
    · simp [objective_finite, finite]
  · simp [objective_finite]

/-- A variable with a new name is added exactly if its coefficient and its lower bound are finite,
its upper bound is defined or it is binary, and some value of its kind lies between the bounds. It
keeps exactly the values of its kind that do, and the bounds that are stored are whole for an
integral variable, as far as there are any. -/
theorem Problem.addVariable_exact (p : Problem Float) (name : String) (fresh : p.find? name = none)
    (kind : VariableKind) (objective lower upper : Float) :
    ((∃ v q, p.addVariable name kind objective lower (Scalar.extend upper) = .ok (v, q)) ↔
      Scalar.isFinite objective = true ∧ Scalar.isFinite lower = true ∧
        (upper.isNaN = true → kind = .binary) ∧
        ∃ x, kind.Takes x ∧ LiesBetween lower (kind.counted (Scalar.extend upper)) x) ∧
    ∀ v q, p.addVariable name kind objective lower (Scalar.extend upper) = .ok (v, q) →
      ∃ l u, v = p.size ∧ q = { p with vars := p.vars.push ⟨name, kind, objective, l, u⟩ } ∧
        (∀ x, kind.Takes x →
          (LiesBetween l u x ↔ LiesBetween lower (kind.counted (Scalar.extend upper)) x)) ∧
        (kind.isIntegral = true → IsInteger l ∧ u.IsIntegralUpper) := by
  have proper := Extended.isProper_extend upper
  constructor
  · constructor
    · rintro ⟨v, q, added⟩
      obtain ⟨objective_finite, finite, ordered, -, -⟩ := (addVariable_eq_ok_iff fresh).mp added
      obtain ⟨x, takes, between⟩ := (VariableKind.domain_nonempty finite proper).mp ordered
      refine ⟨objective_finite, finite, fun undefined => ?_, x, takes, between⟩
      -- Nothing lies below an undefined bound that counts.
      rw [Double.isNaN_iff.mp undefined] at between
      cases kind with
      | binary => rfl
      | integer => exact between.2.elim
      | continuous => exact between.2.elim
    · rintro ⟨objective_finite, finite, -, inhabited⟩
      have ordered := (VariableKind.domain_nonempty finite proper).mpr inhabited
      exact ⟨_, _, (addVariable_eq_ok_iff fresh).mpr
        ⟨objective_finite, finite, ordered, rfl, rfl⟩⟩
  · intro v q added
    obtain ⟨-, finite, ordered, rfl, rfl⟩ := (addVariable_eq_ok_iff fresh).mp added
    refine ⟨_, _, rfl, rfl, fun x takes => ?_, fun integral => ?_⟩
    · exact VariableKind.domain_liesBetween finite proper takes
    · exact VariableKind.domain_integral integral finite ordered

/-- Between one half and three and three quarters, a variable that takes whole values is left one,
two and three. -/
theorem Problem.halves_added :
    let p : Problem Float := { name := "bare" }
    p.find? "x" = none ∧ ∃ q l u,
      p.addVariable "x" .integer 1 0.5 (Scalar.extend 3.75) = .ok (0, q) ∧
      q.vars = #[⟨"x", .integer, 1, l, u⟩] ∧ IsInteger l ∧ u.IsIntegralUpper ∧
      ∀ n : ℤ, LiesBetween l u n ↔ 1 ≤ n ∧ n ≤ 3 := by
  intro p
  have fresh : p.find? "x" = none := by simp [p, find?]
  obtain ⟨low_finite, low_eq⟩ := Double.number_of_unpack
    (show (0.5 : Float).toModel.unpack = .finite .positive (2 ^ 52) (-53) (by norm_num) from rfl) rfl
  obtain ⟨high_finite, high_eq⟩ := Double.number_of_unpack
    (show (3.75 : Float).toModel.unpack = .finite .positive (15 * 2 ^ 49) (-51) (by norm_num) from rfl)
    rfl
  have one_finite : Scalar.isFinite (1 : Float) = true := Scalar.Faithful.finite_one
  have given : ∀ n : ℤ, LiesBetween 0.5 (Scalar.extend 3.75) n ↔ 1 ≤ n ∧ n ≤ 3 := by
    intro n
    rw [LiesBetween, Scalar.extend_of_isFinite high_finite]
    show number 0.5 ≤ n ∧ (n : ℚ) ≤ number 3.75 ↔ _
    rw [low_eq, high_eq]
    norm_num [Double.amount, Double.factor]
    rw [← Int.ceil_le, ← Int.le_floor]
    norm_num
  obtain ⟨added, kept⟩ := addVariable_exact p "x" fresh .integer 1 0.5 3.75
  obtain ⟨v, q, eq⟩ := added.mpr ⟨one_finite, low_finite, by decide, 1, ⟨1, by simp⟩,
    by exact_mod_cast (given 1).mpr (by norm_num)⟩
  obtain ⟨l, u, rfl, rfl, same, whole⟩ := kept v q eq
  obtain ⟨l_whole, u_whole⟩ := whole rfl
  refine ⟨fresh, _, l, u, eq, rfl, l_whole, u_whole, fun n => ?_⟩
  exact (same n ⟨n, rfl⟩).trans (given n)

/-- An undefined upper bound is refused for whole values, but not for zero and one. -/
theorem Problem.undefined_upper_added :
    let p : Problem Float := { name := "bare" }
    (0 / 0 : Float).isNaN = true ∧
      p.addVariable "x" .binary 1 0 (Scalar.extend (0 / 0)) =
        .ok (0, { p with vars := #[⟨"x", .binary, 1, 0, .fin 1⟩] }) ∧
      p.addVariable "x" .integer 1 0 (Scalar.extend (0 / 0)) =
        .error (.emptyDomain "x" 0 .undefined) := by
  intro p
  have unused : ¬(p.find? "x").isSome = true := by simp [p, find?]
  refine ⟨by decide, ?_, ?_⟩
  · rw [addVariable, if_neg unused]
    rfl
  · rw [addVariable, if_neg unused]
    rfl

end Milp
