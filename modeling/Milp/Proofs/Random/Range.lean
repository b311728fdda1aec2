import Mathlib.Tactic.Ring
import Mathlib.Tactic.SplitIfs
import Milp.Random.Choice

/-!
# Random positions are in range

A bounded draw stays below its bound, and a weighted choice picks as many positions as it is asked
for, all of them positions of the weights and none of them twice. Nothing is assumed of the words
that the engine supplies, except that they have their width.

* `Engine.below_lt` — a draw below a positive bound.
* `length_of_choose`, `lt_of_mem_choose`, `nodup_of_choose` — a weighted choice.
* `exists_choose` — a weighted choice succeeds if the weights are finite and not negative, and if
  there are enough of them.
-/

namespace Milp.Random

namespace Engine

/-- The high half of a product with a word is below the other factor. -/
theorem scaled_high_lt {x bound base : Nat} (hx : x < base) (pos : 0 < bound) :
    x * bound / base < bound :=
  Nat.div_lt_of_lt_mul (Nat.mul_lt_mul_of_pos_right hx pos)

/-- If the low half of a product with a word is so large that a second word decides, the high half
has room for a carry. -/
theorem scaled_carry_lt {x bound base : Nat} (hx : x < base)
    (low : x * bound % base > base - bound) : x * bound / base + 1 < bound := by
  by_contra h
  have split := Nat.div_add_mod (x * bound) base
  have below : x * bound + bound ≤ base * bound := by
    calc x * bound + bound = (x + 1) * bound := by ring
      _ ≤ base * bound := Nat.mul_le_mul_right bound hx
  have rest : x * bound % base < base := Nat.mod_lt _ (Nat.zero_lt_of_lt hx)
  rcases Nat.eq_zero_or_pos bound with zero | pos
  · simp [zero] at low
  · have high : base * (bound - 1) ≤ base * (x * bound / base) :=
      Nat.mul_le_mul_left base (by omega)
    have whole : base * bound = base * (bound - 1) + base := by
      obtain ⟨k, rfl⟩ : ∃ k, bound = k + 1 := ⟨bound - 1, by omega⟩
      simp only [Nat.add_sub_cancel]
      ring
    omega

/-- A bounded draw stays below its bound if the words that it takes have their width. -/
theorem scaledBelow_lt {width : Nat} {next : Engine → Nat × Engine}
    (narrow : ∀ g, (next g).1 < Nat.pow 2 width) {bound : Nat} (pos : 0 < bound) (g : Engine) :
    (scaledBelow width next bound g).1 < bound := by
  have high := scaled_high_lt (narrow g) pos
  simp only [scaledBelow]
  split_ifs with low carry
  · exact scaled_carry_lt (narrow g) low
  · exact high
  · exact high

/-- A position below a positive bound. -/
theorem below_lt {bound : Nat} (pos : 0 < bound) (g : Engine) : (below bound g).1 < bound := by
  unfold below
  split
  · exact scaledBelow_lt (fun g => g.word.1.toNat_lt) pos g
  · exact scaledBelow_lt (fun g => g.long.1.toNat_lt) pos g

end Engine

variable {α σ : Type} [Scalar α] {draw : σ → α × σ}

/-- The keys stand for the positions in order. -/
theorem positions_of_keys {i : Nat} {weights : List α} {g g' : σ} {ks : List (α × Nat)}
    (h : keys draw i weights g = (.ok ks, g')) :
    ks.map (·.2) = List.range' i weights.length := by
  induction weights generalizing i g ks with
  | nil =>
    cases h
    rfl
  | cons w ws ih =>
    rw [keys] at h
    split at h
    · cases h
    · simp only at h
      split at h
      next rest _ drawn =>
        cases h
        rw [List.map_cons, ih drawn, List.length_cons, List.range'_succ]
      next => cases h

/-- A choice that succeeds picks from the sorted keys. -/
theorem choose_eq {count : Nat} {weights : List α} {g g' : σ} {picked : List Nat}
    (h : choose draw count weights g = (.ok picked, g')) :
    count ≤ weights.length ∧ ∃ ks, keys draw 0 weights g = (.ok ks, g') ∧
      picked = ((ks.mergeSort keyBefore).take count).map (·.2) := by
  rw [choose] at h
  split at h
  · cases h
  next enough =>
    refine ⟨Nat.not_lt.mp enough, ?_⟩
    split at h
    next => cases h
    next ks _ drawn =>
      cases h
      exact ⟨ks, drawn, rfl⟩

/-- A choice picks as many positions as it is asked for. -/
theorem length_of_choose {count : Nat} {weights : List α} {g g' : σ} {picked : List Nat}
    (h : choose draw count weights g = (.ok picked, g')) : picked.length = count := by
  obtain ⟨enough, ks, drawn, rfl⟩ := choose_eq h
  have length_eq : ks.length = weights.length := by
    simpa using congrArg List.length (positions_of_keys drawn)
  simp [length_eq, enough]

/-- A choice picks positions of the weights. -/
theorem lt_of_mem_choose {count : Nat} {weights : List α} {g g' : σ} {picked : List Nat}
    (h : choose draw count weights g = (.ok picked, g')) {i : Nat} (hi : i ∈ picked) :
    i < weights.length := by
  obtain ⟨-, ks, drawn, rfl⟩ := choose_eq h
  obtain ⟨key, hkey, rfl⟩ := List.mem_map.mp hi
  have among : key.2 ∈ ks.map (·.2) :=
    List.mem_map_of_mem (List.mem_mergeSort.mp (List.mem_of_mem_take hkey))
  rw [positions_of_keys drawn, List.mem_range'_1] at among
  omega

/-- A choice picks no position twice. -/
theorem nodup_of_choose {count : Nat} {weights : List α} {g g' : σ} {picked : List Nat}
    (h : choose draw count weights g = (.ok picked, g')) : picked.Nodup := by
  obtain ⟨-, ks, drawn, rfl⟩ := choose_eq h
  have sorted : ((ks.mergeSort keyBefore).map (·.2)).Nodup := by
    apply ((List.mergeSort_perm ks keyBefore).map (·.2)).nodup_iff.mpr
    rw [positions_of_keys drawn]
    exact List.nodup_range'
  rw [List.map_take]
  exact sorted.sublist (List.take_sublist count _)

/-- Weights that are finite and not negative all get their keys. -/
theorem exists_keys (draw : σ → α × σ) {weights : List α}
    (regular : ∀ w ∈ weights, Scalar.isFinite w = true ∧ ¬w < 0) (i : Nat) (g : σ) :
    ∃ ks g', keys draw i weights g = (.ok ks, g') := by
  induction weights generalizing i g with
  | nil => exact ⟨[], g, rfl⟩
  | cons w ws ih =>
    obtain ⟨finite, nonneg⟩ := regular w List.mem_cons_self
    rw [keys, finite, if_neg (by simpa using nonneg)]
    simp only
    generalize (if (w == 0) = true then ((0 : α), g) else (w / (draw g).1, (draw g).2)) = first
    obtain ⟨ks, g', drawn⟩ := ih (fun w hw => regular w (List.mem_cons_of_mem _ hw)) (i + 1) first.2
    rw [drawn]
    exact ⟨_, _, rfl⟩

/-- A choice among enough such weights succeeds. -/
theorem exists_choose (draw : σ → α × σ) {weights : List α} {count : Nat}
    (enough : count ≤ weights.length)
    (regular : ∀ w ∈ weights, Scalar.isFinite w = true ∧ ¬w < 0) (g : σ) :
    ∃ picked g', choose draw count weights g = (.ok picked, g') := by
  obtain ⟨ks, g', drawn⟩ := exists_keys draw regular 0 g
  rw [choose, if_neg (not_lt.mpr enough), drawn]
  exact ⟨_, _, rfl⟩

end Milp.Random
