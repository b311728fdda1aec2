import Mathlib.Data.List.Sort
import Mathlib.Data.Prod.Lex
import Milp.Proofs.Number.Quotient
import Milp.Proofs.Random.Range

/-!
# Sampling without replacement

A weighted choice draws once for every weight other than zero, whatever it is asked for, and then
picks the positions in the order of their keys (`choose_takes_first`). So a smaller choice is the
beginning of a larger one. How the keys are sorted is of no concern: whatever puts the first of them
in front and sorts these gives the same positions, because no two entries are alike.

Keys are compared as the doubles that they are. No key is undefined or negative, and among such
doubles the order is that of the numbers, with the infinity at the end (`Double.lt_iff_rank`). A
weight of zero has the key zero, but a positive weight may have it too: if the quotient lies at most
halfway to the least positive double (`overlooked`).
-/

namespace Milp.Random

/-! ### The keys of the positions -/

section Keys

variable {α σ : Type} [Scalar α]

/-- The engine after a number of draws. -/
def after (draw : σ → α × σ) : Nat → σ → σ
  | 0, g => g
  | n + 1, g => after draw n (draw g).2

/-- How many draws the weights take: one each, unless it is zero. -/
def drawCount (weights : List α) : Nat := weights.countP fun w => !(w == 0)

/-- The draw that falls to a position if its weight is not zero. -/
def drawAt (draw : σ → α × σ) (weights : List α) (g : σ) (i : Nat) : α :=
  (draw (after draw (drawCount (weights.take i)) g)).1

/-- The key of a position: the weight over the draw, and zero for a weight of zero. -/
def keyAt (draw : σ → α × σ) (weights : List α) (g : σ) (i : Nat) : α :=
  if weights.getD i 0 == 0 then 0 else weights.getD i 0 / drawAt draw weights g i

/-- The positions with their keys. -/
def keyed (draw : σ → α × σ) (weights : List α) (g : σ) : List (α × Nat) :=
  (List.range weights.length).map fun i => (keyAt draw weights g i, i)

variable {draw : σ → α × σ}

/-- The keys are those of the positions, and the engine is left after the draws that the weights
take. -/
theorem keys_eq {weights : List α} (regular : ∀ w ∈ weights, Scalar.isFinite w = true ∧ ¬w < 0)
    (k : Nat) (g : σ) :
    keys draw k weights g =
      (.ok ((List.range weights.length).map fun i => (keyAt draw weights g i, k + i)),
        after draw (drawCount weights) g) := by
  induction weights generalizing k g with
  | nil => rfl
  | cons w ws ih =>
    obtain ⟨finite, nonneg⟩ := regular w List.mem_cons_self
    have rest := fun g => ih (fun w hw => regular w (List.mem_cons_of_mem _ hw)) (k + 1) g
    have later (g' : σ) (same : ∀ n, after draw (drawCount ((w :: ws).take (n + 1))) g =
        after draw (drawCount (ws.take n)) g') :
        ((List.range ws.length).map fun i => (keyAt draw ws g' i, k + 1 + i)) =
          (List.range ws.length).map
            ((fun i => (keyAt draw (w :: ws) g i, k + i)) ∘ Nat.succ) := by
      refine List.map_congr_left fun i _ => ?_
      simp only [Function.comp, keyAt, drawAt, same, List.getD_cons_succ]
      congr 1
      omega
    rw [keys, finite, if_neg (by simpa using nonneg), List.length_cons,
      List.range_succ_eq_map, List.map_cons, List.map_map]
    by_cases zero : (w == 0) = true
    · have count (l : List α) : drawCount (w :: l) = drawCount l := by simp [drawCount, zero]
      rw [← later g fun n => by rw [List.take_succ_cons, count], count]
      simp only [zero, if_true, rest]
      simp [keyAt, zero]
    · have count (l : List α) : drawCount (w :: l) = drawCount l + 1 := by simp [drawCount, zero]
      rw [← later (draw g).2 fun n => by rw [List.take_succ_cons, count, after], count, after]
      simp only [zero, rest]
      simp [keyAt, drawAt, drawCount, after, zero]

end Keys

/-! ### Selecting and sorting -/

/-- Whether `ys` is what a partial selection makes of `xs`: the entry at `m` is in its place, and
all in front of it belong there. -/
structure Selected {β : Type} (before : β → β → Prop) (m : Nat) (xs ys : List β) : Prop where
  perm : ys.Perm xs
  inside : m < ys.length
  front : ∀ a ∈ ys.take m, before a ys[m]
  back : ∀ b ∈ ys.drop (m + 1), before ys[m] b

/-- There is only one way to put entries in order that have different places. -/
theorem eq_of_ordered {β γ : Type} [LinearOrder γ] {place : β → γ} {xs ys zs : List β}
    (distinct : ∀ a ∈ xs, ∀ b ∈ xs, place a = place b → a = b) (ys_perm : ys.Perm xs)
    (zs_perm : zs.Perm xs) (ys_ordered : ys.Pairwise fun a b => place a ≤ place b)
    (zs_ordered : zs.Pairwise fun a b => place a ≤ place b) : ys = zs := by
  refine List.Perm.eq_of_pairwise (fun a b ha hb ab ba => ?_) ys_ordered zs_ordered
    (ys_perm.trans zs_perm.symm)
  exact distinct a (ys_perm.mem_iff.mp ha) b (zs_perm.mem_iff.mp hb) (ab.antisymm ba)

/-- The entries that a partial selection leaves in front, in order, are the first of all in order,
if the entries have different places in a linear order. -/
theorem Selected.sorted_eq {β γ : Type} [LinearOrder γ] {place : β → γ} {m : Nat}
    {xs ys front sorted : List β} (h : Selected (fun a b => place a ≤ place b) m xs ys)
    (distinct : ∀ a ∈ xs, ∀ b ∈ xs, place a = place b → a = b) (perm : front.Perm (ys.take (m + 1)))
    (ordered : front.Pairwise fun a b => place a ≤ place b) (sorted_perm : sorted.Perm xs)
    (sorted_ordered : sorted.Pairwise fun a b => place a ≤ place b) :
    front = sorted.take (m + 1) := by
  have inside := h.inside
  have split : ys.take (m + 1) = ys.take m ++ [ys[m]] := by
    rw [List.take_add_one, List.getElem?_eq_getElem inside, Option.toList_some]
  have apart : ∀ a ∈ front, ∀ b ∈ ys.drop (m + 1), place a ≤ place b := by
    intro a ha b hb
    have before := perm.mem_iff.mp ha
    rw [split, List.mem_append, List.mem_singleton] at before
    rcases before with earlier | rfl
    · exact (h.front a earlier).trans (h.back b hb)
    · exact h.back b hb
  -- Sorting also what is left behind gives everything in order.
  let rest := (ys.drop (m + 1)).mergeSort fun a b => place a ≤ place b
  have rest_perm : rest.Perm (ys.drop (m + 1)) := List.mergeSort_perm _ _
  have rest_ordered : rest.Pairwise fun a b => place a ≤ place b :=
    (List.pairwise_mergeSort
      (fun a b c ab bc => decide_eq_true ((of_decide_eq_true ab).trans (of_decide_eq_true bc)))
      (fun a b => by simpa using le_total (place a) (place b)) _).imp of_decide_eq_true
  have whole_perm : (front ++ rest).Perm xs :=
    (perm.append rest_perm).trans ((List.take_append_drop (m + 1) ys).symm ▸ h.perm)
  have whole_ordered : (front ++ rest).Pairwise fun a b => place a ≤ place b :=
    List.pairwise_append.mpr ⟨ordered, rest_ordered, fun a ha b hb =>
      apart a ha b (rest_perm.mem_iff.mp hb)⟩
  have same : front ++ rest = sorted :=
    eq_of_ordered distinct whole_perm sorted_perm whole_ordered sorted_ordered
  have size : front.length = m + 1 := by
    rw [perm.length_eq, List.length_take]
    exact min_eq_left inside
  rw [← same, List.take_left' size]

/-! ### The order of the keys -/

/-- Where an entry stands: a larger key first, and an earlier position first. -/
def place (entry : Float × Nat) : Lex ((WithBot (WithTop ℚ))ᵒᵈ × Nat) :=
  toLex (OrderDual.toDual (Double.rank entry.1.toModel.unpack), entry.2)

/-- Entries with defined keys are compared by where they stand. -/
theorem keyBefore_iff {a b : Float × Nat} (ha : a.1.isNaN = false) (hb : b.1.isNaN = false) :
    keyBefore a b = true ↔ place a ≤ place b := by
  simp only [keyBefore, place, Prod.Lex.toLex_le_toLex, OrderDual.toDual_lt_toDual,
    EmbeddingLike.apply_eq_iff_eq, Bool.or_eq_true, Bool.and_eq_true, decide_eq_true_eq,
    Bool.not_eq_true', decide_eq_false_iff_not, Double.lt_iff_rank ha hb, Double.lt_iff_rank hb ha]
  rcases lt_trichotomy (Double.rank a.1.toModel.unpack) (Double.rank b.1.toModel.unpack) with
    less | same | more
  · simp [less, less.not_gt, less.ne]
  · simp [same]
  · simp [more]

section Choice

variable {σ : Type} {draw : σ → Float × σ} {weights : List Float}

/-- No key is undefined or negative if the draws that fall to the positions are positive. -/
theorem keyAt_defined {g : σ} (drawn : ∀ i < weights.length, 0 < drawAt draw weights g i)
    (regular : ∀ w ∈ weights, Scalar.isFinite w = true ∧ ¬w < 0) (i : Nat) :
    (keyAt draw weights g i).isNaN = false ∧ ¬keyAt draw weights g i < 0 := by
  have zero : (0 : Float).isNaN = false ∧ ¬(0 : Float) < 0 := by decide +kernel
  rw [keyAt]
  split
  · exact zero
  next other =>
    by_cases inside : i < weights.length
    · rw [List.getD_eq_getElem _ _ inside] at other ⊢
      obtain ⟨finite, nonneg⟩ := regular _ (List.getElem_mem inside)
      exact Double.quotient_nonneg finite (Double.pos_of_nonneg finite nonneg other)
        (drawn i inside)
    · rw [List.getD_eq_default _ _ (not_lt.mp inside)] at other
      exact absurd rfl other

/-- No key is undefined or negative if all draws are positive. -/
theorem keyAt_regular (positive : ∀ g, 0 < (draw g).1)
    (regular : ∀ w ∈ weights, Scalar.isFinite w = true ∧ ¬w < 0) (g : σ) (i : Nat) :
    (keyAt draw weights g i).isNaN = false ∧ ¬keyAt draw weights g i < 0 :=
  keyAt_defined (fun _ _ => positive _) regular i

/-- The key of a positive weight is positive unless the weight over the draw is at most halfway to
the least positive double. -/
theorem keyAt_pos {g : σ} {i : Nat} (finite : Scalar.isFinite (weights.getD i 0) = true)
    (pos : 0 < weights.getD i 0) (drawn : 0 < drawAt draw weights g i)
    (far : 2 ^ (-1075 : ℤ) <
      Double.number (weights.getD i 0) / Double.number (drawAt draw weights g i)) :
    0 < keyAt draw weights g i := by
  rw [keyAt, if_neg (Bool.eq_false_iff.mp (Double.beq_zero_of_pos pos))]
  exact Double.quotient_pos finite drawn far

/-- The positions in the order of their keys. -/
def pickOrder (draw : σ → Float × σ) (weights : List Float) (g : σ) : List Nat :=
  (List.range weights.length).mergeSort fun i j =>
    keyBefore (keyAt draw weights g i, i) (keyAt draw weights g j, j)

/-- The sorted entries are those of the positions in order. -/
theorem mergeSort_keyed (draw : σ → Float × σ) (weights : List Float) (g : σ) :
    (keyed draw weights g).mergeSort keyBefore =
      (pickOrder draw weights g).map fun i => (keyAt draw weights g i, i) :=
  (List.map_mergeSort (f := fun i => (keyAt draw weights g i, i)) fun _ _ _ _ => rfl).symm

/-- The positions of the sorted entries are the positions in order. -/
theorem map_mergeSort_keyed (draw : σ → Float × σ) (weights : List Float) (g : σ) :
    ((keyed draw weights g).mergeSort keyBefore).map (·.2) = pickOrder draw weights g := by
  rw [mergeSort_keyed, List.map_map]
  exact List.map_id _

/-- Every position stands in the order once. -/
theorem pickOrder_perm (draw : σ → Float × σ) (weights : List Float) (g : σ) :
    (pickOrder draw weights g).Perm (List.range weights.length) :=
  List.mergeSort_perm _ _

/-- The order of the positions is that of their keys, if the draws that fall to them are
positive. -/
theorem pickOrder_sorted {g : σ} (drawn : ∀ i < weights.length, 0 < drawAt draw weights g i)
    (regular : ∀ w ∈ weights, Scalar.isFinite w = true ∧ ¬w < 0) :
    (pickOrder draw weights g).Pairwise fun i j =>
      keyBefore (keyAt draw weights g i, i) (keyAt draw weights g j, j) = true := by
  have before (i j : Nat) := keyBefore_iff (a := (keyAt draw weights g i, i))
    (b := (keyAt draw weights g j, j)) (keyAt_defined drawn regular i).1
    (keyAt_defined drawn regular j).1
  refine List.pairwise_mergeSort (fun i j k ij jk => ?_) (fun i j => ?_) _
  · rw [before] at ij jk ⊢
    exact ij.trans jk
  · rw [Bool.or_eq_true, before, before]
    exact le_total _ _

/-- So it is if all draws are positive. -/
theorem pickOrder_ordered (positive : ∀ g, 0 < (draw g).1)
    (regular : ∀ w ∈ weights, Scalar.isFinite w = true ∧ ¬w < 0) (g : σ) :
    (pickOrder draw weights g).Pairwise fun i j =>
      keyBefore (keyAt draw weights g i, i) (keyAt draw weights g j, j) = true :=
  pickOrder_sorted (fun _ _ => positive _) regular

/-- A choice takes the first positions in the order of the keys. -/
theorem choose_eq_take (regular : ∀ w ∈ weights, Scalar.isFinite w = true ∧ ¬w < 0) (g : σ)
    {n : Nat} (enough : n ≤ weights.length) :
    choose draw n weights g =
      (.ok ((pickOrder draw weights g).take n), after draw (drawCount weights) g) := by
  have drawn : keys draw 0 weights g =
      (.ok (keyed draw weights g), after draw (drawCount weights) g) := by
    simpa [keyed] using keys_eq regular 0 g
  rw [choose, if_neg (not_lt.mpr enough), drawn]
  simp only [List.map_take, map_mergeSort_keyed]

/-- A position of weight zero is picked only if too few keys are positive. -/
theorem positive_keys_few {g : σ} (drawn : ∀ i < weights.length, 0 < drawAt draw weights g i)
    (regular : ∀ w ∈ weights, Scalar.isFinite w = true ∧ ¬w < 0) {n i : Nat}
    (picked : i ∈ (pickOrder draw weights g).take n) (zero : weights.getD i 0 == 0) :
    (List.range weights.length).countP (fun j => 0 < keyAt draw weights g j) < n := by
  have key_eq : keyAt draw weights g i = 0 := by rw [keyAt, if_pos zero]
  have nothing : ¬(0 : Float) < 0 := by decide +kernel
  have split := List.take_append_drop n (pickOrder draw weights g)
  have ordered := pickOrder_sorted drawn regular
  rw [← split, List.pairwise_append] at ordered
  have behind : (List.countP (fun j => decide (0 < keyAt draw weights g j))
      ((pickOrder draw weights g).drop n)) = 0 := by
    refine List.countP_eq_zero.mpr fun j hj => ?_
    have before := ordered.2.2 i picked j hj
    rw [keyBefore, key_eq] at before
    have nonneg := (keyAt_defined drawn regular j).2
    simp [nonneg] at before
    simpa using before.1
  rw [← (pickOrder_perm draw weights g).countP_eq, ← split, List.countP_append, behind,
    Nat.add_zero]
  refine lt_of_lt_of_le (lt_of_le_of_ne List.countP_le_length fun all => ?_)
    (List.length_take_le n _)
  -- Not all that are picked have a positive key: `i` has none.
  have counted := List.countP_eq_length.mp all i picked
  rw [key_eq] at counted
  exact nothing (of_decide_eq_true counted)

/-- So it is if all draws are positive. -/
theorem positive_keys_lt (positive : ∀ g, 0 < (draw g).1)
    (regular : ∀ w ∈ weights, Scalar.isFinite w = true ∧ ¬w < 0) {g : σ} {n i : Nat}
    (picked : i ∈ (pickOrder draw weights g).take n) (zero : weights.getD i 0 == 0) :
    (List.range weights.length).countP (fun j => 0 < keyAt draw weights g j) < n :=
  positive_keys_few (fun _ _ => positive _) regular picked zero

/-- An entry with a key is that of its position. -/
theorem eq_of_mem_keyed {g : σ} {t : Float × Nat} (h : t ∈ keyed draw weights g) :
    t = (keyAt draw weights g t.2, t.2) := by
  obtain ⟨i, -, rfl⟩ := List.mem_map.mp h
  rfl

/-- Different entries stand at different places. -/
theorem eq_of_place_eq {g : σ} {s t : Float × Nat} (hs : s ∈ keyed draw weights g)
    (ht : t ∈ keyed draw weights g) (same : place s = place t) : s = t := by
  have position : s.2 = t.2 := congrArg (fun p => (ofLex p).2) same
  rw [eq_of_mem_keyed hs, eq_of_mem_keyed ht, position]

/-- Entries with their keys are compared by where they stand. -/
theorem keyBefore_keyed_iff (positive : ∀ g, 0 < (draw g).1)
    (regular : ∀ w ∈ weights, Scalar.isFinite w = true ∧ ¬w < 0) {g : σ} {a b : Float × Nat}
    (ha : a ∈ keyed draw weights g) (hb : b ∈ keyed draw weights g) :
    keyBefore a b = true ↔ place a ≤ place b := by
  refine keyBefore_iff ?_ ?_
  · rw [eq_of_mem_keyed ha]
    exact (keyAt_regular positive regular g a.2).1
  · rw [eq_of_mem_keyed hb]
    exact (keyAt_regular positive regular g b.2).1

/-- Sorted entries are in the order of their places. -/
theorem ordered_of_sorted (positive : ∀ g, 0 < (draw g).1)
    (regular : ∀ w ∈ weights, Scalar.isFinite w = true ∧ ¬w < 0) {g : σ}
    {entries : List (Float × Nat)} (among : ∀ a ∈ entries, a ∈ keyed draw weights g)
    (sorted : entries.Pairwise fun a b => keyBefore a b = true) :
    entries.Pairwise fun a b => place a ≤ place b :=
  sorted.imp_of_mem fun ha hb =>
    (keyBefore_keyed_iff positive regular (among _ ha) (among _ hb)).mp

/-- The entries of the positions in order are sorted. -/
theorem ordered_mergeSort_keyed (positive : ∀ g, 0 < (draw g).1)
    (regular : ∀ w ∈ weights, Scalar.isFinite w = true ∧ ¬w < 0) (g : σ) :
    ((keyed draw weights g).mergeSort keyBefore).Pairwise fun a b => place a ≤ place b := by
  refine ordered_of_sorted positive regular
    (fun a ha => (List.mergeSort_perm _ keyBefore).mem_iff.mp ha) ?_
  rw [mergeSort_keyed, List.pairwise_map]
  exact pickOrder_ordered positive regular g

/-- Whatever sorts the entries finds the positions in order. -/
theorem sorted_eq_pickOrder (positive : ∀ g, 0 < (draw g).1)
    (regular : ∀ w ∈ weights, Scalar.isFinite w = true ∧ ¬w < 0) {g : σ}
    {entries : List (Float × Nat)} (perm : entries.Perm (keyed draw weights g))
    (sorted : entries.Pairwise fun a b => keyBefore a b = true) :
    entries.map (·.2) = pickOrder draw weights g := by
  rw [← map_mergeSort_keyed]
  exact congrArg _ (eq_of_ordered (fun a ha b hb => eq_of_place_eq ha hb) perm
    (List.mergeSort_perm _ _)
    (ordered_of_sorted positive regular (fun a ha => perm.mem_iff.mp ha) sorted)
    (ordered_mergeSort_keyed positive regular g))

/-- Whatever selects some of the first entries and sorts these finds them in order. -/
theorem selected_eq_take (positive : ∀ g, 0 < (draw g).1)
    (regular : ∀ w ∈ weights, Scalar.isFinite w = true ∧ ¬w < 0) {g : σ} {m : Nat}
    {selected front : List (Float × Nat)}
    (selection : Selected (fun a b => keyBefore a b = true) m (keyed draw weights g) selected)
    (perm : front.Perm (selected.take (m + 1)))
    (sorted : front.Pairwise fun a b => keyBefore a b = true) :
    front.map (·.2) = (pickOrder draw weights g).take (m + 1) := by
  have among {a : Float × Nat} (ha : a ∈ selected) : a ∈ keyed draw weights g :=
    selection.perm.mem_iff.mp ha
  have before {a b : Float × Nat} (ha : a ∈ selected) (hb : b ∈ selected) :=
    keyBefore_keyed_iff positive regular (among ha) (among hb)
  have placed : Selected (fun a b => place a ≤ place b) m (keyed draw weights g) selected :=
    { perm := selection.perm
      inside := selection.inside
      front := fun a ha => (before (List.mem_of_mem_take ha) (List.getElem_mem _)).mp
        (selection.front a ha)
      back := fun b hb => (before (List.getElem_mem _) (List.mem_of_mem_drop hb)).mp
        (selection.back b hb) }
  have ordered := ordered_of_sorted positive regular
    (fun a ha => among (List.mem_of_mem_take (perm.mem_iff.mp ha))) sorted
  rw [placed.sorted_eq (fun a ha b hb => eq_of_place_eq ha hb) perm ordered
    (List.mergeSort_perm _ keyBefore) (ordered_mergeSort_keyed positive regular g), List.map_take,
    map_mergeSort_keyed]

/-- Let the weights be finite and not negative, and all draws positive. There is an order of the
positions, that of their keys from the largest to the smallest, and of their numbers among equal
keys, such that every choice picks the first of them and leaves the engine after the same draws.
Whatever sorts the entries finds them in this order, and so does whatever selects the first ones and
sorts these. No key is undefined or negative. A position of weight zero is picked only if too few
keys are positive. The key of a positive weight is positive unless the weight over the draw is at
most halfway to the least positive double. -/
theorem choose_takes_first (positive : ∀ g, 0 < (draw g).1)
    (regular : ∀ w ∈ weights, Scalar.isFinite w = true ∧ ¬w < 0) (g : σ) :
    ∃ order : List Nat, order.Perm (List.range weights.length) ∧
      (order.Pairwise fun i j =>
        keyBefore (keyAt draw weights g i, i) (keyAt draw weights g j, j) = true) ∧
      (∀ n ≤ weights.length,
        choose draw n weights g = (.ok (order.take n), after draw (drawCount weights) g)) ∧
      (∀ entries : List (Float × Nat), entries.Perm (keyed draw weights g) →
        entries.Pairwise (fun a b => keyBefore a b = true) → entries.map (·.2) = order) ∧
      (∀ m (selected front : List (Float × Nat)),
        Selected (fun a b => keyBefore a b = true) m (keyed draw weights g) selected →
        front.Perm (selected.take (m + 1)) →
        front.Pairwise (fun a b => keyBefore a b = true) →
        front.map (·.2) = order.take (m + 1)) ∧
      (∀ i, (keyAt draw weights g i).isNaN = false ∧ ¬keyAt draw weights g i < 0) ∧
      (∀ n, ∀ i ∈ order.take n, (weights.getD i 0 == 0) = true →
        (List.range weights.length).countP (fun j => 0 < keyAt draw weights g j) < n) ∧
      ∀ i, 0 < weights.getD i 0 → 2 ^ (-1075 : ℤ) <
        Double.number (weights.getD i 0) / Double.number (drawAt draw weights g i) →
        0 < keyAt draw weights g i := by
  refine ⟨pickOrder draw weights g, pickOrder_perm draw weights g,
    pickOrder_ordered positive regular g,
    fun n enough => choose_eq_take regular g enough,
    fun entries perm sorted => sorted_eq_pickOrder positive regular perm sorted,
    fun m selected front selection perm sorted =>
      selected_eq_take positive regular selection perm sorted,
    keyAt_regular positive regular g,
    fun n i picked zero => positive_keys_lt positive regular picked zero, fun i pos far => ?_⟩
  rw [keyAt]
  split
  next zero => exact absurd zero (Bool.eq_false_iff.mp (Double.beq_zero_of_pos pos))
  next =>
    by_cases inside : i < weights.length
    · rw [List.getD_eq_getElem _ _ inside] at far ⊢
      exact Double.quotient_pos (regular _ (List.getElem_mem inside)).1 (positive _) far
    · rw [List.getD_eq_default _ _ (not_lt.mp inside)] at pos
      exact absurd pos (by decide +kernel)

end Choice

/-- Draws that are one each, counted. -/
def unitDraw (n : Nat) : Float × Nat := (1, n + 1)

/-- Of three weights the two that are not zero are picked. -/
theorem zero_passed_over :
    ∃ picked, choose unitDraw 2 [1, 0, 2] 0 = (.ok picked, 2) ∧ 1 ∉ picked := by
  have regular : ∀ w ∈ [(1 : Float), 0, 2], Scalar.isFinite w = true ∧ ¬w < 0 := by decide +kernel
  have one_pos : (0 : Float) < 1 := by decide +kernel
  have positive : ∀ n, 0 < (unitDraw n).1 := fun _ => one_pos
  obtain ⟨order, -, -, picks, -, -, -, few, -⟩ := choose_takes_first positive regular 0
  refine ⟨order.take 2, picks 2 (by decide), fun picked => ?_⟩
  exact absurd (few 2 1 picked (by decide +kernel)) (by decide +kernel)

/-- The least positive double is overlooked for a weight of zero in front of it, if it is divided by
two. -/
theorem overlooked :
    let weights := [0, Float.ofBits 1]
    let draw := fun n : Nat => ((2 : Float), n + 1)
    (∀ n, 0 < (draw n).1) ∧ (∀ w ∈ weights, Scalar.isFinite w = true ∧ ¬w < 0) ∧
      weights.countP (0 < ·) = 1 ∧ choose draw 1 weights 0 = (.ok [0], 1) := by
  intro weights draw
  have two_pos : (0 : Float) < 2 := by decide +kernel
  have regular : ∀ w ∈ weights, Scalar.isFinite w = true ∧ ¬w < 0 := by decide +kernel
  have order_eq : pickOrder draw weights 0 = [0, 1] :=
    List.mergeSort_of_pairwise (show List.Pairwise _ [0, 1] by decide +kernel)
  refine ⟨fun _ => two_pos, regular, by decide +kernel, ?_⟩
  rw [choose_eq_take regular 0 (by decide), order_eq]
  rfl

end Milp.Random
