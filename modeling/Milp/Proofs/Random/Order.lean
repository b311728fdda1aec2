import Mathlib.Data.List.Induction
import Mathlib.Data.List.Nodup
import Milp.Random.Order

/-!
# Random orders are permutations

A shuffle only swaps elements, so whatever the engine draws, a random order lists every position
once (`order_perm`). The ranks of such an order are a permutation as well, and the two are inverse
to each other (`inverse_ranks`).
-/

namespace Milp

/-- A swap within an array only reorders it. -/
theorem perm_swapIfInBounds {α : Type} (xs : Array α) (i j : Nat) :
    (xs.swapIfInBounds i j).toList.Perm xs.toList := by
  rw [Array.swapIfInBounds_def]
  split
  · split
    · exact (Array.swap_perm _ _).toList
    · exact .refl _
  · exact .refl _

namespace Random

/-! ### Shuffles -/

/-- The swaps of a shuffle only reorder the elements. -/
theorem Engine.perm_shuffleFrom {β : Type} (count i : Nat) (p : Positions) (xs : Array β)
    (g : Engine) : (shuffleFrom i p count xs g).1.toList.Perm xs.toList := by
  induction count generalizing i p xs g with
  | zero => exact .refl _
  | succ count ih => exact (ih _ _ _ _).trans (perm_swapIfInBounds _ _ _)

/-- A shuffle only reorders the elements. -/
theorem Engine.perm_shuffle {β : Type} (xs : Array β) (g : Engine) :
    (g.shuffle xs).1.toList.Perm xs.toList := by
  unfold shuffle
  split
  · exact .refl _
  · exact perm_shuffleFrom _ _ _ _ _

/-- A random order lists every position once. -/
theorem order_perm (n : Nat) (g : Engine) : (order n g).toList.Perm (List.range n) := by
  rw [← Array.toList_range]
  exact Engine.perm_shuffle _ _

/-! ### Ranks -/

/-- Whether an order of the positions below `n` and their ranks are inverse permutations. -/
structure Inverse (n : Nat) (order ranks : Array Nat) : Prop where
  order_perm : order.toList.Perm (List.range n)
  ranks_perm : ranks.toList.Perm (List.range n)
  inverse : ∀ i v : Nat, order[i]? = some v ↔ ranks[v]? = some i

section Ranks

variable {n : Nat} {order ranks : Array Nat}

/-- An order of the positions below `n` lists each of them at one place. -/
theorem getElem?_inj_of_perm (h : order.toList.Perm (List.range n)) {i j v : Nat}
    (hi : order[i]? = some v) (hj : order[j]? = some v) : i = j := by
  have nodup : order.toList.Nodup := h.nodup_iff.mpr List.nodup_range
  rw [← Array.getElem?_toList] at hi hj
  obtain ⟨inside, -⟩ := List.getElem?_eq_some_iff.mp hi
  exact (List.getElem?_inj inside nodup).mp (hi.trans hj.symm)

/-- Noting places changes the size of no array of ranks. -/
theorem size_noted (l : List (Nat × Nat)) (ranks : Array Nat) :
    (l.foldl (fun ranks (v, i) => ranks.setIfInBounds v i) ranks).size = ranks.size := by
  induction l generalizing ranks with
  | nil => rfl
  | cons e l ih => rw [List.foldl_cons, ih, Array.size_setIfInBounds]

/-- The place of a position is its rank, if no other place has the same position: it is noted there,
and no later place overwrites it. -/
theorem getElem?_noted {l : List Nat} (nodup : l.Nodup) {v i : Nat} (stands : l[i]? = some v)
    (inside : v < ranks.size) :
    (l.zipIdx.foldl (fun ranks (v, i) => ranks.setIfInBounds v i) ranks)[v]? = some i := by
  induction l using List.reverseRecOn with
  | nil => cases stands
  | append_singleton l x ih =>
    obtain ⟨nodup_l, -, apart⟩ := List.nodup_append.mp nodup
    rw [List.zipIdx_append, List.foldl_append]
    simp only [List.zipIdx_singleton, Nat.zero_add, List.foldl_cons, List.foldl_nil]
    rcases Nat.lt_or_ge i l.length with before | last
    · rw [List.getElem?_append_left before] at stands
      have other : x ≠ v :=
        (apart v (List.mem_of_getElem? stands) x (List.mem_singleton_self x)).symm
      rw [Array.getElem?_setIfInBounds_ne other]
      exact ih nodup_l stands
    · rw [List.getElem?_append_right last, List.getElem?_singleton] at stands
      obtain ⟨here, rfl⟩ : i - l.length = 0 ∧ x = v := by simpa using stands
      have place : i = l.length := Nat.le_antisymm (Nat.sub_eq_zero_iff_le.mp here) last
      rw [Array.getElem?_setIfInBounds_self_of_lt (by rwa [size_noted]), place]

/-- What is inverse to an order of the positions below `n` is one as well. -/
theorem perm_of_inverse (h : order.toList.Perm (List.range n))
    (inverse : ∀ i v : Nat, order[i]? = some v ↔ ranks[v]? = some i) :
    ranks.toList.Perm (List.range n) := by
  have size : order.size = n := by simpa using h.length_eq
  have nodup : ranks.toList.Nodup := by
    refine List.nodup_iff_getElem?_ne_getElem?.mpr fun v w less inside same => Nat.ne_of_lt less ?_
    obtain ⟨i, rank⟩ : ∃ i, ranks.toList[w]? = some i := ⟨_, List.getElem?_eq_getElem inside⟩
    rw [rank] at same
    rw [Array.getElem?_toList, ← inverse] at same rank
    exact Option.some.inj (same.symm.trans rank)
  refine (List.perm_ext_iff_of_nodup nodup List.nodup_range).mpr fun i => ?_
  rw [List.mem_range, Array.mem_toList_iff, Array.mem_iff_getElem?]
  simp only [← inverse]
  rw [← size]
  exact ⟨fun ⟨v, stands⟩ => (Array.getElem?_eq_some_iff.mp stands).1,
    fun inside => ⟨_, Array.getElem?_eq_getElem inside⟩⟩

/-- An order and its ranks are inverse permutations. -/
theorem inverse_ranks (h : order.toList.Perm (List.range n)) :
    Inverse n order (Random.ranks order) := by
  have size : order.size = n := by simpa using h.length_eq
  have size_ranks : (Random.ranks order).size = n := by
    rw [Random.ranks, size_noted, Array.size_range, size]
  have nodup : order.toList.Nodup := h.nodup_iff.mpr List.nodup_range
  have ranked {i v : Nat} (stands : order[i]? = some v) : (Random.ranks order)[v]? = some i := by
    have listed := Array.mem_toList_iff.mpr (Array.mem_of_getElem? stands)
    have below : v < n := List.mem_range.mp (h.mem_iff.mp listed)
    exact getElem?_noted nodup (Array.getElem?_toList ▸ stands) (by rwa [Array.size_range, size])
  have inverse (i v : Nat) : order[i]? = some v ↔ (Random.ranks order)[v]? = some i := by
    refine ⟨ranked, fun rank => ?_⟩
    have below : v < n := size_ranks ▸ (Array.getElem?_eq_some_iff.mp rank).1
    have listed : v ∈ order := Array.mem_toList_iff.mp (h.mem_iff.mpr (List.mem_range.mpr below))
    obtain ⟨j, stands⟩ := Array.mem_iff_getElem?.mp listed
    rwa [← Option.some.inj ((ranked stands).symm.trans rank)]
  exact ⟨h, perm_of_inverse h inverse, inverse⟩

example : Random.ranks #[3, 0, 1, 2] = #[1, 2, 3, 0] := by decide

/-- The positions in their own order are their own ranks. -/
theorem inverse_range (n : Nat) : Inverse n (Array.range n) (Array.range n) where
  order_perm := by rw [Array.toList_range]
  ranks_perm := by rw [Array.toList_range]
  inverse i v := by
    simp only [Array.getElem?_eq_some_iff, Array.getElem_range, Array.size_range, exists_prop]
    omega

/-- The ranks of `n` positions are below `n`. -/
theorem getD_lt_of_perm (h : ranks.toList.Perm (List.range n)) {v : Nat} (hv : v < n) :
    ranks.getD v 0 < n := by
  have size : ranks.size = n := by simpa using h.length_eq
  have inside : v < ranks.size := size ▸ hv
  have listed : ranks[v] ∈ List.range n := h.mem_iff.mp (by simp)
  simpa [inside] using listed

/-- Two positions do not share a rank. -/
theorem getD_inj_of_perm (h : ranks.toList.Perm (List.range n)) {v w : Nat} (hv : v < n)
    (hw : w < n) (same : ranks.getD v 0 = ranks.getD w 0) : v = w := by
  have size : ranks.size = n := by simpa using h.length_eq
  have inside : v < ranks.size := size ▸ hv
  have inside' : w < ranks.size := size ▸ hw
  refine getElem?_inj_of_perm h (v := ranks.getD w 0) ?_ ?_
  · rw [← same]
    simp [inside]
  · simp [inside']

end Ranks
end Random
end Milp
