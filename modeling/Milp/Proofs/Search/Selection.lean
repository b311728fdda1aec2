import Milp.Proofs.Random.Range
import Milp.Search.Rule

/-!
# A branching rule picks a candidate

Whatever the rule, the values, the ranks and the random engine: where there are candidates one of
them is picked (`BranchingRule.select_mem`). The search relies on it, since a node for which
nothing is picked would be lost.
-/

namespace Milp.BranchingRule

variable {α : Type} [Scalar α]

/-- A fold that keeps the element in hand or takes the next one ends with an element in hand or of
the list. -/
theorem foldl_mem {β : Type} {f : Option β → β → Option β}
    (keepsOrTakes : ∀ c d, f (some c) d = some c ∨ f (some c) d = some d) (rest : List β) (c : β) :
    ∃ e ∈ c :: rest, rest.foldl f (some c) = some e := by
  induction rest generalizing c with
  | nil => exact ⟨c, List.mem_cons_self, rfl⟩
  | cons d rest ih =>
    rw [List.foldl_cons]
    rcases keepsOrTakes c d with h | h <;> rw [h]
    · obtain ⟨e, he, found⟩ := ih c
      refine ⟨e, ?_, found⟩
      rcases List.mem_cons.mp he with rfl | he
      · exact List.mem_cons_self
      · exact List.mem_cons_of_mem c (List.mem_cons_of_mem d he)
    · obtain ⟨e, he, found⟩ := ih d
      exact ⟨e, List.mem_cons_of_mem c he, found⟩

/-- The most fractional candidate is one of the candidates. -/
theorem mostFractionalOf_mem (rank : Array Nat) {candidates : List (Var × α)}
    (h : candidates ≠ []) : ∃ c ∈ candidates, mostFractionalOf rank candidates = some c := by
  obtain ⟨c, rest, rfl⟩ := List.exists_cons_of_ne_nil h
  refine foldl_mem (fun c d => ?_) rest c
  simp only
  split
  · exact .inl rfl
  · exact .inr rfl

/-- A candidate is picked with equal chances. -/
theorem uniform_mem {candidates : List Var} (h : candidates ≠ []) (g : Random.Engine) :
    ∃ v ∈ candidates, (uniform candidates g).1 = some v := by
  have pos : 0 < candidates.length := List.length_pos_iff.mpr h
  have inside := Random.Engine.below_lt pos g
  refine ⟨candidates[(g.below candidates.length).1], List.getElem_mem inside, ?_⟩
  rw [uniform, if_neg (by simpa using h)]
  exact List.getElem?_eq_getElem inside

/-- A candidate is picked with chances in proportion. -/
theorem weighted_mem {candidates : List (Var × α)} (h : candidates ≠ []) (g : Random.Engine) :
    ∃ v ∈ candidates.map (·.1), (weighted candidates g).1 = some v := by
  have anyone : ∀ g, ∃ v ∈ candidates.map (·.1), (uniform (candidates.map (·.1)) g).1 = some v :=
    uniform_mem (by simpa using h)
  simp only [weighted]
  split
  next picked _ chosen =>
    split
    · obtain ⟨i, rfl⟩ := List.length_eq_one_iff.mp (Random.length_of_choose chosen)
      have inside : i < candidates.length := by
        simpa using Random.lt_of_mem_choose chosen List.mem_cons_self
      refine ⟨candidates[i].1, List.mem_map_of_mem (List.getElem_mem inside), ?_⟩
      simp [inside]
    · exact anyone _
  next => exact anyone _

/-- Where there are candidates, every rule picks one of them. -/
theorem select_mem (r : BranchingRule) {candidates : List Var} (h : candidates ≠ [])
    (values : Array α) (rank : Array Nat) (g : Random.Engine) :
    ∃ v ∈ candidates, (r.select candidates values rank g).1 = some v := by
  have scored : ∀ f : Var → α, candidates.map (fun v => (v, f v)) ≠ [] := by simpa using h
  cases r with
  | firstIndex =>
    obtain ⟨v, hv⟩ := Option.isSome_iff_exists.mp (List.isSome_min?_of_ne_nil h)
    exact ⟨v, List.min?_mem hv, hv⟩
  | mostFractional =>
    obtain ⟨c, hc, found⟩ := mostFractionalOf_mem rank
      (scored fun v => Scalar.fractionality (values.getD v 0))
    obtain ⟨v, hv, rfl⟩ := List.mem_map.mp hc
    refine ⟨v, hv, ?_⟩
    show (mostFractionalOf rank _).map (·.1) = some v
    rw [found]
    rfl
  | random =>
    obtain ⟨v, hv, found⟩ := weighted_mem (scored _) g
    rw [List.map_map, List.mem_map] at hv
    obtain ⟨w, hw, rfl⟩ := hv
    exact ⟨w, hw, found⟩

end Milp.BranchingRule
