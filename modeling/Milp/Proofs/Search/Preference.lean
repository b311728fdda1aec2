import Milp.Proofs.Random.Exponential
import Milp.Proofs.Search.Selection

/-!
# What a branching rule prefers

The most fractional candidate is found by keeping the best one so far. Finite fractionalities are
compared as the numbers that they are, so with ranks that are all different the candidates stand in
a strict order (`BranchingRule.standing`), and what is kept in the end stands first of all of them,
in whatever order they are looked at.

A random candidate is the one whose key comes first among the weights. A candidate that is not
fractional has the key zero, so it is passed over if there is a positive key. An ordinary draw is at
most `2 ^ 6`, and a fractionality of at least `2 ^ -53` over that does not vanish. A draw is ordinary
unless it is computed with a logarithm, and then if that is bounded (`Random.Engine.TailsBounded`);
the logarithm of zero would be infinite.
-/

namespace Milp

/-! ### The order of candidates -/

/-- Finite doubles are equal if their numbers are. -/
theorem Double.beq_iff_number {x y : Float} (hx : Scalar.isFinite x = true)
    (hy : Scalar.isFinite y = true) : (x == y) = true ↔ number x = number y := by
  show (x.toModel.unpack.compare y.toModel.unpack == some .eq) = true ↔ _
  rw [compare_number hx hy, beq_iff_eq, Option.some_inj, compare_eq_iff_eq]

/-- A fold that keeps what it has if that stands before the next one, and otherwise takes the next
one, ends with what stands first of all. -/
theorem foldl_first {β γ : Type} [LinearOrder γ] (place : β → γ) (among : β → Prop)
    {step : Option β → β → Option β}
    (keeps : ∀ b c, among b → among c →
      step (some b) c = some (if place b < place c then b else c))
    {rest : List β} (all : ∀ c ∈ rest, among c) {b : β} (hb : among b) :
    ∃ m ∈ b :: rest, rest.foldl step (some b) = some m ∧ ∀ c ∈ b :: rest, place m ≤ place c := by
  induction rest generalizing b with
  | nil =>
    refine ⟨b, List.mem_cons_self, rfl, fun c hc => ?_⟩
    rw [List.mem_singleton.mp hc]
  | cons d rest ih =>
    have hd := all d List.mem_cons_self
    have later : ∀ c ∈ rest, among c := fun c hc => all c (List.mem_cons_of_mem d hc)
    rw [List.foldl_cons, keeps b d hb hd]
    split
    next before =>
      obtain ⟨m, hm, found, least⟩ := ih later hb
      refine ⟨m, ?_, found, fun c hc => ?_⟩
      · rcases List.mem_cons.mp hm with rfl | hm
        · exact List.mem_cons_self
        · exact List.mem_cons_of_mem b (List.mem_cons_of_mem d hm)
      · rcases List.mem_cons.mp hc with rfl | hc
        · exact least c List.mem_cons_self
        · rcases List.mem_cons.mp hc with rfl | hc
          · exact (least b List.mem_cons_self).trans before.le
          · exact least c (List.mem_cons_of_mem b hc)
    next behind =>
      obtain ⟨m, hm, found, least⟩ := ih later hd
      refine ⟨m, List.mem_cons_of_mem b hm, found, fun c hc => ?_⟩
      rcases List.mem_cons.mp hc with rfl | hc
      · exact (least d List.mem_cons_self).trans (not_lt.mp behind)
      · exact least c hc

namespace BranchingRule

/-- Where a candidate stands: a more fractional one first, and of equal ones that of the smaller
rank. -/
def standing (rank : Array Nat) (c : Var × Float) : Lex (ℚᵒᵈ × ℕ) :=
  toLex (OrderDual.toDual (Double.number c.2), rank.getD c.1 0)

/-- The candidate in hand is kept if it stands before the next one. -/
theorem kept_iff (rank : Array Nat) {b c : Var × Float} (hb : Scalar.isFinite b.2 = true)
    (hc : Scalar.isFinite c.2 = true) :
    (c.2 < b.2 || (b.2 == c.2 && rank.getD b.1 0 < rank.getD c.1 0)) = true ↔
      standing rank b < standing rank c := by
  rw [standing, standing, Prod.Lex.toLex_lt_toLex, OrderDual.toDual_lt_toDual,
    EmbeddingLike.apply_eq_iff_eq, Bool.or_eq_true, Bool.and_eq_true, decide_eq_true_eq,
    decide_eq_true_eq, Double.beq_iff_number hb hc, Scalar.Faithful.lt_iff hc hb]
  rfl

/-- A candidate does not stand behind another one if that is not more fractional and, where it is as
fractional, has no smaller rank. -/
theorem standing_le_iff (rank : Array Nat) {b c : Var × Float} (hb : Scalar.isFinite b.2 = true)
    (hc : Scalar.isFinite c.2 = true) :
    standing rank b ≤ standing rank c ↔
      ¬b.2 < c.2 ∧ (c.2 == b.2 → rank.getD b.1 0 ≤ rank.getD c.1 0) := by
  rw [standing, standing, Prod.Lex.toLex_le_toLex, OrderDual.toDual_lt_toDual,
    EmbeddingLike.apply_eq_iff_eq, Double.beq_iff_number hc hb, Scalar.Faithful.lt_iff hb hc]
  show Double.number c.2 < Double.number b.2 ∨ _ ↔ ¬Double.number b.2 < Double.number c.2 ∧ _
  rcases lt_trichotomy (Double.number b.2) (Double.number c.2) with less | same | more
  · simp [less, less.not_gt, less.ne]
  · simp [same]
  · simp [more, more.not_gt, more.ne]

/-- The most fractional candidate stands first of all candidates. -/
theorem mostFractionalOf_first (rank : Array Nat) {candidates : List (Var × Float)}
    (finite : ∀ c ∈ candidates, Scalar.isFinite c.2 = true) (nonempty : candidates ≠ []) :
    ∃ m ∈ candidates, mostFractionalOf rank candidates = some m ∧
      ∀ c ∈ candidates, standing rank m ≤ standing rank c := by
  obtain ⟨b, rest, rfl⟩ := List.exists_cons_of_ne_nil nonempty
  refine foldl_first (standing rank) (fun c => Scalar.isFinite c.2 = true) (fun b c hb hc => ?_)
    (fun c hc => finite c (List.mem_cons_of_mem b hc)) (finite b List.mem_cons_self)
  simp only [kept_iff rank hb hc]
  split <;> rfl

/-- The most fractional candidate does not depend on the order of the candidates, if no two of them
have the same rank. -/
theorem mostFractionalOf_perm {rank : Array Nat} {candidates candidates' : List (Var × Float)}
    (same : candidates'.Perm candidates)
    (finite : ∀ c ∈ candidates, Scalar.isFinite c.2 = true)
    (ranked : ∀ b ∈ candidates, ∀ c ∈ candidates,
      rank.getD b.1 0 = rank.getD c.1 0 → b = c) :
    mostFractionalOf rank candidates' = mostFractionalOf rank candidates := by
  by_cases none : candidates = []
  · subst none
    rw [same.eq_nil]
  · have some : candidates' ≠ [] := fun empty => none (same.symm.trans (.of_eq empty)).eq_nil
    obtain ⟨m, hm, found, first⟩ := mostFractionalOf_first rank finite none
    obtain ⟨m', hm', found', first'⟩ := mostFractionalOf_first rank
      (fun c hc => finite c (same.mem_iff.mp hc)) some
    have among := same.mem_iff.mp hm'
    have equal := (first' m (same.mem_iff.mpr hm)).antisymm (first m' among)
    have ranks : rank.getD m'.1 0 = rank.getD m.1 0 := congrArg (fun p => (ofLex p).2) equal
    rw [found, found', ranked m' among m hm ranks]

/-- The first index does not depend on the order of the candidates. -/
theorem min?_perm {candidates candidates' : List Var} (same : candidates'.Perm candidates) :
    candidates'.min? = candidates.min? := by
  cases least : candidates.min? with
  | none =>
    rw [List.min?_eq_none_iff] at least ⊢
    exact (same.trans (.of_eq least)).eq_nil
  | some v =>
    rw [List.min?_eq_some_iff] at least ⊢
    exact ⟨same.mem_iff.mpr least.1, fun w hw => least.2 w (same.mem_iff.mp hw)⟩

end BranchingRule

/-! ### Random candidates -/

namespace Random.Engine.TailsBounded

variable {g : Engine} {weights : List Float}

/-- The draw that falls to a position is ordinary. -/
theorem drawAt (bounded : g.TailsBounded weights.length) {i : ℕ} (inside : i < weights.length) :
    Ordinary (drawAt exponentialScalar weights g i) := by
  have early : drawCount (weights.take i) < weights.length :=
    (List.countP_le_length.trans (List.length_take_le i weights)).trans_lt inside
  exact bounded.ordinary early

/-- A weight of at least `2 ^ -53` has a positive key. -/
theorem keyAt_pos (bounded : g.TailsBounded weights.length) {i : ℕ} (inside : i < weights.length)
    (finite : Scalar.isFinite (weights.getD i 0) = true)
    (large : 2 ^ (-53 : ℤ) ≤ Double.number (weights.getD i 0)) :
    0 < keyAt exponentialScalar weights g i := by
  have draw := bounded.drawAt inside
  have unit : (0 : ℚ) < 2 ^ (-53 : ℤ) := Double.place_pos _
  have weight_pos : 0 < weights.getD i 0 := (Scalar.pos_iff finite).mpr (unit.trans_le large)
  refine Random.keyAt_pos finite weight_pos draw.pos ?_
  calc (2 : ℚ) ^ (-1075 : ℤ)
      < 2 ^ (-59 : ℤ) := zpow_lt_zpow_right₀ one_lt_two (by norm_num)
    _ = 2 ^ (-53 : ℤ) / 2 ^ (6 : ℤ) := by rw [← zpow_sub₀ two_ne_zero]; rfl
    _ ≤ _ := div_le_div₀ (unit.le.trans large) large draw.number_pos draw.high

/-- A single choice picks a position of positive weight if there is a weight of at least
`2 ^ -53`. -/
theorem choose_one (bounded : g.TailsBounded weights.length)
    (regular : ∀ w ∈ weights, Scalar.isFinite w = true ∧ ¬w < 0) {j : ℕ} (inside : j < weights.length)
    (large : 2 ^ (-53 : ℤ) ≤ Double.number (weights.getD j 0)) :
    ∃ i < weights.length, ∃ g', choose exponentialScalar 1 weights g = (.ok [i], g') ∧
      0 < weights.getD i 0 := by
  have regularAt {k : ℕ} (within : k < weights.length) :
      Scalar.isFinite (weights.getD k 0) = true ∧ ¬weights.getD k 0 < 0 := by
    rw [List.getD_eq_getElem _ _ within]
    exact regular _ (List.getElem_mem within)
  have chosen : choose exponentialScalar 1 weights g = _ :=
    choose_eq_take regular g (Nat.one_le_of_lt inside)
  obtain ⟨i, picked⟩ := List.length_eq_one_iff.mp (length_of_choose chosen)
  have i_inside : i < weights.length := by
    refine lt_of_mem_choose chosen ?_
    rw [picked]
    exact List.mem_cons_self
  -- The key of `j` is positive, and so `i` would not have been picked with the key zero.
  have nonzero : ¬(weights.getD i 0 == 0) = true := by
    intro zero
    have among : i ∈ (pickOrder exponentialScalar weights g).take 1 := by
      rw [picked]
      exact List.mem_cons_self
    have few := positive_keys_few (fun k within => (bounded.drawAt within).pos) regular among zero
    have none := List.countP_eq_zero.mp (Nat.lt_one_iff.mp few) j (List.mem_range.mpr inside)
    exact none (decide_eq_true (bounded.keyAt_pos inside (regularAt inside).1 large))
  obtain ⟨finite, nonneg⟩ := regularAt i_inside
  exact ⟨i, i_inside, _, by rw [chosen, picked], Double.pos_of_nonneg finite nonneg nonzero⟩

end Random.Engine.TailsBounded

namespace BranchingRule

open Milp.Random

/-- The candidates of a weighted choice are picked by their keys. If one of them is fractional
enough to have a positive key, none is picked that is not fractional. -/
theorem weighted_positive {candidates : List (Var × Float)}
    (regular : ∀ c ∈ candidates, Scalar.isFinite c.2 = true ∧ ¬c.2 < 0) {g : Engine}
    (bounded : g.TailsBounded candidates.length)
    (fractional : ∃ c ∈ candidates, 2 ^ (-53 : ℤ) ≤ Double.number c.2) :
    ∃ c ∈ candidates, (weighted candidates g).1 = some c.1 ∧ 0 < c.2 := by
  have length_eq : (candidates.map (·.2)).length = candidates.length := List.length_map _
  have weightAt {i : ℕ} (inside : i < candidates.length) :
      (candidates.map (·.2)).getD i 0 = candidates[i].2 := by
    rw [List.getD_eq_getElem _ _ (length_eq ▸ inside), List.getElem_map]
  have regular' : ∀ w ∈ candidates.map (·.2), Scalar.isFinite w = true ∧ ¬w < 0 := by
    simpa using fun w v h => regular (v, w) h
  rw [← length_eq] at bounded
  obtain ⟨c, hc, large⟩ := fractional
  obtain ⟨j, j_inside, rfl⟩ := List.mem_iff_getElem.mp hc
  obtain ⟨i, i_inside, g', chosen, positive⟩ := bounded.choose_one regular' (length_eq ▸ j_inside)
    ((weightAt j_inside).symm ▸ large)
  rw [length_eq] at i_inside
  rw [weightAt i_inside] at positive
  have anyone : (candidates.map (·.2)).any (0 < ·) = true := by
    rw [List.any_map, List.any_eq_true]
    exact ⟨_, List.getElem_mem i_inside, decide_eq_true positive⟩
  refine ⟨candidates[i], List.getElem_mem i_inside, ?_, positive⟩
  simp only [weighted, chosen, anyone]
  simp [i_inside]

/-! ### Rules -/

/-- The candidates with their fractionalities. -/
def scored (values : Array Float) (candidates : List Var) : List (Var × Float) :=
  candidates.map fun v => (v, Scalar.fractionality (values.getD v 0))

section

variable {candidates : List Var} {values : Array Float} {rank : Array Nat}

/-- Fractionalities of finite values are finite and not negative. -/
theorem regular_of_mem_scored
    (finite : ∀ v ∈ candidates, Scalar.isFinite (values.getD v 0) = true) {c : Var × Float}
    (hc : c ∈ scored values candidates) : Scalar.isFinite c.2 = true ∧ ¬c.2 < 0 := by
  obtain ⟨v, hv, rfl⟩ := List.mem_map.mp hc
  exact Scalar.fractionality_spec (finite v hv)

/-- Without candidates nothing is picked. -/
theorem select_nil (r : BranchingRule) (values : Array Float) (rank : Array Nat) (g : Engine) :
    (r.select [] values rank g).1 = none := by
  cases r <;> rfl

/-- No candidate is more fractional than the most fractional one, and none that is as fractional has
a smaller rank. -/
theorem mostFractional_first
    (finite : ∀ v ∈ candidates, Scalar.isFinite (values.getD v 0) = true) {g : Engine} {v w : Var}
    (found : (mostFractional.select candidates values rank g).1 = some v) (hw : w ∈ candidates) :
    ¬Scalar.fractionality (values.getD v 0) < Scalar.fractionality (values.getD w 0) ∧
      (Scalar.fractionality (values.getD w 0) == Scalar.fractionality (values.getD v 0) →
        rank.getD v 0 ≤ rank.getD w 0) := by
  have hw' : (w, Scalar.fractionality (values.getD w 0)) ∈ scored values candidates :=
    List.mem_map_of_mem hw
  obtain ⟨c, hc, best, first⟩ := mostFractionalOf_first rank
    (fun c hc => (regular_of_mem_scored finite hc).1) (List.ne_nil_of_mem hw')
  obtain ⟨u, hu, rfl⟩ := List.mem_map.mp hc
  have found' : (mostFractionalOf rank (scored values candidates)).map (·.1) = some v := found
  rw [best] at found'
  obtain rfl : u = v := Option.some_inj.mp found'
  exact (standing_le_iff rank (regular_of_mem_scored finite hc).1
    (regular_of_mem_scored finite hw').1).mp (first _ hw')

/-- The rules that are not random pick the same for every order of the candidates, and leave the
engine as it is. -/
theorem select_perm (finite : ∀ v ∈ candidates, Scalar.isFinite (values.getD v 0) = true)
    (ranked : ∀ v ∈ candidates, ∀ w ∈ candidates, rank.getD v 0 = rank.getD w 0 → v = w)
    {r : BranchingRule} (ordered : r ≠ .random) {candidates' : List Var}
    (same : candidates'.Perm candidates) (g g' : Engine) :
    r.select candidates' values rank g' = ((r.select candidates values rank g).1, g') := by
  cases r with
  | random => exact absurd rfl ordered
  | firstIndex => exact congrArg (·, g') (min?_perm same)
  | mostFractional =>
    have alike : mostFractionalOf rank (scored values candidates') =
        mostFractionalOf rank (scored values candidates) := by
      refine mostFractionalOf_perm (same.map _)
        (fun c hc => (regular_of_mem_scored finite hc).1) fun b hb c hc ranks => ?_
      obtain ⟨v, hv, rfl⟩ := List.mem_map.mp hb
      obtain ⟨w, hw, rfl⟩ := List.mem_map.mp hc
      rw [ranked v hv w hw ranks]
    exact congrArg (fun best => (best.map (·.1), g')) alike

/-- A random candidate is fractional if one of them is, by `2 ^ -53` or more, and the logarithms of
the draws are bounded. -/
theorem random_positive (finite : ∀ v ∈ candidates, Scalar.isFinite (values.getD v 0) = true)
    {g : Engine} (bounded : g.TailsBounded candidates.length) {w : Var} (hw : w ∈ candidates)
    (fractional : 2 ^ (-53 : ℤ) ≤ Double.number (Scalar.fractionality (values.getD w 0))) {v : Var}
    (found : (random.select candidates values rank g).1 = some v) :
    0 < Scalar.fractionality (values.getD v 0) := by
  have bounded' : g.TailsBounded (scored values candidates).length := by
    rwa [scored, List.length_map]
  obtain ⟨c, hc, picked, positive⟩ := weighted_positive
    (fun c hc => regular_of_mem_scored finite hc) bounded'
    ⟨_, List.mem_map_of_mem hw, fractional⟩
  obtain ⟨u, -, rfl⟩ := List.mem_map.mp hc
  obtain rfl : u = v := Option.some_inj.mp (picked.symm.trans found)
  exact positive

end

/-- Let the values of the candidates be finite and their ranks different. Every rule picks nothing
if there are no candidates, and else one of them. The most fractional rule picks a candidate such
that none is more fractional and none that is as fractional has a smaller rank; what it picks and
what the first index rule picks does not depend on the order of the candidates, and neither of them
touches the engine. If a candidate is fractional by `2 ^ -53` or more, and the logarithms that the
draws of the engine take are bounded, the random rule picks one of positive fractionality. -/
theorem select_prefers {candidates : List Var} {values : Array Float} {rank : Array Nat}
    (finite : ∀ v ∈ candidates, Scalar.isFinite (values.getD v 0) = true)
    (ranked : ∀ v ∈ candidates, ∀ w ∈ candidates, rank.getD v 0 = rank.getD w 0 → v = w)
    (g : Engine) :
    let score := fun v => Scalar.fractionality (values.getD v 0)
    let picked := fun r : BranchingRule => (r.select candidates values rank g).1
    (∀ r, (picked r = none ↔ candidates = []) ∧ ∀ v, picked r = some v → v ∈ candidates) ∧
      (∀ v, picked .mostFractional = some v → ∀ w ∈ candidates,
        ¬score v < score w ∧ (score w == score v → rank.getD v 0 ≤ rank.getD w 0)) ∧
      (∀ r ≠ .random, ∀ candidates' : List Var, candidates'.Perm candidates → ∀ g',
        r.select candidates' values rank g' = (picked r, g')) ∧
      (g.TailsBounded candidates.length → (∃ w ∈ candidates, 2 ^ (-53 : ℤ) ≤ Double.number (score w)) →
        ∀ v, picked .random = some v → 0 < score v) := by
  intro score picked
  refine ⟨fun r => ?_, fun v found w hw => mostFractional_first finite found hw,
    fun r ordered candidates' same g' => select_perm finite ranked ordered same g g', ?_⟩
  · by_cases empty : candidates = []
    · have none : picked r = none := by
        show (r.select candidates values rank g).1 = none
        rw [empty, select_nil]
      rw [none]
      exact ⟨iff_of_true rfl empty, nofun⟩
    · obtain ⟨v, hv, found⟩ := select_mem r empty values rank g
      have some : picked r = some v := found
      rw [some]
      refine ⟨iff_of_false nofun empty, fun w same => ?_⟩
      cases same
      exact hv
  · rintro bounded ⟨w, hw, fractional⟩ v found
    exact random_positive finite bounded hw fractional found

/-- Of two candidates, one of them whole, the random rule picks one that is not whole, and the most
fractional rule the second one, in whatever order they come. -/
theorem pair_preferred :
    let candidates : List Var := [0, 1]
    let values : Array Float := #[1, 2.25]
    let rank := #[1, 0]
    let g := Engine.ofSeed 7
    (∀ v ∈ candidates, Scalar.isFinite (values.getD v 0) = true) ∧
      (∀ v ∈ candidates, ∀ w ∈ candidates, rank.getD v 0 = rank.getD w 0 → v = w) ∧
      g.TailsBounded candidates.length ∧
      (∃ v ∈ candidates, (random.select candidates values rank g).1 = some v ∧
        0 < Scalar.fractionality (values.getD v 0)) ∧
      (mostFractional.select [1, 0] values rank g) = (some 1, g) := by
  intro candidates values rank g
  have finite : ∀ v ∈ candidates, Scalar.isFinite (values.getD v 0) = true := by decide +kernel
  have ranked : ∀ v ∈ candidates, ∀ w ∈ candidates, rank.getD v 0 = rank.getD w 0 → v = w := by
    decide
  have bounded : g.TailsBounded candidates.length := by
    have inside : ∀ i < 2, (after (exponentialScalar : Engine → Float × Engine) i g).tail? = none := by
      decide +kernel
    intro i hi u tail
    cases (inside i hi).symm.trans tail
  have fractional : ∃ w ∈ candidates,
      2 ^ (-53 : ℤ) ≤ Double.number (Scalar.fractionality (values.getD w 0)) :=
    ⟨1, by decide, by decide +kernel⟩
  obtain ⟨picks, -, alike, positive⟩ := select_prefers finite ranked g
  have some : (random.select candidates values rank g).1 ≠ none := fun none =>
    List.cons_ne_nil _ _ ((picks random).1.mp none)
  obtain ⟨v, found⟩ := Option.ne_none_iff_exists'.mp some
  have halfway : (mostFractional.select candidates values rank g).1 = Option.some 1 := by
    decide +kernel
  refine ⟨finite, ranked, bounded,
    ⟨v, (picks random).2 v found, found, positive bounded fractional v found⟩, ?_⟩
  rw [← halfway]
  exact alike mostFractional (by decide) [1, 0] (by decide) g

end BranchingRule
end Milp
