import Milp.Proofs.Number.Exact
import Milp.Proofs.Relaxation.Pivot
import Milp.Relaxation.Simplex

/-!
# What a run of the simplex method ends with

A run chooses a column with a negative price and the row with the smallest ratio, and pivots there.
`Reaches` says what such pivots keep: the tableau stays canonical, its basic solution stays
non-negative, it has the solutions of the first one, and a row that is solved for a column from the
limit on stays idle. What the run ends with is read off the last tableau:

* `run_optimal` — no column below the limit has a negative price, and so no feasible point costs
  less than the basic solution (`Reaches.value_le`).
* `run_unbounded` — a column with a negative price meets no row, and so there is a ray of feasible
  points whose costs fall below every value (`Ray.exists_cost_lt`).
-/

namespace Milp.Relaxation

/-- Whether the simplex method works without tolerances of its own; the tolerance for feasibility
is another matter. -/
structure Tolerances.Sharp (tols : Tolerances Rat) : Prop where
  pivot : tols.pivot = 0
  ratio : tols.ratio = 0

namespace Tableau

variable {m w : Nat} {tols : Tolerances Rat} {rank : Vector Nat w} {cost : Vector Rat w}
  {limit : Nat} {t t' : Tableau Rat m w} {c : Fin w} {r : Fin m}

/-! ### Costs -/

/-- The cost of the basic solution. -/
theorem value_eq (t : Tableau Rat m w) (cost : Vector Rat w) :
    t.value cost = ∑ i : Fin m, cost.get (t.basis.get i) * t.rhs.get i := by
  rw [value, Scalar.sum_eq, Fin.sum_univ_def]
  rfl

/-- What a unit of a column costs beyond what it saves in the rows. -/
def price (t : Tableau Rat m w) (cost : Vector Rat w) (j : Fin w) : Rat :=
  cost.get j - ∑ i : Fin m, cost.get (t.basis.get i) * t.entry i j

/-- The reduced cost of a column is its price. -/
theorem reducedCost_eq (t : Tableau Rat m w) (cost : Vector Rat w) (j : Fin w) :
    t.reducedCost cost (t.costRows cost) j = t.price cost j := by
  have less (l : List (Fin m)) (d : Rat) :
      (l.filterMap fun i =>
        let c := cost.get (t.basis.get i)
        if c == 0 then none else some (i, c)).foldl (fun d (i, c) => d - c * t.entry i j) d =
        d - (l.map fun i => cost.get (t.basis.get i) * t.entry i j).sum := by
    induction l generalizing d with
    | nil => exact (sub_zero d).symm
    | cons i l ih =>
      by_cases free : cost.get (t.basis.get i) = 0
      · simpa [List.filterMap_cons, free] using ih d
      · simpa [List.filterMap_cons, free, sub_sub] using
          ih (d - cost.get (t.basis.get i) * t.entry i j)
  rw [price, Fin.sum_univ_def]
  exact less _ _

/-- The cost of a solution is that of the basic solution and the prices of its columns. -/
theorem Solves.sum_cost {y : Fin w → Rat} (h : t.Solves y) (cost : Vector Rat w) :
    ∑ j : Fin w, cost.get j * y j = t.value cost + ∑ j, t.price cost j * y j := by
  have saved : ∑ j, (∑ i : Fin m, cost.get (t.basis.get i) * t.entry i j) * y j = t.value cost := by
    rw [value_eq]
    simp only [Finset.sum_mul]
    rw [Finset.sum_comm]
    refine Finset.sum_congr rfl fun i _ => ?_
    rw [← h i, Finset.mul_sum]
    exact Finset.sum_congr rfl fun j _ => by ring
  simp only [price, sub_mul, Finset.sum_sub_distrib, saved]
  ring

/-- The cost of the basic solution, column by column. -/
theorem sum_cost_basic (t : Tableau Rat m w) (cost : Vector Rat w) :
    ∑ j : Fin w, cost.get j * t.basic j = t.value cost := by
  rw [basic, sum_mul_spread (fun j => cost.get j), value_eq]

/-- Basic columns have no price. -/
theorem Canonical.price_basis (h : t.Canonical) (cost : Vector Rat w) (k : Fin m) :
    t.price cost (t.basis.get k) = 0 := by
  simp only [price, h _ k, mul_ite, mul_one, mul_zero, Finset.sum_ite_eq', Finset.mem_univ, if_true,
    sub_self]

/-! ### Choosing columns and rows -/

/-- What holds before a fold over all positions and survives each of them holds after it. -/
theorem foldl_rule {n : Nat} {β : Type} {Q : β → Prop} (P : List (Fin n) → β → Prop)
    (f : β → Fin n → β) (b : β) (start : P [] b) (next : ∀ l i b, P l b → P (l ++ [i]) (f b i))
    (finish : ∀ b, P (List.finRange n) b → Q b) : Q (Fin.foldl n f b) := by
  apply finish
  rw [Fin.foldl_eq_finRange_foldl]
  induction List.finRange n using List.reverseRecOn with
  | nil => exact start
  | append_singleton l i ih =>
    rw [List.foldl_append, List.foldl_cons, List.foldl_nil]
    exact next l i _ ih

/-- A fold that takes only positions that it may, and any of these while it has none, ends with a
position that it may take, or there is none. -/
theorem foldl_pick {n : Nat} (may : Fin n → Prop) (f : Option (Fin n) → Fin n → Option (Fin n))
    (takes : ∀ best j, f best j = best ∨ may j ∧ f best j = some j)
    (first : ∀ j, may j → f none j = some j) :
    (∀ c, Fin.foldl n f none = some c → may c) ∧
      (Fin.foldl n f none = none → ∀ j, ¬ may j) := by
  apply foldl_rule (Q := fun best => (∀ c, best = some c → may c) ∧ (best = none → ∀ j, ¬ may j))
    fun l best => (∀ c, best = some c → may c) ∧ (best = none → ∀ j ∈ l, ¬ may j)
  · exact ⟨nofun, fun _ => nofun⟩
  · intro l j best ⟨found, missed⟩
    rcases takes best j with kept | ⟨may_j, taken⟩
    · rw [kept]
      refine ⟨found, fun nothing k hk => ?_⟩
      rcases List.mem_append.mp hk with hk | hk
      · exact missed nothing k hk
      · rw [List.mem_singleton.mp hk]
        intro may_j
        rw [nothing, first j may_j] at kept
        exact nomatch kept
    · rw [taken]
      exact ⟨fun c same => Option.some.inj same ▸ may_j, nofun⟩
  · intro best ⟨found, missed⟩
    exact ⟨found, fun nothing j => missed nothing j (List.mem_finRange j)⟩

/-- The column that enters lies below the limit and has a negative price; if none enters, none
could. -/
theorem entering?_spec (sharp : tols.Sharp) (marked : t.Marked) :
    (∀ c, t.entering? tols rank cost limit = some c →
      c.val < limit ∧ t.price cost c < 0 ∧ ∀ i : Fin m, t.basis.get i ≠ c) ∧
    (t.entering? tols rank cost limit = none →
      ∀ j, ¬ (j.val < limit ∧ t.price cost j < 0 ∧ ∀ i : Fin m, t.basis.get i ≠ j)) := by
  apply foldl_pick
  · intro best j
    simp only [reducedCost_eq, sharp.pivot, neg_zero, Bool.and_eq_true, decide_eq_true_eq,
      Bool.not_eq_true', marked.isBasic_eq_false_iff]
    by_cases may : j.val < limit ∧ t.price cost j < 0 ∧ ∀ i : Fin m, t.basis.get i ≠ j
    · exact (ite_eq_or_eq _ _ _).symm.imp_right fun taken => ⟨may, taken⟩
    · exact .inl (if_neg fun h => may ⟨h.1.1.2, h.1.2, h.2⟩)
  · intro j may
    simp only [reducedCost_eq, sharp.pivot, neg_zero, may.1, may.2.1,
      marked.isBasic_eq_false_iff.mpr may.2.2, decide_true, Bool.not_false, Bool.and_true, if_true]

/-- The value at which a column takes up the right-hand side of a row. -/
def ratio (t : Tableau Rat m w) (c : Fin w) (i : Fin m) : Rat := t.rhs.get i / t.entry i c

/-- Whether a row is the first to stop a column among the listed rows: its coefficient is positive
and its ratio is the smallest of those with a positive coefficient. -/
def Stops (t : Tableau Rat m w) (c : Fin w) (l : List (Fin m)) (r : Fin m) : Prop :=
  0 < t.entry r c ∧ ∀ i ∈ l, 0 < t.entry i c → t.ratio c r ≤ t.ratio c i

/-- A row is still the first to stop a column if the next row does not stop it before. -/
theorem Stops.append {l : List (Fin m)} {i : Fin m} (h : t.Stops c l r)
    (next : 0 < t.entry i c → t.ratio c r ≤ t.ratio c i) : t.Stops c (l ++ [i]) r := by
  refine ⟨h.1, fun k hk positive => ?_⟩
  rcases List.mem_append.mp hk with hk | hk
  · exact h.2 k hk positive
  · rw [List.mem_singleton.mp hk] at positive ⊢
    exact next positive

/-- What is known of the best of the listed rows: it is the first of them to stop a column and comes
with its ratio, or none of them stops the column. -/
inductive Best (t : Tableau Rat m w) (c : Fin w) (l : List (Fin m)) :
    Option (Fin m × Rat) → Prop
  | none (flat : ∀ i ∈ l, t.entry i c ≤ 0) : Best t c l none
  | some {r : Fin m} (stops : t.Stops c l r) : Best t c l (some (r, t.ratio c r))

/-- A row that does not stop a column leaves the best as it is. -/
theorem Best.skip {l : List (Fin m)} {best : Option (Fin m × Rat)} (h : t.Best c l best) {i : Fin m}
    (flat : t.entry i c ≤ 0) : t.Best c (l ++ [i]) best := by
  cases h with
  | none flats =>
    exact .none (List.forall_mem_append.mpr ⟨flats, List.forall_mem_singleton.mpr flat⟩)
  | some stops => exact .some (stops.append fun positive => absurd positive flat.not_gt)

/-- A row that stops a column before all the others is the best. -/
theorem Stops.best {l : List (Fin m)} {i : Fin m} (h : t.Stops c l i) :
    t.Best c (l ++ [i]) (some (i, t.ratio c i)) := .some (h.append fun _ => le_rfl)

/-- The row in which a column enters is the first of all to stop it; if there is none, no entry of
the column is positive. -/
theorem leaving?_spec (sharp : tols.Sharp) :
    (∀ r, t.leaving? tols rank c = some r → t.Stops c (List.finRange m) r) ∧
      (t.leaving? tols rank c = none → ∀ i, t.entry i c ≤ 0) := by
  unfold leaving?
  apply foldl_rule
    (Q := fun best => (∀ r, best.map Prod.fst = some r → t.Stops c (List.finRange m) r) ∧
      (best.map Prod.fst = none → ∀ i, t.entry i c ≤ 0))
    (t.Best c)
  · exact .none nofun
  · intro l i best known
    simp only [sharp.pivot, sharp.ratio, sub_zero, Scalar.abs_eq]
    by_cases flat : t.entry i c ≤ 0
    · rw [if_pos flat]
      exact known.skip flat
    · rw [if_neg flat]
      have positive := not_le.mp flat
      cases known with
      | none flats =>
        exact Stops.best ⟨positive, fun k hk above => absurd above (flats k hk).not_gt⟩
      | @some r stops =>
        simp only [Bool.or_eq_true, Bool.and_eq_true, decide_eq_true_eq]
        split
        next nearer =>
          have less : t.ratio c i ≤ t.ratio c r := by
            rcases nearer with less | ⟨near, -⟩
            · exact less.le
            · exact (sub_eq_zero.mp (abs_nonpos_iff.mp near)).le
          exact Stops.best ⟨positive, fun k hk above => less.trans (stops.2 k hk above)⟩
        next farther =>
          exact .some (stops.append fun _ => not_lt.mp fun less => farther (.inl less))
  · intro best known
    cases known with
    | none flats => exact ⟨nofun, fun _ i => flats i (List.mem_finRange i)⟩
    | some stops => exact ⟨fun r same => Option.some.inj same ▸ stops, nofun⟩

/-! ### Feasible points -/

/-- Whether a point solves the equations, has no negative values, and uses only the columns below
the limit. -/
structure Meets (t : Tableau Rat m w) (limit : Nat) (y : Fin w → Rat) : Prop where
  solves : t.Solves y
  nonneg : ∀ j, 0 ≤ y j
  unused : ∀ j, limit ≤ j.val → y j = 0

/-- What pivots keep: the tableau `t` comes from `t₀`, its basic solution is feasible, and a column
from the limit on has the value zero in it. -/
structure Settled (limit : Nat) (t₀ t : Tableau Rat m w) : Prop where
  canonical : t.Canonical
  marked : t.Marked
  nonneg : ∀ i : Fin m, 0 ≤ t.rhs.get i
  solves : ∀ y, t.Solves y ↔ t₀.Solves y
  rhs_idle : ∀ i : Fin m, limit ≤ (t.basis.get i).val → t.rhs.get i = 0

/-- Whether a row that is solved for a column from the limit on has nothing to give: it is zero
below the limit. -/
def Idle (limit : Nat) (t : Tableau Rat m w) (i : Fin m) : Prop :=
  limit ≤ (t.basis.get i).val → ∀ j : Fin w, j.val < limit → t.entry i j = 0

/-- What pivots on columns below the limit keep once all other rows are idle. -/
structure Reaches (limit : Nat) (t₀ t : Tableau Rat m w) : Prop extends Settled limit t₀ t where
  idle : ∀ i, t.Idle limit i

/-- A pivot keeps a row idle whose column it does not touch. -/
theorem Idle.pivot {i : Fin m} (h : t.Idle limit i) (pivot_ne : t.entry r c ≠ 0)
    (below : c.val < limit) : (t.pivot tols r c).Idle limit i := by
  intro high j hj
  rw [basis_pivot] at high
  split at high
  next => exact absurd below high.not_gt
  next other =>
    rw [entry_pivot pivot_ne, if_neg other, h high c below, zero_mul, sub_zero, h high j hj]

namespace Reaches

variable {t₀ : Tableau Rat m w}

/-- The basic solution is feasible. -/
theorem meets_basic (h : Reaches limit t₀ t) : t₀.Meets limit t.basic where
  solves := (h.solves _).mp h.canonical.solves_basic
  nonneg := spread_nonneg h.nonneg
  unused j hj := spread_eq_zero fun i same => h.rhs_idle i (by rw [same]; exact hj)

/-- A pivot in the first row that stops the column that enters. -/
theorem pivot (h : Reaches limit t₀ t) (sharp : tols.Sharp) (below : c.val < limit)
    (stops : t.Stops c (List.finRange m) r) : Reaches limit t₀ (t.pivot tols r c) where
  canonical := h.canonical.pivot stops.1.ne'
  marked := h.marked.pivot h.canonical.injective
  nonneg i := by
    have ratio_nonneg : 0 ≤ t.rhs.get r / t.entry r c := div_nonneg (h.nonneg r) stops.1.le
    rw [rhs_pivot sharp.ratio]
    by_cases hi : i = r
    · rw [if_pos hi]
      exact ratio_nonneg
    · rw [if_neg hi, sub_nonneg]
      rcases le_or_gt (t.entry i c) 0 with flat | positive
      · exact (mul_nonpos_of_nonpos_of_nonneg flat ratio_nonneg).trans (h.nonneg i)
      · have first : t.rhs.get r / t.entry r c ≤ t.rhs.get i / t.entry i c :=
          stops.2 i (List.mem_finRange i) positive
        rw [mul_comm]
        exact (le_div_iff₀ positive).mp first
  solves y := (solves_pivot sharp.ratio stops.1.ne' y).trans (h.solves y)
  rhs_idle i high := by
    rw [basis_pivot] at high
    split at high
    next => exact absurd below high.not_gt
    next hi =>
      rw [rhs_pivot sharp.ratio, if_neg hi, h.idle i high c below, zero_mul, sub_zero,
        h.rhs_idle i high]
  idle i := (h.idle i).pivot stops.1.ne' below

/-- No feasible point costs less than the basic solution if no column below the limit has a
negative price. -/
theorem value_le (h : Reaches limit t₀ t)
    (priced : ∀ j : Fin w, j.val < limit → 0 ≤ t.price cost j) {y : Fin w → Rat}
    (meets : t₀.Meets limit y) : t.value cost ≤ ∑ j : Fin w, cost.get j * y j := by
  rw [((h.solves y).mpr meets.solves).sum_cost cost]
  refine le_add_of_nonneg_right (Finset.sum_nonneg fun j _ => ?_)
  rcases lt_or_ge j.val limit with hj | hj
  · exact mul_nonneg (priced j hj) (meets.nonneg j)
  · rw [meets.unused j hj, mul_zero]

end Reaches

/-- The point that a column of value `a` makes of the basic solution: the basic columns balance
it. -/
def ray (t : Tableau Rat m w) (c : Fin w) (a : Rat) (j : Fin w) : Rat :=
  (if j = c then a else 0) + t.spread (fun i => t.rhs.get i - t.entry i c * a) j

/-- A linear function of a point on a ray. -/
theorem sum_mul_ray (f : Fin w → Rat) (a : Rat) :
    ∑ j, f j * t.ray c a j =
      f c * a + ∑ i : Fin m, f (t.basis.get i) * (t.rhs.get i - t.entry i c * a) := by
  simp only [ray, mul_add, Finset.sum_add_distrib, sum_mul_spread]
  simp

/-- The points of a ray are solutions. -/
theorem Canonical.solves_ray (h : t.Canonical) (c : Fin w) (a : Rat) : t.Solves (t.ray c a) := by
  intro i
  rw [sum_mul_ray]
  simp only [h i, ite_mul, one_mul, zero_mul, Finset.sum_ite_eq, Finset.mem_univ, if_true]
  ring

/-- A ray along a column without positive entries is feasible. -/
theorem Reaches.meets_ray {t₀ : Tableau Rat m w} (h : Reaches limit t₀ t) (below : c.val < limit)
    (flat : ∀ i, t.entry i c ≤ 0) {a : Rat} (ha : 0 ≤ a) : t₀.Meets limit (t.ray c a) where
  solves := (h.solves _).mp (h.canonical.solves_ray c a)
  nonneg j := by
    refine add_nonneg ?_ (spread_nonneg (fun i => ?_) j)
    · split
      · exact ha
      · exact le_rfl
    · exact sub_nonneg.mpr ((mul_nonpos_of_nonpos_of_nonneg (flat i) ha).trans (h.nonneg i))
  unused j hj := by
    have other : j ≠ c := fun same => absurd below (same ▸ hj).not_gt
    rw [ray, if_neg other, zero_add]
    refine spread_eq_zero fun i same => ?_
    have high : limit ≤ (t.basis.get i).val := by rw [same]; exact hj
    rw [h.rhs_idle i high, h.idle i high c below, zero_mul, sub_zero]

/-- The cost of a point on a ray. -/
theorem sum_cost_ray (t : Tableau Rat m w) (cost : Vector Rat w) (c : Fin w) (a : Rat) :
    ∑ j : Fin w, cost.get j * t.ray c a j = t.value cost + t.price cost c * a := by
  rw [sum_mul_ray (fun j => cost.get j), value_eq, price]
  simp only [mul_sub, Finset.sum_sub_distrib, sub_mul, Finset.sum_mul, mul_assoc]
  ring

/-- Along a feasible ray with a negative price the cost falls below every value. -/
theorem Reaches.exists_cost_lt {t₀ : Tableau Rat m w} (h : Reaches limit t₀ t)
    (below : c.val < limit) (cheap : t.price cost c < 0) (flat : ∀ i, t.entry i c ≤ 0) (b : Rat) :
    ∃ y, t₀.Meets limit y ∧ ∑ j : Fin w, cost.get j * y j < b := by
  -- far enough to make up for the cost of the basic solution
  let a := (|t.value cost - b| + 1) / -t.price cost c
  have gain : 0 < -t.price cost c := neg_pos.mpr cheap
  have ha : 0 ≤ a := by positivity
  refine ⟨t.ray c a, h.meets_ray below flat ha, ?_⟩
  have earned : a * -t.price cost c = |t.value cost - b| + 1 := div_mul_cancel₀ _ gain.ne'
  rw [sum_cost_ray]
  linarith [le_abs_self (t.value cost - b)]

/-! ### Runs -/

/-- How a run ends that starts with a feasible basic solution: optimal, or with a ray along which
the cost falls below every value. -/
theorem run_spec {t₀ : Tableau Rat m w} (sharp : tols.Sharp) (rank : Vector Nat w)
    (cost : Vector Rat w) (rounds : Nat) (h : Reaches limit t₀ t) :
    (∀ t' left, t.run tols rank cost limit rounds = .optimal t' left →
      Reaches limit t₀ t' ∧ ∀ j : Fin w, j.val < limit → 0 ≤ t'.price cost j) ∧
    (∀ left, t.run tols rank cost limit rounds = .unbounded left →
      ∀ b, ∃ y, t₀.Meets limit y ∧ ∑ j : Fin w, cost.get j * y j < b) := by
  fun_induction run tols rank cost limit rounds t with
  | case1 rounds t none =>
    refine ⟨fun t' left same => ?_, nofun⟩
    cases same
    refine ⟨h, fun j hj => not_lt.mp fun cheap => ?_⟩
    refine (entering?_spec sharp h.marked).2 none j ⟨hj, cheap, fun i same => ?_⟩
    rw [← same, h.canonical.price_basis] at cheap
    exact lt_irrefl 0 cheap
  | case2 rounds t c enters none =>
    refine ⟨nofun, fun left _ => ?_⟩
    obtain ⟨below, cheap, -⟩ := (entering?_spec sharp h.marked).1 c enters
    exact h.exists_cost_lt below cheap ((leaving?_spec sharp).2 none)
  | case3 t c enters r leaves => exact ⟨nofun, nofun⟩
  | case4 t c enters r leaves rounds ih =>
    have below := ((entering?_spec sharp h.marked).1 c enters).1
    exact ih (h.pivot sharp below ((leaving?_spec sharp).1 r leaves))

end Tableau
end Milp.Relaxation
