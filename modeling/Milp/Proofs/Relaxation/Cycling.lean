import Milp.Proofs.Relaxation.Course
import Milp.Proofs.Relaxation.FirstTableau

/-!
# The simplex method does not cycle

The basic columns of a tableau never come back in a run, although pivots in rows with the value zero
change neither the cost nor the basic solution. The reason is the choice by rank on both sides. Had
the basic columns come back, take of all columns that enter on the way (`Cycle`) the one of the
worst rank. Where it enters, no column of a better rank has a negative price; where it leaves, no
such column that is zero has a positive coefficient. The two contradict each other, as the prices of
the first tableau agree with those of the second one along the direction in which the basic solution
would move there (`Reaches.sum_price_direction`).

So a run takes fewer pivots than there are bases (`Form.simplex_terminates`).
-/

namespace Milp.Relaxation

namespace Tableau

variable {m w : Nat} {tols : Tolerances Rat} {rank : Vector Nat w} {cost : Vector Rat w}
  {limit : Nat} {t t' t₀ : Tableau Rat m w} {c j : Fin w} {r : Fin m}

/-! ### Directions -/

/-- How the columns change with a unit of a column that enters. -/
def direction (t : Tableau Rat m w) (c j : Fin w) : Rat := t.ray c 1 j - t.ray c 0 j

/-- Columns that are not basic have no share in balancing. -/
theorem ray_of_not_mem (outside : j ∉ t.basics) (a : Rat) :
    t.ray c a j = if j = c then a else 0 := by
  rw [ray, spread_eq_zero fun i same => absurd (mem_basics.mpr ⟨i, same⟩) outside, add_zero]

/-- The column that enters changes by the unit. -/
theorem direction_self (outside : c ∉ t.basics) : t.direction c c = 1 := by
  rw [direction, ray_of_not_mem outside, ray_of_not_mem outside, if_pos rfl, if_pos rfl, sub_zero]

/-- A basic column changes by the coefficient in its row. -/
theorem Canonical.direction_basis (h : t.Canonical) (outside : c ∉ t.basics) (i : Fin m) :
    t.direction c (t.basis.get i) = -t.entry i c := by
  have other : t.basis.get i ≠ c := fun same => outside (mem_basics.mpr ⟨i, same⟩)
  simp only [direction, ray, if_neg other, h.spread_basis]
  ring

/-- The other columns stay as they are. -/
theorem direction_eq_zero (other : j ≠ c) (outside : j ∉ t.basics) : t.direction c j = 0 := by
  rw [direction, ray_of_not_mem outside, ray_of_not_mem outside, if_neg other, if_neg other,
    sub_zero]

/-- Along the direction of a column, the prices of any tableau with the same solutions add up to the
price of the column. -/
theorem Reaches.sum_price_direction (h : Reaches w t₀ t) (h' : Reaches w t₀ t')
    (cost : Vector Rat w) (c : Fin w) :
    ∑ j, t'.price cost j * t.direction c j = t.price cost c := by
  have along (a : Rat) :
      t.value cost + t.price cost c * a = t'.value cost + ∑ j, t'.price cost j * t.ray c a j := by
    have solves : t'.Solves (t.ray c a) :=
      (h'.solves _).mpr ((h.solves _).mp (h.canonical.solves_ray c a))
    rw [← sum_cost_ray, solves.sum_cost cost]
  simp only [direction, mul_sub, Finset.sum_sub_distrib]
  linarith [along 1, along 0]

/-! ### Cycles -/

/-- What changes on the way around changes back: a property that fails at one place and holds at
another one, and is the same at both ends, comes to hold somewhere. -/
theorem exists_crossing {P : ℕ → Prop} {n a b : ℕ} (closed : P n ↔ P 0) (ha : a ≤ n) (hb : b ≤ n)
    (fails : ¬P a) (holds : P b) : ∃ k < n, ¬P k ∧ P (k + 1) := by
  have between {a b : ℕ} (le : a ≤ b) (fails : ¬P a) (holds : P b) :
      ∃ k < b, ¬P k ∧ P (k + 1) := by
    induction b, le using Nat.le_induction with
    | base => exact absurd holds fails
    | succ b _ ih =>
      by_cases before : P b
      · obtain ⟨k, below, crossing⟩ := ih before
        exact ⟨k, below.trans b.lt_succ_self, crossing⟩
      · exact ⟨b, b.lt_succ_self, before, holds⟩
  by_cases start : P 0
  · exact between ha fails (closed.mpr start)
  · obtain ⟨k, below, crossing⟩ := between b.zero_le start holds
    exact ⟨k, below.trans_le hb, crossing⟩

/-- Pivots that lead from a tableau to one with the same basic columns. -/
structure Cycle (tols : Tolerances Rat) (rank : Vector Nat w) (cost : Vector Rat w) (limit : Nat)
    (t₀ : Tableau Rat m w) (n : ℕ) (T : ℕ → Tableau Rat m w) : Prop where
  pos : 0 < n
  start : Reaches w t₀ (T 0)
  turns : ∀ k < n, Turns tols rank cost limit (T k) (T (k + 1))
  closed : (T n).basics = (T 0).basics

namespace Cycle

variable {n : ℕ} {T : ℕ → Tableau Rat m w} (h : Cycle tols rank cost limit t₀ n T)
  (sharp : tols.Sharp)
include h

/-- A column that is basic at one place and not at another one enters somewhere. -/
theorem exists_enters {a b : ℕ} (ha : a ≤ n) (hb : b ≤ n) (outside : j ∉ (T a).basics)
    (inside : j ∈ (T b).basics) : ∃ k < n, ∃ r, (T k).Chooses tols rank cost limit j r := by
  obtain ⟨k, below, before, after⟩ :=
    exists_crossing (P := fun k => j ∈ (T k).basics) (by rw [h.closed]) ha hb outside inside
  obtain ⟨c, r, chooses, next⟩ := h.turns k below
  rw [next] at after
  obtain rfl := (mem_basics_pivot after).resolve_right before
  exact ⟨k, below, r, chooses⟩

/-- A column that is basic at one place and not at another one leaves somewhere. -/
theorem exists_leaves {a b : ℕ} (ha : a ≤ n) (hb : b ≤ n) (outside : j ∉ (T a).basics)
    (inside : j ∈ (T b).basics) :
    ∃ k < n, ∃ c r, (T k).Chooses tols rank cost limit c r ∧ (T k).basis.get r = j := by
  obtain ⟨k, below, before, after⟩ := exists_crossing (P := fun k => j ∉ (T k).basics)
    (by rw [h.closed]) hb ha (not_not.mpr inside) outside
  obtain ⟨c, r, chooses, next⟩ := h.turns k below
  rw [next] at after
  refine ⟨k, below, c, r, chooses, ?_⟩
  by_contra stays
  exact after (mem_basics_pivot_of_mem (not_not.mp before) (Ne.symm stays))

/-- A choice decides on the next tableau. -/
theorem next_eq {k : ℕ} (hk : k < n) (chooses : (T k).Chooses tols rank cost limit c r) :
    T (k + 1) = (T k).pivot tols r c := by
  obtain ⟨c', r', chooses', next⟩ := h.turns k hk
  obtain rfl := Option.some.inj (chooses.enters.symm.trans chooses'.enters)
  obtain rfl := Option.some.inj (chooses.leaves.symm.trans chooses'.leaves)
  exact next

include sharp

/-- All tableaus of a cycle come from the same one. -/
theorem reaches {k : ℕ} (hk : k ≤ n) : Reaches w t₀ (T k) := by
  induction k with
  | zero => exact h.start
  | succ k ih =>
    obtain ⟨c, r, chooses, next⟩ := h.turns k hk
    rw [next]
    exact chooses.reaches sharp (ih (Nat.le_of_succ_le hk))

/-- The cost does not rise on the way. -/
theorem value_le {a b : ℕ} (le : a ≤ b) (hb : b ≤ n) : (T b).value cost ≤ (T a).value cost := by
  induction b, le using Nat.le_induction with
  | base => exact le_rfl
  | succ b _ ih =>
    obtain ⟨c, r, chooses, next⟩ := h.turns b hb
    rw [next]
    exact (chooses.value_le sharp (h.reaches sharp (Nat.le_of_succ_le hb))).trans
      (ih (Nat.le_of_succ_le hb))

/-- The cost is the same at both ends, so every pivot is one in a row with the value zero. -/
theorem rhs_eq_zero {k : ℕ} (hk : k < n) (chooses : (T k).Chooses tols rank cost limit c r) :
    (T k).rhs.get r = 0 := by
  refine chooses.rhs_eq_zero sharp (h.reaches sharp hk.le) (le_antisymm ?_ ?_)
  · exact chooses.value_le sharp (h.reaches sharp hk.le)
  · have ends : (T n).value cost = (T 0).value cost := by
      rw [← sum_cost_basic, ← sum_cost_basic,
        h.start.basic_eq (h.reaches sharp le_rfl) h.closed]
    calc (T k).value cost ≤ (T 0).value cost := h.value_le sharp k.zero_le hk.le
      _ = (T n).value cost := ends.symm
      _ ≤ (T (k + 1)).value cost := h.value_le sharp hk le_rfl
      _ = ((T k).pivot tols r c).value cost := by rw [h.next_eq hk chooses]

/-- The basic solution is the same all the way. -/
theorem basic_eq {k : ℕ} (hk : k ≤ n) : (T k).basic = (T 0).basic := by
  induction k with
  | zero => rfl
  | succ k ih =>
    obtain ⟨c, r, chooses, next⟩ := h.turns k hk
    rw [next, chooses.basic_eq sharp (h.reaches sharp (Nat.le_of_succ_le hk))
      (h.rhs_eq_zero sharp hk chooses)]
    exact ih (Nat.le_of_succ_le hk)

/-- A column that is not basic all the way is zero where it is basic. -/
theorem rhs_eq_zero_of_not_mem {a b : ℕ} (ha : a ≤ n) (hb : b ≤ n) {i : Fin m}
    (outside : (T b).basis.get i ∉ (T a).basics) : (T b).rhs.get i = 0 := by
  calc (T b).rhs.get i = (T b).basic ((T b).basis.get i) :=
        ((h.reaches sharp hb).canonical.spread_basis _ i).symm
    _ = (T a).basic ((T b).basis.get i) := by rw [h.basic_eq sharp hb, h.basic_eq sharp ha]
    _ = 0 := basic_eq_zero outside

/-- Where a column enters, those that enter elsewhere and have a better rank have no negative
price. -/
theorem price_nonneg {k l : ℕ} (hk : k < n) (hl : l < n) {q : Fin w} {i : Fin m}
    (enters : (T k).Chooses tols rank cost limit q r)
    (other : (T l).Chooses tols rank cost limit j i) (better : rank.get j < rank.get q) :
    0 ≤ (T k).price cost j := by
  by_contra cheap
  by_cases basic : j ∈ (T k).basics
  · obtain ⟨i, rfl⟩ := mem_basics.mp basic
    rw [(h.reaches sharp hk.le).canonical.price_basis] at cheap
    exact cheap le_rfl
  · have may : (T k).MayEnter cost limit j :=
      ⟨(other.mayEnter sharp (h.reaches sharp hl.le).marked).1, not_le.mp cheap,
        fun i same => basic (mem_basics.mpr ⟨i, same⟩)⟩
    exact (rank_le_of_entering? sharp (h.reaches sharp hk.le).marked enters.enters may).not_gt
      better

/-- Where a column leaves, the basic columns of a better rank that are not basic all the way have no
positive coefficient. -/
theorem entry_nonpos {a b : ℕ} (ha : a ≤ n) (hb : b < n) {i : Fin m}
    (leaves : (T b).Chooses tols rank cost limit c r)
    (outside : (T b).basis.get i ∉ (T a).basics)
    (better : rank.get ((T b).basis.get i) < rank.get ((T b).basis.get r)) :
    (T b).entry i c ≤ 0 := by
  by_contra positive
  have tie : (T b).ratio c r = (T b).ratio c i := by
    rw [ratio, ratio, h.rhs_eq_zero sharp hb leaves,
      h.rhs_eq_zero_of_not_mem sharp ha hb.le outside, zero_div, zero_div]
  rcases precedes_of_leaving? sharp leaves.leaves (not_le.mp positive) with less | ⟨-, le⟩
  · exact less.ne tie
  · exact le.not_gt better

/-- There are no cycles if no two columns have the same rank. -/
theorem not_injective : ¬Function.Injective rank.get := by
  intro injective
  classical
  -- `q` has the worst rank of all columns that enter
  obtain ⟨q, entered, worst⟩ := Finset.exists_max_image
    (Finset.univ.filter fun j => ∃ k < n, ∃ r, (T k).Chooses tols rank cost limit j r) rank.get (by
      obtain ⟨c, r, chooses, -⟩ := h.turns 0 h.pos
      exact ⟨c, by simpa using ⟨0, h.pos, r, chooses⟩⟩)
  obtain ⟨a, ha, r₁, enters⟩ : ∃ k < n, ∃ r, (T k).Chooses tols rank cost limit q r := by
    simpa using entered
  have best {j : Fin w} {k : ℕ} {i : Fin m} (hk : k < n)
      (chooses : (T k).Chooses tols rank cost limit j i) (other : j ≠ q) :
      rank.get j < rank.get q :=
    lt_of_le_of_ne (worst j (by simpa using ⟨k, hk, i, chooses⟩)) fun same => other (injective same)
  -- it leaves again, when `p` enters
  obtain ⟨b, hb, p, r₂, leaves, q_eq⟩ : ∃ k < n, ∃ c r, (T k).Chooses tols rank cost limit c r ∧
      (T k).basis.get r = q := by
    refine h.exists_leaves ha.le ha (enters.not_mem_basics sharp (h.reaches sharp ha.le).marked) ?_
    rw [h.next_eq ha enters]
    exact self_mem_basics_pivot
  have canonical := (h.reaches sharp hb.le).canonical
  have p_outside := leaves.not_mem_basics sharp (h.reaches sharp hb.le).marked
  have cheap : (T b).price cost p < 0 :=
    (leaves.mayEnter sharp (h.reaches sharp hb.le).marked).2.1
  rw [← (h.reaches sharp hb.le).sum_price_direction (h.reaches sharp ha.le)] at cheap
  -- a term of the sum is negative, and it is not that of `q`
  obtain ⟨j, negative⟩ : ∃ j, (T a).price cost j * (T b).direction p j < 0 := by
    by_contra none
    exact cheap.not_ge (Finset.sum_nonneg fun j _ => not_lt.mp fun less => none ⟨j, less⟩)
  have other : j ≠ q := by
    rintro rfl
    have price : (T a).price cost j < 0 :=
      (enters.mayEnter sharp (h.reaches sharp ha.le).marked).2.1
    have moves : (T b).direction p j < 0 := by
      rw [← q_eq, canonical.direction_basis p_outside, neg_lt_zero]
      exact leaves.entry_pos sharp
    exact (mul_pos_of_neg_of_neg price moves).not_gt negative
  have outside : j ∉ (T a).basics := fun basic => by
    obtain ⟨i, rfl⟩ := mem_basics.mp basic
    rw [(h.reaches sharp ha.le).canonical.price_basis, zero_mul] at negative
    exact lt_irrefl 0 negative
  by_cases entering : j = p
  · rw [entering] at other
    rw [entering, direction_self p_outside, mul_one] at negative
    exact (h.price_nonneg sharp ha hb enters leaves (best hb leaves other)).not_gt negative
  · have inside : j ∈ (T b).basics := by
      by_contra free
      rw [direction_eq_zero entering free, mul_zero] at negative
      exact lt_irrefl 0 negative
    obtain ⟨l, hl, s, elsewhere⟩ := h.exists_enters ha.le hb.le outside inside
    have better := best hl elsewhere other
    have price := h.price_nonneg sharp ha hl enters elsewhere better
    obtain ⟨i, rfl⟩ := mem_basics.mp inside
    rw [← q_eq] at better
    have flat := h.entry_nonpos sharp ha.le hb leaves outside better
    rw [canonical.direction_basis p_outside] at negative
    exact (mul_nonneg price (neg_nonneg.mpr flat)).not_gt negative

end Cycle

/-! ### Runs -/

/-- All tableaus of a course come from the same one. -/
theorem reaches_course (sharp : tols.Sharp) (rank : Vector Nat w) (cost : Vector Rat w)
    (limit rounds : Nat) (start : Reaches w t₀ t) :
    ∀ s ∈ t.course tols rank cost limit rounds, Reaches w t₀ s :=
  course_rule (fun _ _ _ chooses => chooses.reaches sharp) rounds start

/-- The basic columns of a course are different. -/
theorem nodup_course (sharp : tols.Sharp) (injective : Function.Injective rank.get)
    (cost : Vector Rat w) (limit rounds : Nat) (start : Reaches w t₀ t) :
    ((t.course tols rank cost limit rounds).map basics).Nodup := by
  have chain := isChain_course tols rank cost limit rounds t
  have reaches := reaches_course sharp rank cost limit rounds start
  generalize t.course tols rank cost limit rounds = l at chain reaches
  rw [List.isChain_iff_getElem] at chain
  rw [List.Nodup, List.pairwise_map, List.pairwise_iff_getElem]
  intro i j hi hj less same
  have cycle : Cycle tols rank cost limit t₀ (j - i) fun k => l.getD (i + k) t := by
    refine ⟨by omega, ?_, fun k hk => ?_, ?_⟩
    · simpa [hi] using reaches _ (List.getElem_mem hi)
    · have next : i + k + 1 < l.length := by omega
      have here : i + k < l.length := by omega
      simpa [here, next, ← add_assoc] using chain (i + k) next
    · have there : i + (j - i) = j := by omega
      simpa [there, hi, hj] using same.symm
  exact cycle.not_injective sharp injective

/-! ### Bases -/

open Classical in
/-- The bases of a tableau: the sets of as many columns as there are rows, none of which depends on
the others. -/
noncomputable def bases (t : Tableau Rat m w) : Finset (Finset (Fin w)) :=
  Finset.univ.filter fun s =>
    s.card = m ∧ LinearIndepOn Rat (fun (j : Fin w) (i : Fin m) => t.entry i j) s

/-- What solves the equations without right-hand sides is zero if it is zero outside the basic
columns. -/
theorem Reaches.eq_zero (h : Reaches w t₀ t) {y : Fin w → Rat}
    (solves : ∀ i, ∑ j, t₀.entry i j * y j = 0) (zero : ∀ j, j ∉ t.basics → y j = 0) : y = 0 := by
  have moved : t₀.Solves fun j => t.basic j + y j := by
    intro i
    simp only [mul_add, Finset.sum_add_distrib, solves i, add_zero]
    exact (h.solves _).mp h.canonical.solves_basic i
  have same := h.canonical.eq_basic ((h.solves _).mpr moved) fun j hj => by
    rw [basic_eq_zero hj, zero j hj, add_zero]
  funext j
  simpa using congrFun same j

/-- The basic columns of a tableau are a basis of the one that it comes from. -/
theorem Reaches.basics_mem_bases (h : Reaches w t₀ t) : t.basics ∈ t₀.bases := by
  simp only [bases, Finset.mem_filter, Finset.mem_univ, true_and]
  constructor
  · rw [basics, Finset.card_image_of_injective _ h.canonical.injective,
      Finset.card_univ, Fintype.card_fin]
  · rw [linearIndepOn_finset_iff]
    intro g dependent j hj
    have zero : (fun j => if j ∈ t.basics then g j else 0) = 0 := by
      refine h.eq_zero (fun i => ?_) fun j hj => if_neg hj
      have row := congrFun dependent i
      simpa [Finset.sum_ite_mem, Finset.sum_apply, mul_comm] using row
    simpa [hj] using congrFun zero j

/-- A run takes fewer pivots than there are bases. -/
theorem Reaches.run_terminates (sharp : tols.Sharp) (injective : Function.Injective rank.get)
    (cost : Vector Rat w) (limit : Nat) (start : Reaches w t₀ t) :
    ∃ n < t₀.bases.card, ∀ rounds, t.run tols rank cost limit rounds = .exhausted ↔ rounds < n := by
  classical
  have short (rounds : Nat) : (t.course tols rank cost limit rounds).length ≤ t₀.bases.card := by
    have distinct := List.toFinset_card_of_nodup (nodup_course sharp injective cost limit rounds start)
    rw [List.length_map] at distinct
    rw [← distinct]
    refine Finset.card_le_card fun s hs => ?_
    obtain ⟨t', member, rfl⟩ := List.mem_map.mp (List.mem_toFinset.mp hs)
    exact (reaches_course sharp rank cost limit rounds start t' member).basics_mem_bases
  have bounded (rounds : Nat) (ends : t.run tols rank cost limit rounds = .exhausted) :
      rounds + 1 < t₀.bases.card := by
    have := length_course_of_exhausted rounds t ends
    have := short (rounds + 1)
    omega
  have ends : ∃ rounds, t.run tols rank cost limit rounds ≠ .exhausted :=
    ⟨t₀.bases.card, fun ends => by
      have := bounded _ ends
      omega⟩
  refine ⟨Nat.find ends, ?_, fun rounds => ⟨fun exhausted => ?_, fun below => ?_⟩⟩
  · rcases Nat.eq_zero_or_pos (Nat.find ends) with none | some
    · obtain ⟨l, l_eq⟩ := exists_course tols rank cost limit 0 t
      have nonempty := short 0
      rw [l_eq, List.length_cons] at nonempty
      omega
    · have last := bounded (Nat.find ends - 1) (not_not.mp (Nat.find_min ends (by omega)))
      omega
  · by_contra above
    exact not_exhausted_of_le (not_lt.mp above) (Nat.find_spec ends) exhausted
  · exact not_not.mp (Nat.find_min ends below)

end Tableau

open Tableau

/-! ### The tableaus that the solver starts with -/

variable {f : Form Rat} {tols : Tolerances Rat} {rank : Vector Nat f.width}

/-- The tableaus that the two phases start with: the first one of a form, and the one that a first
phase without cost leaves, once the artificial columns are driven out. -/
inductive Form.Starts (f : Form Rat) (tols : Tolerances Rat) (rank : Vector Nat f.width) :
    Tableau Rat f.rows.size f.width → Prop
  | first : f.Starts tols rank f.tableau
  | second (rounds left : Nat) (t : Tableau Rat f.rows.size f.width)
      (ends : f.tableau.run tols rank f.phaseOneCost f.width rounds = .optimal t left)
      (zero : t.value f.phaseOneCost = 0) :
      f.Starts tols rank (t.driveOut tols rank f.artificialStart)

/-- Both phases start with a tableau that comes from the first one by pivots. -/
theorem Form.Starts.reaches {t : Tableau Rat f.rows.size f.width} (turned : f.IsTurned)
    (sharp : tols.Sharp) (h : f.Starts tols rank t) : Reaches f.width f.tableau t := by
  cases h with
  | first => exact f.reaches_start turned
  | second rounds left t ends zero =>
    have optimal := (run_spec sharp rank f.phaseOneCost rounds (f.reaches_start turned)).1 t left ends
    have settled : Reaches f.artificialStart f.tableau (t.driveOut tols rank f.artificialStart) :=
      (settled_of_value optimal.1 zero.le).driveOut sharp
    exact {
      canonical := settled.canonical
      marked := settled.marked
      nonneg := settled.nonneg
      solves := settled.solves
      rhs_idle := fun i high => absurd (Fin.is_lt _) high.not_gt
      idle := fun i high => absurd (Fin.is_lt _) high.not_gt }

/-- In a run of either phase no set of basic columns comes back, whatever the cost and the columns
that may enter, if no two columns have the same rank. So the run ends after a number of pivots that
is smaller than the number of bases, and it fails for want of rounds only if it has fewer. -/
theorem Form.simplex_terminates (turned : f.IsTurned) (sharp : tols.Sharp)
    (injective : Function.Injective rank.get) {t : Tableau Rat f.rows.size f.width}
    (start : f.Starts tols rank t) (cost : Vector Rat f.width) (limit : Nat) :
    (∀ rounds, ((t.course tols rank cost limit rounds).map basics).Nodup) ∧
      ∃ n < f.tableau.bases.card,
        ∀ rounds, t.run tols rank cost limit rounds = .exhausted ↔ rounds < n :=
  ⟨fun rounds => nodup_course sharp injective cost limit rounds (start.reaches turned sharp),
    (start.reaches turned sharp).run_terminates sharp injective cost limit⟩

/-- Two rows that meet at the origin: the first pivot there is one in a row with the value zero. -/
def Form.corner : Form Rat where
  columns := #[0, 1]
  rows := #[⟨#v[1, -1], .lessEqual, 0⟩, ⟨#v[1, 1], .lessEqual, 2⟩]

/-- No basis comes back when the first column is maximised in the corner. -/
theorem Form.corner_terminates :
    ((Form.corner.tableau.course ⟨0, 0, 0⟩ (Vector.ofFn Fin.val)
        (#v[-1, 0, 0, 0] : Vector Rat 4) 4 10).map basics).Nodup ∧
      ∃ n < Form.corner.tableau.bases.card, ∀ rounds,
        Form.corner.tableau.run ⟨0, 0, 0⟩ (Vector.ofFn Fin.val)
          (#v[-1, 0, 0, 0] : Vector Rat 4) 4 rounds = .exhausted ↔ rounds < n := by
  have turned : Form.corner.IsTurned := by
    unfold IsTurned
    decide
  have injective : Function.Injective (Vector.ofFn Fin.val : Vector Nat Form.corner.width).get := by
    intro i j same
    simpa [Fin.ext_iff] using same
  have started : Form.corner.Starts ⟨0, 0, 0⟩ (Vector.ofFn Fin.val) Form.corner.tableau := .first
  obtain ⟨nodup, bound⟩ := Form.simplex_terminates turned ⟨rfl, rfl⟩ injective started
    (#v[-1, 0, 0, 0] : Vector Rat 4) 4
  exact ⟨nodup 10, bound⟩

end Milp.Relaxation
