import Milp.Proofs.Relaxation.Phases

/-!
# The course of a run

A run of the simplex method goes through tableaus (`course`), each of which comes from the one
before by a pivot (`Turns`). This file says how the rank decides on that pivot, and what the pivot
makes of the basic solution:

* `rank_le_of_entering?`, `precedes_of_leaving?` — of all columns that could enter, and of all rows
  that could be left, the best rank is taken.
* `Canonical.eq_basic` — the basic columns determine the basic solution.
* `Chooses.value_eq` — a pivot changes the cost by the price of the column times its new value, so
  not at all where that value is zero (`Chooses.basic_eq`).
* `length_course_of_exhausted` — a run without rounds left has gone through a tableau for each of them.
-/

namespace Milp.Relaxation.Tableau

variable {m w : Nat} {tols : Tolerances Rat} {rank : Vector Nat w} {cost : Vector Rat w}
  {limit : Nat} {t t' t₀ : Tableau Rat m w} {c : Fin w} {r : Fin m}

/-! ### Choices by rank -/

/-- Whether a column could enter the basis. -/
def MayEnter (t : Tableau Rat m w) (cost : Vector Rat w) (limit : Nat) (j : Fin w) : Prop :=
  j.val < limit ∧ t.price cost j < 0 ∧ ∀ i : Fin m, t.basis.get i ≠ j

/-- The column that enters has the best rank of those that could. -/
theorem rank_le_of_entering? (sharp : tols.Sharp) (marked : t.Marked)
    (enters : t.entering? tols rank cost limit = some c) {j : Fin w}
    (may : t.MayEnter cost limit j) : rank.get c ≤ rank.get j := by
  unfold entering? at enters
  revert c
  apply foldl_rule (Q := fun best => ∀ c, best = some c → rank.get c ≤ rank.get j)
    fun l best => ∀ k ∈ l, t.MayEnter cost limit k → ∃ c, best = some c ∧ rank.get c ≤ rank.get k
  · exact nofun
  · intro l i best least k hk may_k
    simp only [reducedCost_eq, sharp.pivot, neg_zero, Bool.and_eq_true, decide_eq_true_eq,
      Bool.not_eq_true', marked.isBasic_eq_false_iff]
    cases best with
    | none =>
      rcases List.mem_append.mp hk with hk | hk
      · obtain ⟨e, same, -⟩ := least k hk may_k
        cases same
      · rw [List.mem_singleton.mp hk] at may_k ⊢
        exact ⟨i, if_pos ⟨⟨⟨rfl, may_k.1⟩, may_k.2.1⟩, may_k.2.2⟩, le_rfl⟩
    | some e =>
      have known : k ∈ l → rank.get e ≤ rank.get k := fun hk => by
        obtain ⟨e', same, le⟩ := least k hk may_k
        exact Option.some.inj same ▸ le
      simp only [decide_eq_true_eq]
      by_cases better : rank.get i < rank.get e ∧ t.MayEnter cost limit i
      · obtain ⟨less, may_i⟩ := better
        refine ⟨i, if_pos ⟨⟨⟨less, may_i.1⟩, may_i.2.1⟩, may_i.2.2⟩, ?_⟩
        rcases List.mem_append.mp hk with hk | hk
        · exact less.le.trans (known hk)
        · rw [List.mem_singleton.mp hk]
      · refine ⟨e, if_neg fun h => better ⟨h.1.1.1, h.1.1.2, h.1.2, h.2⟩, ?_⟩
        rcases List.mem_append.mp hk with hk | hk
        · exact known hk
        · rw [List.mem_singleton.mp hk] at may_k ⊢
          exact not_lt.mp fun less => better ⟨less, may_k⟩
  · intro best least c same
    obtain ⟨d, rfl, le⟩ := least j (List.mem_finRange j) may
    exact Option.some.inj same ▸ le

/-- Whether a row is to be left rather than another one when a column enters: its ratio is smaller,
or it is the same and the rank of its basic column is not worse. -/
def Precedes (t : Tableau Rat m w) (rank : Vector Nat w) (c : Fin w) (r i : Fin m) : Prop :=
  t.ratio c r < t.ratio c i ∨
    t.ratio c r = t.ratio c i ∧ rank.get (t.basis.get r) ≤ rank.get (t.basis.get i)

/-- Precedence is transitive. -/
theorem Precedes.trans {i j k : Fin m} (hij : t.Precedes rank c i j) (hjk : t.Precedes rank c j k) :
    t.Precedes rank c i k := by
  rcases hij with less | ⟨same, le⟩
  · rcases hjk with less' | ⟨same', -⟩
    · exact .inl (less.trans less')
    · exact .inl (same' ▸ less)
  · rcases hjk with less' | ⟨same', le'⟩
    · exact .inl (same ▸ less')
    · exact .inr ⟨same.trans same', le.trans le'⟩

/-- The row that is left precedes every other row that stops the column. -/
theorem precedes_of_leaving? (sharp : tols.Sharp) (leaves : t.leaving? tols rank c = some r)
    {i : Fin m} (positive : 0 < t.entry i c) : t.Precedes rank c r i := by
  unfold leaving? at leaves
  revert r
  apply foldl_rule (Q := fun best => ∀ r, best.map Prod.fst = some r → t.Precedes rank c r i)
    fun l best => (best = none ∧ ∀ k ∈ l, t.entry k c ≤ 0) ∨
      ∃ r, best = some (r, t.ratio c r) ∧ ∀ k ∈ l, 0 < t.entry k c → t.Precedes rank c r k
  · exact .inl ⟨rfl, nofun⟩
  · intro l j best first
    simp only [sharp.pivot, sharp.ratio, sub_zero, Scalar.abs_eq, abs_nonpos_iff, sub_eq_zero]
    by_cases flat : t.entry j c ≤ 0
    · rw [if_pos flat]
      refine first.imp (.imp_right fun flats => ?_) fun ⟨r, best_eq, precedes⟩ => ⟨r, best_eq, ?_⟩
      · exact List.forall_mem_append.mpr ⟨flats, List.forall_mem_singleton.mpr flat⟩
      · exact List.forall_mem_append.mpr ⟨precedes, List.forall_mem_singleton.mpr fun above =>
          absurd above flat.not_gt⟩
    · rw [if_neg flat]
      refine .inr ?_
      rcases first with ⟨rfl, flats⟩ | ⟨r, rfl, precedes⟩
      · refine ⟨j, rfl, List.forall_mem_append.mpr ⟨fun k hk above => ?_, ?_⟩⟩
        · exact absurd above (flats k hk).not_gt
        · exact List.forall_mem_singleton.mpr fun _ => .inr ⟨rfl, le_rfl⟩
      · simp only [Bool.or_eq_true, Bool.and_eq_true, decide_eq_true_eq]
        split
        next nearer =>
          have before : t.Precedes rank c j r := nearer.imp_right fun h => ⟨h.1, h.2.le⟩
          refine ⟨j, rfl, List.forall_mem_append.mpr ⟨fun k hk above => ?_, ?_⟩⟩
          · exact before.trans (precedes k hk above)
          · exact List.forall_mem_singleton.mpr fun _ => .inr ⟨rfl, le_rfl⟩
        next farther =>
          refine ⟨r, rfl, List.forall_mem_append.mpr ⟨precedes, ?_⟩⟩
          refine List.forall_mem_singleton.mpr fun _ => ?_
          obtain ⟨not_less, not_better⟩ := not_or.mp farther
          rcases lt_or_eq_of_le (not_lt.mp not_less) with less | same
          · exact .inl less
          · exact .inr ⟨same, not_lt.mp fun better => not_better ⟨same.symm, better⟩⟩
  · intro best first r same
    rcases first with ⟨rfl, -⟩ | ⟨r', rfl, precedes⟩
    · cases same
    · exact Option.some.inj same ▸ precedes i (List.mem_finRange i) positive

/-! ### Basic columns -/

/-- The columns that rows are solved for. -/
def basics (t : Tableau Rat m w) : Finset (Fin w) := Finset.univ.image t.basis.get

/-- Whether a column is among those that rows are solved for. -/
theorem mem_basics {j : Fin w} : j ∈ t.basics ↔ ∃ i : Fin m, t.basis.get i = j := by
  simp [basics]

/-- A solution that is zero outside the basic columns is the basic solution. -/
theorem Canonical.eq_basic (h : t.Canonical) {y : Fin w → Rat} (solves : t.Solves y)
    (zero : ∀ j, j ∉ t.basics → y j = 0) : y = t.basic := by
  have spread_eq : t.spread (fun i => y (t.basis.get i)) = y := by
    funext j
    by_cases hj : j ∈ t.basics
    · obtain ⟨i, rfl⟩ := mem_basics.mp hj
      exact h.spread_basis _ i
    · rw [zero j hj]
      exact spread_eq_zero fun i same => absurd (mem_basics.mpr ⟨i, same⟩) hj
  have values (i : Fin m) : y (t.basis.get i) = t.rhs.get i := by
    rw [← solves i, ← h.sum_entry_spread (fun i => y (t.basis.get i)) i, spread_eq]
  rw [basic, ← spread_eq]
  simp only [values]

/-- The basic solution is zero outside the basic columns. -/
theorem basic_eq_zero {j : Fin w} (h : j ∉ t.basics) : t.basic j = 0 :=
  spread_eq_zero fun i same => absurd (mem_basics.mpr ⟨i, same⟩) h

/-- Two tableaus with the same solutions and the same basic columns have the same basic solution. -/
theorem Reaches.basic_eq {t t' : Tableau Rat m w} (h : Reaches limit t₀ t)
    (h' : Reaches limit t₀ t') (same : t'.basics = t.basics) : t'.basic = t.basic :=
  h.canonical.eq_basic ((h.solves _).mpr ((h'.solves _).mp h'.canonical.solves_basic))
    fun _ hj => basic_eq_zero (same ▸ hj)

/-- A column that is basic after a pivot was basic before or entered with it. -/
theorem mem_basics_pivot {j : Fin w} (h : j ∈ (t.pivot tols r c).basics) : j = c ∨ j ∈ t.basics := by
  obtain ⟨i, rfl⟩ := mem_basics.mp h
  rw [basis_pivot]
  split
  · exact .inl rfl
  · exact .inr (mem_basics.mpr ⟨i, rfl⟩)

/-- A column that was basic before a pivot is basic after it, unless its row was left. -/
theorem mem_basics_pivot_of_mem {j : Fin w} (h : j ∈ t.basics) (stays : j ≠ t.basis.get r) :
    j ∈ (t.pivot tols r c).basics := by
  obtain ⟨i, rfl⟩ := mem_basics.mp h
  refine mem_basics.mpr ⟨i, ?_⟩
  have other : i ≠ r := fun same => stays (by rw [same])
  rw [basis_pivot, if_neg other]

/-- The column of a pivot is basic after it. -/
theorem self_mem_basics_pivot : c ∈ (t.pivot tols r c).basics :=
  mem_basics.mpr ⟨r, by rw [basis_pivot, if_pos rfl]⟩

/-! ### One round -/

/-- Whether a round of the simplex method pivots on the given column and row. -/
structure Chooses (tols : Tolerances Rat) (rank : Vector Nat w) (cost : Vector Rat w) (limit : Nat)
    (t : Tableau Rat m w) (c : Fin w) (r : Fin m) : Prop where
  enters : t.entering? tols rank cost limit = some c
  leaves : t.leaving? tols rank c = some r

namespace Chooses

variable (h : t.Chooses tols rank cost limit c r) (sharp : tols.Sharp)
include h sharp

/-- The column that enters could enter. -/
theorem mayEnter (marked : t.Marked) : t.MayEnter cost limit c :=
  (entering?_spec sharp marked).1 c h.enters

/-- The column that enters is not basic. -/
theorem not_mem_basics (marked : t.Marked) : c ∉ t.basics := fun basic => by
  obtain ⟨i, same⟩ := mem_basics.mp basic
  exact (h.mayEnter sharp marked).2.2 i same

/-- The row that is left has a positive coefficient. -/
theorem entry_pos : 0 < t.entry r c := ((leaving?_spec sharp).1 r h.leaves).1

/-- The pivot keeps what pivots keep. -/
theorem reaches (reaches : Reaches w t₀ t) : Reaches w t₀ (t.pivot tols r c) :=
  reaches.pivot sharp c.2 ((leaving?_spec sharp).1 r h.leaves)

/-- The pivot also keeps what pivots below the limit keep. -/
theorem reaches_limit (reaches : Reaches limit t₀ t) : Reaches limit t₀ (t.pivot tols r c) :=
  reaches.pivot sharp (h.mayEnter sharp reaches.marked).1 ((leaving?_spec sharp).1 r h.leaves)

/-- The pivot changes the cost by the price of the column times its value. -/
theorem value_eq (reaches : Reaches w t₀ t) :
    (t.pivot tols r c).value cost = t.value cost + t.price cost c * t.ratio c r := by
  have after := h.reaches sharp reaches
  have solves : t.Solves (t.pivot tols r c).basic :=
    (solves_pivot sharp.ratio (h.entry_pos sharp).ne' _).mp after.canonical.solves_basic
  have value : (t.pivot tols r c).basic c = t.ratio c r := by
    have entered : (t.pivot tols r c).basis.get r = c := by rw [basis_pivot, if_pos rfl]
    calc (t.pivot tols r c).basic c
        = (t.pivot tols r c).basic ((t.pivot tols r c).basis.get r) := by rw [entered]
      _ = (t.pivot tols r c).rhs.get r := after.canonical.spread_basis _ r
      _ = t.ratio c r := by rw [rhs_pivot sharp.ratio, if_pos rfl, ratio]
  have free (j : Fin w) (other : j ≠ c) :
      t.price cost j * (t.pivot tols r c).basic j = 0 := by
    by_cases hj : j ∈ t.basics
    · obtain ⟨i, rfl⟩ := mem_basics.mp hj
      rw [reaches.canonical.price_basis, zero_mul]
    · rw [basic_eq_zero fun basic => (mem_basics_pivot basic).elim other hj, mul_zero]
  rw [← sum_cost_basic, solves.sum_cost cost,
    Finset.sum_eq_single c (fun j _ other => free j other) (by simp), value]

/-- The pivot does not raise the cost. -/
theorem value_le (reaches : Reaches w t₀ t) :
    (t.pivot tols r c).value cost ≤ t.value cost := by
  rw [h.value_eq sharp reaches]
  have cheap := (h.mayEnter sharp reaches.marked).2.1
  have nonneg : 0 ≤ t.ratio c r := div_nonneg (reaches.nonneg r) (h.entry_pos sharp).le
  linarith [mul_nonpos_of_nonpos_of_nonneg cheap.le nonneg]

/-- A pivot that keeps the cost is one in a row with the value zero. -/
theorem rhs_eq_zero (reaches : Reaches w t₀ t)
    (same : (t.pivot tols r c).value cost = t.value cost) : t.rhs.get r = 0 := by
  rw [h.value_eq sharp reaches, add_eq_left, mul_eq_zero] at same
  have cheap := (h.mayEnter sharp reaches.marked).2.1
  have zero : t.ratio c r = 0 := same.resolve_left cheap.ne
  exact (div_eq_zero_iff.mp zero).resolve_right (h.entry_pos sharp).ne'

/-- A pivot in a row with the value zero keeps the basic solution. -/
theorem basic_eq (reaches : Reaches w t₀ t) (zero : t.rhs.get r = 0) :
    (t.pivot tols r c).basic = t.basic := by
  refine ((h.reaches sharp reaches).canonical.eq_basic ?_ fun j hj => ?_).symm
  · exact (solves_pivot sharp.ratio (h.entry_pos sharp).ne' _).mpr reaches.canonical.solves_basic
  · by_cases stays : j = t.basis.get r
    · rw [stays]
      exact (reaches.canonical.spread_basis _ r).trans zero
    · exact basic_eq_zero fun basic => hj (mem_basics_pivot_of_mem basic stays)

end Chooses

/-! ### All rounds -/

/-- The tableaus that a run goes through, from the first one on. -/
def course (tols : Tolerances Rat) (rank : Vector Nat w) (cost : Vector Rat w) (limit : Nat) :
    Nat → Tableau Rat m w → List (Tableau Rat m w)
  | rounds, t =>
    match t.entering? tols rank cost limit with
    | none => [t]
    | some c =>
      match t.leaving? tols rank c with
      | none => [t]
      | some r =>
        match rounds with
        | 0 => [t]
        | rounds + 1 => t :: course tols rank cost limit rounds (t.pivot tols r c)

/-- Whether a tableau comes from another one by a round of the simplex method. -/
def Turns (tols : Tolerances Rat) (rank : Vector Nat w) (cost : Vector Rat w) (limit : Nat)
    (t t' : Tableau Rat m w) : Prop :=
  ∃ c r, t.Chooses tols rank cost limit c r ∧ t' = t.pivot tols r c

variable (tols rank cost limit) in
/-- A course starts with the first tableau. -/
theorem exists_course (rounds : Nat) (t : Tableau Rat m w) :
    ∃ l, t.course tols rank cost limit rounds = t :: l := by
  fun_cases course tols rank cost limit rounds t with
  | case4 => exact ⟨_, rfl⟩
  | _ => exact ⟨[], rfl⟩

/-- Without rounds there is only the first tableau. -/
theorem course_zero (t : Tableau Rat m w) : t.course tols rank cost limit 0 = [t] := by
  unfold course
  split
  · rfl
  · split <;> rfl

/-- A course goes on with the tableau after the pivot. -/
theorem Chooses.course_eq (h : t.Chooses tols rank cost limit c r) (rounds : Nat) :
    t.course tols rank cost limit (rounds + 1) =
      t :: (t.pivot tols r c).course tols rank cost limit rounds := by
  conv_lhs => unfold course
  simp only [h.enters, h.leaves]

variable (tols rank cost limit) in
/-- Every tableau of a course comes from the one before. -/
theorem isChain_course (rounds : Nat) (t : Tableau Rat m w) :
    (t.course tols rank cost limit rounds).IsChain (Turns tols rank cost limit) := by
  fun_induction course tols rank cost limit rounds t with
  | case4 t c enters r leaves rounds ih =>
    obtain ⟨l, l_eq⟩ := exists_course tols rank cost limit rounds (t.pivot tols r c)
    rw [l_eq] at ih ⊢
    exact .cons_cons ⟨c, r, ⟨enters, leaves⟩, rfl⟩ ih
  | _ => exact .singleton _

/-- What holds of the first tableau and survives every round holds of all tableaus of a course. -/
theorem course_rule {P : Tableau Rat m w → Prop}
    (next : ∀ t c r, t.Chooses tols rank cost limit c r → P t → P (t.pivot tols r c))
    (rounds : Nat) (start : P t) : ∀ s ∈ t.course tols rank cost limit rounds, P s := by
  fun_induction course tols rank cost limit rounds t with
  | case4 t c enters r leaves rounds ih =>
    intro s hs
    rcases List.mem_cons.mp hs with rfl | hs
    · exact start
    · exact ih (next t c r ⟨enters, leaves⟩ start) s hs
  | _ =>
    intro s hs
    rw [List.mem_singleton.mp hs]
    exact start

/-- A run that uses up its rounds goes through a tableau for each of them and through the first one,
and there is another one that it would go to. -/
theorem length_course_of_exhausted (rounds : Nat) (t : Tableau Rat m w)
    (ends : t.run tols rank cost limit rounds = .exhausted) :
    (t.course tols rank cost limit (rounds + 1)).length = rounds + 2 := by
  fun_induction run tols rank cost limit rounds t with
  | case1 => cases ends
  | case2 => cases ends
  | case3 t c enters r leaves =>
    rw [Chooses.course_eq ⟨enters, leaves⟩, List.length_cons, course_zero]
    rfl
  | case4 t c enters r leaves rounds ih =>
    rw [Chooses.course_eq ⟨enters, leaves⟩, List.length_cons, ih ends]

/-- A run that ends with some rounds also ends with one more. -/
theorem not_exhausted_succ {rounds : Nat} {t : Tableau Rat m w}
    (ends : t.run tols rank cost limit rounds ≠ .exhausted) :
    t.run tols rank cost limit (rounds + 1) ≠ .exhausted := by
  fun_induction run tols rank cost limit rounds t with
  | case1 rounds t none =>
    unfold run
    simp only [none]
    intro exhausted
    cases exhausted
  | case2 rounds t c enters none =>
    unfold run
    simp only [enters, none]
    intro exhausted
    cases exhausted
  | case3 => exact absurd rfl ends
  | case4 t c enters r leaves rounds ih =>
    unfold run
    simp only [enters, leaves]
    exact ih ends

/-- A run that ends with some rounds also ends with more. -/
theorem not_exhausted_of_le {rounds more : Nat} (le : rounds ≤ more)
    (ends : t.run tols rank cost limit rounds ≠ .exhausted) :
    t.run tols rank cost limit more ≠ .exhausted := by
  induction more, le using Nat.le_induction with
  | base => exact ends
  | succ more _ ih => exact not_exhausted_succ ih

end Milp.Relaxation.Tableau
