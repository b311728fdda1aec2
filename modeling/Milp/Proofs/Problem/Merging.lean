import Mathlib
import Milp.Problem.Build
import Milp.Proofs.Problem.Domains

/-!
# The terms of a row

A row is stored with one term for each variable, in ascending order, and the coefficient of a
variable is the sum of those that it is given, from the first to the last (`mem_mergeTerms`):
sorting by the variable leaves the terms of one variable in their order
(`coefficientsOf_mergeSort`). In exact arithmetic the order does not matter, and the row means what
its terms mean (`Row.activity_mergeTerms`).

Doubles may overflow on the way. A sum that has done so stays infinite (`Double.finite_of_total?`),
and that is not checked again: a stored coefficient is finite exactly if none of its partial sums
overflows (`Problem.addConstraint_merges`, `Problem.overflow_stored`).
-/

namespace Milp

section

variable {α : Type} {v w : Var} {a b : α} {terms : List (Var × α)}

/-! ### The coefficients of a variable -/

/-- The coefficients that terms give to a variable, from the first to the last. -/
def coefficientsOf (v : Var) (terms : List (Var × α)) : List α :=
  (terms.filter fun t => t.1 = v).map (·.2)

/-- A term counts for its own variable. -/
theorem coefficientsOf_cons_self (v : Var) (a : α) (terms : List (Var × α)) :
    coefficientsOf v ((v, a) :: terms) = a :: coefficientsOf v terms := by
  simp [coefficientsOf]

/-- A term does not count for any other variable. -/
theorem coefficientsOf_cons_of_ne (other : w ≠ v) (a : α) (terms : List (Var × α)) :
    coefficientsOf v ((w, a) :: terms) = coefficientsOf v terms := by
  simp [coefficientsOf, other]

/-- A coefficient of a variable is that of a term. -/
theorem mem_coefficientsOf : a ∈ coefficientsOf v terms ↔ (v, a) ∈ terms := by
  simp [coefficientsOf]

/-- The order of terms by their variables is transitive. -/
theorem byVariable_trans (s t u : Var × α) (st : decide (s.1 ≤ t.1) = true)
    (tu : decide (t.1 ≤ u.1) = true) : decide (s.1 ≤ u.1) = true :=
  decide_eq_true ((of_decide_eq_true st).trans (of_decide_eq_true tu))

/-- The order of terms by their variables is total. -/
theorem byVariable_total (s t : Var × α) : (decide (s.1 ≤ t.1) || decide (t.1 ≤ s.1)) = true := by
  simpa using le_total s.1 t.1

/-- Sorting terms by their variables keeps the order of the coefficients of one variable. -/
theorem coefficientsOf_mergeSort (v : Var) (terms : List (Var × α)) :
    coefficientsOf v (terms.mergeSort fun s t => s.1 ≤ t.1) = coefficientsOf v terms := by
  have level : (terms.filter fun t => t.1 = v).Pairwise fun s t => decide (s.1 ≤ t.1) = true := by
    refine List.pairwise_of_forall_mem_list fun s hs t ht => decide_eq_true ?_
    simp only [List.mem_filter, decide_eq_true_eq] at hs ht
    rw [hs.2, ht.2]
  have kept := (List.sublist_mergeSort byVariable_trans byVariable_total level
    List.filter_sublist).filter fun t => t.1 = v
  simp only [List.filter_filter, Bool.and_self] at kept
  exact congrArg (List.map (·.2))
    (kept.eq_of_length ((List.mergeSort_perm terms _).filter _).length_eq.symm).symm

/-- Among terms in the order of their variables, no variable comes again behind a larger one. -/
theorem coefficientsOf_eq_nil {rest : List (Var × α)} (sorted : ∀ t ∈ rest, w ≤ t.1)
    (less : v < w) :
    coefficientsOf v rest = [] := by
  refine List.eq_nil_iff_forall_not_mem.mpr fun a ha => ?_
  exact absurd (sorted _ (mem_coefficientsOf.mp ha)) (not_le.mpr less)

variable [Scalar α]

/-- The sum of numbers from the left, starting with the first; there is none of no numbers. -/
def total? : List α → Option α
  | [] => none
  | a :: as => some (as.foldl (· + ·) a)

/-- A sum may begin with the sum of the first two numbers. -/
theorem total?_cons_cons (a b : α) (as : List α) : total? (a :: b :: as) = total? ((a + b) :: as) :=
  rfl

/-- Only a variable of some term has a sum. -/
theorem exists_mem_of_total? (h : total? (coefficientsOf v terms) = some b) :
    ∃ a, (v, a) ∈ terms := by
  cases eq : coefficientsOf v terms with
  | nil =>
    rw [eq] at h
    cases h
  | cons a as => exact ⟨a, mem_coefficientsOf.mp (eq ▸ List.mem_cons_self)⟩

/-! ### Merging -/

/-- The terms that are merged: every variable has the sum of its coefficients. -/
theorem mem_mergeFrom {rest : List (Var × α)}
    (sorted : ((v, a) :: rest).Pairwise fun s t => s.1 ≤ t.1) :
    (w, b) ∈ mergeFrom v a rest ↔ total? (coefficientsOf w ((v, a) :: rest)) = some b := by
  induction rest generalizing v a with
  | nil =>
    by_cases same : v = w
    · subst same
      simp [mergeFrom, coefficientsOf, total?, eq_comm]
    · simp [mergeFrom, coefficientsOf, total?, same, Ne.symm same]
  | cons t rest ih =>
    obtain ⟨u, c⟩ := t
    obtain ⟨first, later⟩ := List.pairwise_cons.mp sorted
    rw [mergeFrom]
    split
    next same =>
      subst same
      have shorter : ((v, a + c) :: rest).Pairwise fun s t => s.1 ≤ t.1 :=
        List.pairwise_cons.mpr (List.pairwise_cons.mp later)
      rw [ih shorter]
      by_cases own : v = w
      · subst own
        simp only [coefficientsOf_cons_self, total?_cons_cons]
      · simp only [coefficientsOf_cons_of_ne own]
    next other =>
      have less : v < u := lt_of_le_of_ne (first (u, c) List.mem_cons_self) other
      rw [List.mem_cons, ih later]
      by_cases own : v = w
      · subst own
        have gone : coefficientsOf v ((u, c) :: rest) = [] :=
          coefficientsOf_eq_nil (w := u) (by
            simpa using fun x y h => (List.pairwise_cons.mp later).1 (x, y) h) less
        simp [coefficientsOf_cons_self, gone, total?, eq_comm]
      · rw [coefficientsOf_cons_of_ne own]
        simp [Ne.symm own]

/-- Merged terms are in strictly ascending order of their variables. -/
theorem pairwise_mergeFrom {rest : List (Var × α)}
    (sorted : ((v, a) :: rest).Pairwise fun s t => s.1 ≤ t.1) :
    (mergeFrom v a rest).Pairwise fun s t => s.1 < t.1 := by
  induction rest generalizing v a with
  | nil => exact List.pairwise_singleton _ _
  | cons t rest ih =>
    obtain ⟨u, c⟩ := t
    obtain ⟨first, later⟩ := List.pairwise_cons.mp sorted
    rw [mergeFrom]
    split
    next same =>
      subst same
      exact ih (List.pairwise_cons.mpr (List.pairwise_cons.mp later))
    next other =>
      have less : v < u := lt_of_le_of_ne (first (u, c) List.mem_cons_self) other
      refine List.pairwise_cons.mpr ⟨fun t merged => ?_, ih later⟩
      obtain ⟨d, among⟩ := exists_mem_of_total? ((mem_mergeFrom later).mp merged)
      rcases List.mem_cons.mp among with head | tail
      · rw [congrArg Prod.fst head]
        exact less
      · exact less.trans_le ((List.pairwise_cons.mp later).1 (t.1, d) tail)

/-- The sorted terms of a row are none, or merging starts with the first of them. -/
theorem mergeTerms_cases (terms : List (Var × α)) :
    terms = [] ∧ mergeTerms terms = [] ∨
      ∃ v a rest, (terms.mergeSort fun s t => s.1 ≤ t.1) = (v, a) :: rest ∧
        (((v, a) :: rest).Pairwise fun s t => s.1 ≤ t.1) ∧
        mergeTerms terms = (mergeFrom v a rest).filter fun t => !(t.2 == 0) := by
  have sorted : (terms.mergeSort fun s t => s.1 ≤ t.1).Pairwise fun s t => s.1 ≤ t.1 :=
    (List.pairwise_mergeSort byVariable_trans byVariable_total terms).imp of_decide_eq_true
  unfold mergeTerms
  cases eq : terms.mergeSort fun s t => s.1 ≤ t.1 with
  | nil =>
    have perm := List.mergeSort_perm terms fun s t => decide (s.1 ≤ t.1)
    rw [eq] at perm
    exact .inl ⟨perm.symm.eq_nil, rfl⟩
  | cons t rest =>
    rw [eq] at sorted
    exact .inr ⟨t.1, t.2, rest, rfl, sorted, rfl⟩

/-- The terms of a row are in strictly ascending order of their variables. -/
theorem pairwise_mergeTerms (terms : List (Var × α)) :
    (mergeTerms terms).Pairwise fun s t => s.1 < t.1 := by
  obtain ⟨-, eq⟩ | ⟨v, a, rest, -, sorted, eq⟩ := mergeTerms_cases terms
  · rw [eq]
    exact .nil
  · rw [eq]
    exact (pairwise_mergeFrom sorted).filter _

/-- A row has a term for every variable whose coefficients do not add up to zero, and no other. -/
theorem mem_mergeTerms :
    (v, a) ∈ mergeTerms terms ↔ total? (coefficientsOf v terms) = some a ∧ (a == 0) = false := by
  obtain ⟨rfl, eq⟩ | ⟨u, c, rest, sort_eq, sorted, eq⟩ := mergeTerms_cases terms
  · simp [eq, coefficientsOf, total?]
  · rw [eq, List.mem_filter, mem_mergeFrom sorted, ← sort_eq, coefficientsOf_mergeSort]
    simp

/-! ### Rows that are added -/

/-- A constraint is added exactly if its name is new, its right-hand side is finite, and its terms
have known variables and finite coefficients. -/
theorem Problem.addConstraint_eq_ok_iff {p q : Problem α} {name : String} {sense : RowSense}
    {rhs : α} {i : Nat} : p.addConstraint name terms sense rhs = .ok (i, q) ↔
      p.constraints.any (·.name == name) = false ∧ Scalar.isFinite rhs = true ∧
        (∀ t ∈ terms, t.1 < p.size ∧ Scalar.isFinite t.2 = true) ∧ i = p.constraints.size ∧
        q = { p with constraints :=
          p.constraints.push { terms := mergeTerms terms, sense, rhs, name } } := by
  have good : p.badTerm? name terms = none ↔
      ∀ t ∈ terms, t.1 < p.size ∧ Scalar.isFinite t.2 = true := by
    simp only [badTerm?, List.findSome?_eq_none_iff]
    refine forall₂_congr fun t _ => ?_
    by_cases known : t.1 < p.size
    · by_cases finite : Scalar.isFinite t.2 = true <;> simp [known, finite, not_le.mpr known]
    · simp [known, not_lt.mp known]
  rw [addConstraint]
  by_cases used : p.constraints.any (·.name == name) = true
  · rw [if_pos used]
    exact iff_of_false (by simp) fun h => Bool.false_ne_true (h.1.symm.trans used)
  rw [if_neg used, ← good]
  by_cases finite : Scalar.isFinite rhs = true
  · rw [if_neg (by simp [finite])]
    cases p.badTerm? name terms with
    | none =>
      simp only [Except.ok.injEq, Prod.mk.injEq]
      exact ⟨fun h => ⟨Bool.eq_false_iff.mpr used, finite, trivial, h.1.symm, h.2.symm⟩,
        fun h => ⟨h.2.2.2.1.symm, h.2.2.2.2.symm⟩⟩
    | some e => exact iff_of_false (by simp) fun h => Option.some_ne_none e h.2.2.1
  · rw [if_pos (by simp [finite])]
    exact iff_of_false (by simp) fun h => finite h.2.1

end

/-! ### Exact rows -/

section

variable {v : Var} {a : ℚ} {terms terms' : List (Var × ℚ)}

/-- Exact numbers have one sum, in whatever order. -/
theorem total?_eq (xs : List ℚ) : total? xs = if xs = [] then none else some xs.sum := by
  cases xs with
  | nil => rfl
  | cons a as =>
    have from_zero : as.foldl (· + ·) (-0 + a) = (a :: as).sum := Scalar.sum_eq (a :: as)
    rw [neg_zero, zero_add] at from_zero
    rw [if_neg (List.cons_ne_nil a as), ← from_zero]
    rfl

/-- Merging terms changes no sum over them that is linear in the coefficients. -/
theorem sum_mergeFrom (y : Var → ℚ) (rest : List (Var × ℚ)) :
    ((mergeFrom v a rest).map fun t => t.2 * y t.1).sum =
      a * y v + (rest.map fun t => t.2 * y t.1).sum := by
  induction rest generalizing v a with
  | nil => simp [mergeFrom]
  | cons t rest ih =>
    obtain ⟨w, b⟩ := t
    rw [mergeFrom, List.map_cons, List.sum_cons]
    split
    next same =>
      subst same
      rw [ih]
      show (a + b) * y v + _ = _
      ring
    next => rw [List.map_cons, List.sum_cons, ih]

/-- Terms that are zero add nothing. -/
theorem sum_filter_nonzero (y : Var → ℚ) (terms : List (Var × ℚ)) :
    ((terms.filter fun t => !(t.2 == 0)).map fun t => t.2 * y t.1).sum =
      (terms.map fun t => t.2 * y t.1).sum := by
  induction terms with
  | nil => rfl
  | cons t terms ih =>
    by_cases zero : t.2 = 0
    · rw [List.filter_cons_of_neg (by simp [zero]), ih, List.map_cons, List.sum_cons, zero,
        zero_mul, zero_add]
    · rw [List.filter_cons_of_pos (by simp [zero]), List.map_cons, List.sum_cons, ih, List.map_cons,
        List.sum_cons]

/-- The terms of a row mean what the given terms mean. -/
theorem sum_mergeTerms (y : Var → ℚ) (terms : List (Var × ℚ)) :
    ((mergeTerms terms).map fun t => t.2 * y t.1).sum = (terms.map fun t => t.2 * y t.1).sum := by
  obtain ⟨rfl, eq⟩ | ⟨v, a, rest, sort_eq, -, eq⟩ := mergeTerms_cases terms
  · rw [eq]
  · rw [eq, sum_filter_nonzero, sum_mergeFrom]
    have perm := (List.mergeSort_perm terms fun s t => decide (s.1 ≤ t.1)).map fun t => t.2 * y t.1
    rw [← perm.sum_eq, sort_eq, List.map_cons, List.sum_cons]

/-- The activity of a row that is stored is the sum over the terms that it was given. -/
theorem Row.activity_mergeTerms (terms : List (Var × ℚ)) (sense : RowSense) (rhs : ℚ)
    (x : Array ℚ) :
    Row.activity ⟨mergeTerms terms, sense, rhs⟩ x =
      (terms.map fun t => t.2 * x.getD t.1 0).sum := by
  rw [Row.activity, Scalar.sum_eq]
  exact sum_mergeTerms (fun v => x.getD v 0) terms

/-- Rows in strictly ascending order of their variables are equal if they have the same terms. -/
theorem eq_of_ascending {row row' : List (Var × ℚ)} (h : row.Pairwise fun s t => s.1 < t.1)
    (h' : row'.Pairwise fun s t => s.1 < t.1) (same : ∀ t, t ∈ row ↔ t ∈ row') : row = row' := by
  have distinct : ∀ {row : List (Var × ℚ)}, row.Pairwise (fun s t => s.1 < t.1) → row.Nodup := by
    intro row ascending
    refine ascending.imp fun less => ?_
    rintro rfl
    exact lt_irrefl _ less
  refine List.Perm.eq_of_pairwise (fun s t _ _ st ts => absurd st ts.asymm) h h' ?_
  exact (List.perm_ext_iff_of_nodup (distinct h) (distinct h')).mpr same

/-- Exact terms in another order make the same row. -/
theorem mergeTerms_perm (perm : terms.Perm terms') : mergeTerms terms = mergeTerms terms' := by
  refine eq_of_ascending (pairwise_mergeTerms _) (pairwise_mergeTerms _) ?_
  rintro ⟨v, a⟩
  have coefficients : (coefficientsOf v terms).Perm (coefficientsOf v terms') :=
    (perm.filter _).map _
  have empty : coefficientsOf v terms = [] ↔ coefficientsOf v terms' = [] := by
    rw [← List.length_eq_zero_iff, coefficients.length_eq, List.length_eq_zero_iff]
  simp only [mem_mergeTerms, total?_eq, empty, coefficients.sum_eq]

end

/-! ### Sums that overflow -/

namespace Double

open Float.Model Float.Model.UnpackedFloat

/-- What is stored of an infinity. -/
theorem unpack_pack_infinity (s : Sign) : (Float.Model.pack (.infinity s)).unpack = .infinity s :=
  (unpack_packComponents s (show 2047 < 2048 by norm_num) (show 0 < 2 ^ 52 by norm_num)).trans
    (by simp)

/-- A double that is defined stays defined when a finite one is added, and infinite if it is. -/
theorem add_defined {x y : Float} (defined : Scalar.extend x ≠ .undefined)
    (finite : Scalar.isFinite y = true) :
    Scalar.extend (x + y) ≠ .undefined ∧
      (Scalar.isFinite (x + y) = true → Scalar.isFinite x = true) := by
  by_cases x_finite : Scalar.isFinite x = true
  · refine ⟨fun undefined => ?_, fun _ => x_finite⟩
    have rounded := Scalar.Faithful.add_spec x_finite finite
    rw [undefined] at rounded
    cases rounded
  · obtain ⟨s, infinite⟩ : ∃ s, x.toModel.unpack = .infinity s := by
      rw [extend_eq] at defined
      rw [isFinite_iff] at x_finite
      cases eq : x.toModel.unpack with
      | infinity s => exact ⟨s, rfl⟩
      | notANumber =>
        rw [eq] at defined
        exact absurd rfl defined
      | _ =>
        rw [eq] at x_finite
        exact absurd rfl x_finite
    have sum : (x + y).toModel.unpack = .infinity s := by
      rw [isFinite_iff] at finite
      show (Float.Model.pack
        (UnpackedFloat.add Format.binary64 x.toModel.unpack y.toModel.unpack)).unpack = _
      rw [infinite]
      cases eq : y.toModel.unpack with
      | infinity => rw [eq] at finite; cases finite
      | notANumber => rw [eq] at finite; cases finite
      | _ => exact unpack_pack_infinity s
    rw [isFinite_iff, extend_eq, sum]
    exact ⟨by cases s <;> exact nofun, nofun⟩

/-- Adding finite doubles one after the other keeps the sum defined, and infinite once it is. -/
theorem foldl_defined {xs : List Float} (finite : ∀ x ∈ xs, Scalar.isFinite x = true) {a : Float}
    (defined : Scalar.extend a ≠ .undefined) :
    Scalar.extend (xs.foldl (· + ·) a) ≠ .undefined ∧
      (Scalar.isFinite (xs.foldl (· + ·) a) = true → Scalar.isFinite a = true) := by
  induction xs generalizing a with
  | nil => exact ⟨defined, id⟩
  | cons x xs ih =>
    obtain ⟨sum_defined, kept⟩ := add_defined defined (finite x List.mem_cons_self)
    obtain ⟨all_defined, back⟩ :=
      ih (fun y hy => finite y (List.mem_cons_of_mem x hy)) sum_defined
    exact ⟨all_defined, kept ∘ back⟩

/-- A sum of finite doubles is defined, and it is finite exactly if no partial sum overflows. -/
theorem finite_of_total? {xs : List Float} (finite : ∀ x ∈ xs, Scalar.isFinite x = true) {a : Float}
    (sum : total? xs = some a) :
    a.isNaN = false ∧ (Scalar.isFinite a = true ↔
      ∀ n b, total? (xs.take n) = some b → Scalar.isFinite b = true) := by
  cases xs with
  | nil => cases sum
  | cons x xs =>
    cases sum
    have x_defined : Scalar.extend x ≠ .undefined := by
      rw [extend_of_isFinite (finite x List.mem_cons_self)]
      exact nofun
    have rest : ∀ y ∈ xs, Scalar.isFinite y = true := fun y hy =>
      finite y (List.mem_cons_of_mem x hy)
    refine ⟨?_, fun all n b partial_sum => ?_, fun all => all (xs.length + 1) _ ?_⟩
    · rw [Bool.eq_false_iff, Ne, isNaN_iff]
      exact (foldl_defined rest x_defined).1
    · cases n with
      | zero => cases partial_sum
      | succ n =>
        cases partial_sum
        -- The whole sum goes on from the partial one.
        rw [← List.take_append_drop n xs, List.foldl_append] at all
        refine (foldl_defined (fun y hy => rest y (List.mem_of_mem_drop hy)) ?_).2 all
        exact (foldl_defined (fun y hy => rest y (List.mem_of_mem_take hy)) x_defined).1
    · rw [List.take_of_length_le (by simp)]
      rfl

end Double
/-! ### What is stored of a row -/

/-- What is stored of the terms of a row over `n` variables: terms of these variables in strictly
ascending order, none of them zero, and for every variable the sum of the coefficients that it is
given, from the first to the last. -/
structure Merged {α : Type} [Scalar α] (n : Nat) (terms row : List (Var × α)) : Prop where
  ascending : row.Pairwise fun s t => s.1 < t.1
  below : ∀ t ∈ row, t.1 < n
  nonzero : ∀ t ∈ row, (t.2 == 0) = false
  totals : ∀ v a, (v, a) ∈ row ↔ total? (coefficientsOf v terms) = some a ∧ (a == 0) = false

/-- The terms of a constraint that is added are merged. -/
theorem merged_mergeTerms {α : Type} [Scalar α] {n : Nat} {terms : List (Var × α)}
    (known : ∀ t ∈ terms, t.1 < n ∧ Scalar.isFinite t.2 = true) :
    Merged n terms (mergeTerms terms) where
  ascending := pairwise_mergeTerms terms
  below := fun t stored => by
    obtain ⟨a, given⟩ := exists_mem_of_total? (mem_mergeTerms.mp stored).1
    exact (known _ given).1
  nonzero := fun t stored => (mem_mergeTerms.mp stored).2
  totals := fun _ _ => mem_mergeTerms

/-- Whatever terms a constraint is added with, they are stored merged. In doubles no coefficient is
undefined, and one is finite exactly if no partial sum of those given overflows. In exact numbers
the row means what its terms mean, and terms in another order are stored as the same row. -/
theorem Problem.addConstraint_merges (name : String) (sense : RowSense) :
    (∀ (p q : Problem Float) (terms : List (Var × Float)) (rhs : Float) (i : Nat),
      p.addConstraint name terms sense rhs = .ok (i, q) →
      ∃ row, q = { p with constraints := p.constraints.push { terms := row, sense, rhs, name } } ∧
        Merged p.size terms row ∧
        ∀ t ∈ row, t.2.isNaN = false ∧ (Scalar.isFinite t.2 = true ↔
          ∀ n b, total? ((coefficientsOf t.1 terms).take n) = some b →
            Scalar.isFinite b = true)) ∧
    ∀ (p q : Problem ℚ) (terms : List (Var × ℚ)) (rhs : ℚ) (i : Nat),
      p.addConstraint name terms sense rhs = .ok (i, q) →
      ∃ row, q = { p with constraints := p.constraints.push { terms := row, sense, rhs, name } } ∧
        Merged p.size terms row ∧
        (∀ x : Array ℚ, Row.activity ⟨row, sense, rhs⟩ x =
          (terms.map fun t => t.2 * x.getD t.1 0).sum) ∧
        ∀ terms', terms.Perm terms' → p.addConstraint name terms' sense rhs = .ok (i, q) := by
  constructor
  · intro p q terms rhs i added
    obtain ⟨-, -, known, -, rfl⟩ := addConstraint_eq_ok_iff.mp added
    refine ⟨_, rfl, merged_mergeTerms known, fun t stored => ?_⟩
    have finite : ∀ a ∈ coefficientsOf t.1 terms, Scalar.isFinite a = true := fun a given =>
      (known _ (mem_coefficientsOf.mp given)).2
    exact Double.finite_of_total? finite (mem_mergeTerms.mp stored).1
  · intro p q terms rhs i added
    obtain ⟨fresh, finite, known, rfl, rfl⟩ := addConstraint_eq_ok_iff.mp added
    refine ⟨_, rfl, merged_mergeTerms known, Row.activity_mergeTerms terms sense rhs,
      fun terms' perm => ?_⟩
    refine addConstraint_eq_ok_iff.mpr ⟨fresh, finite, fun t given => known t ?_, rfl, ?_⟩
    · exact perm.mem_iff.mpr given
    · rw [mergeTerms_perm perm]

/-- Two free variables. -/
def Problem.planar {α : Type} [Scalar α] : Problem α where
  name := "planar"
  vars := #[⟨"x", .continuous, 0, 0, .posInf⟩, ⟨"y", .continuous, 0, 0, .posInf⟩]

/-- Of four terms, two cancel and two are added up, in whatever order they are given. -/
theorem Problem.planar_merges :
    let terms : List (Var × ℚ) := [(1, 2), (0, 1), (1, 3), (0, -1)]
    ∃ q, (planar : Problem ℚ).addConstraint "c" terms .lessEqual 4 = .ok (0, q) ∧
      (planar : Problem ℚ).addConstraint "c" terms.reverse .lessEqual 4 = .ok (0, q) ∧
      q.constraints = #[{ terms := [(1, 5)], sense := .lessEqual, rhs := 4, name := "c" }] := by
  intro terms
  have added : (planar : Problem ℚ).addConstraint "c" terms .lessEqual 4 = .ok (0, _) :=
    addConstraint_eq_ok_iff.mpr ⟨by simp [planar], rfl, by decide, rfl, rfl⟩
  obtain ⟨row, eq, merged, -, reordered⟩ := (addConstraint_merges _ _).2 _ _ _ _ _ added
  have row_eq : row = [(1, 5)] := by
    refine eq_of_ascending merged.ascending (List.pairwise_singleton _ _) ?_
    rintro ⟨v, a⟩
    rw [merged.totals]
    match v with
    | 0 =>
      have total : total? (coefficientsOf 0 terms) = some 0 := by decide +kernel
      grind
    | 1 =>
      have total : total? (coefficientsOf 1 terms) = some 5 := by decide +kernel
      grind
    | v + 2 => simp [terms, coefficientsOf, total?]
  refine ⟨_, added, reordered _ (List.reverse_perm _).symm, ?_⟩
  rw [eq, row_eq]
  rfl

/-- Two finite coefficients of one variable are stored as an infinite one: the largest power of two
that is a double, twice. -/
theorem Problem.overflow_stored :
    let a := Float.ofBits 0x7FE0000000000000
    ∃ q, (planar : Problem Float).addConstraint "c" [(0, a), (0, a)] .lessEqual 1 = .ok (0, q) ∧
      ∃ c ∈ q.constraints, ∃ t ∈ c.terms, Scalar.isFinite t.2 = false := by
  intro a
  have finite : Scalar.isFinite a = true := by decide +kernel
  have known : ∀ t ∈ [((0 : Var), a), (0, a)],
      t.1 < (planar : Problem Float).size ∧ Scalar.isFinite t.2 = true := by
    simp [finite, planar, Problem.size]
  refine ⟨_, addConstraint_eq_ok_iff.mpr ⟨by simp [planar], by decide +kernel, known, rfl, rfl⟩, _,
    Array.mem_push_self, (0, a + a), ?_, by decide +kernel⟩
  exact mem_mergeTerms.mpr ⟨rfl, by decide +kernel⟩

end Milp
