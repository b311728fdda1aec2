import Milp.Proofs.Relaxation.Course
import Milp.Proofs.Relaxation.FirstTableau

/-!
# What all tableaus of a solve have in common

A solve goes through tableaus (`Form.Passes`): those of the first phase; then, if it ends without
cost, those that come up while artificial columns are driven out row by row; then those of the
second phase. Each of the three stages has an invariant of its own (`Reaches`, `Driven`, and
`Reaches` below the artificial columns), and all of them contain what a tableau is expected to be
(`Sound`). Right-hand sides do not become negative for two different reasons: the phases leave a row
only by the ratio test, and while columns are driven out no right-hand side changes at all.

An artificial column that is left in the second phase is out of play (`AtRest`): it stays basic in
the row where it is, with the value zero, and the row has nothing to give to the other columns.
-/

namespace Milp.Relaxation

namespace Tableau

variable {m w : Nat} {tols : Tolerances Rat} {rank : Vector Nat w} {cost : Vector Rat w}
  {limit : Nat} {t₀ s t : Tableau Rat m w} {c : Fin w} {r : Fin m}

/-- Whether a tableau is what pivots should make of the tableau `t₀`: the basis holds a column of
its own for every row, these columns have marks and no others do, and they are unit columns; the
equations have the same solutions, and no right-hand side is negative. -/
structure Sound (t₀ t : Tableau Rat m w) : Prop where
  injective : Function.Injective t.basis.get
  marked : ∀ j, t.isBasic j = true ↔ ∃ i : Fin m, t.basis.get i = j
  unit : ∀ i k, t.entry i (t.basis.get k) = if i = k then 1 else 0
  solves : ∀ y, t.Solves y ↔ t₀.Solves y
  nonneg : ∀ i : Fin m, 0 ≤ t.rhs.get i

/-- What pivots keep, whatever the limit, makes a tableau sound. -/
theorem Settled.sound (h : Settled limit t₀ t) : t₀.Sound t where
  injective := h.canonical.injective
  marked := h.marked
  unit := h.canonical
  solves := h.solves
  nonneg := h.nonneg

/-- Whether the same columns from the limit on are basic in two tableaus, each in the same row. -/
def Retains (limit : Nat) (s t : Tableau Rat m w) : Prop :=
  ∀ i : Fin m, limit ≤ (s.basis.get i).val ∨ limit ≤ (t.basis.get i).val →
    t.basis.get i = s.basis.get i

/-- Whether the columns from the limit on are out of play in a tableau that comes from `s`: those
that are basic are those of `s`, in the same rows; the rows have the value zero and no entries below
the limit; and the columns are zero in the basic solution. -/
structure AtRest (limit : Nat) (s t : Tableau Rat m w) : Prop where
  retains : Retains limit s t
  rhs_eq_zero : ∀ i : Fin m, limit ≤ (t.basis.get i).val → t.rhs.get i = 0
  entry_eq_zero : ∀ i : Fin m, limit ≤ (t.basis.get i).val →
    ∀ j : Fin w, j.val < limit → t.entry i j = 0
  basic_eq_zero : ∀ j : Fin w, limit ≤ j.val → t.basic j = 0

/-- Idle rows keep the columns from the limit on out of play. -/
theorem Reaches.atRest (h : Reaches limit t₀ t) (retains : Retains limit s t) :
    AtRest limit s t :=
  ⟨retains, h.rhs_idle, h.idle, h.meets_basic.unused⟩

/-- The row that a round leaves is solved for a column below the limit: in an idle row there is no
coefficient to pivot on. -/
theorem Chooses.basis_lt (h : t.Chooses tols rank cost limit c r) (sharp : tols.Sharp)
    (reaches : Reaches limit t₀ t) : (t.basis.get r).val < limit := by
  by_contra high
  have below := (h.mayEnter sharp reaches.marked).1
  exact (h.entry_pos sharp).ne' (reaches.idle r (not_lt.mp high) c below)

/-- A round keeps the columns from the limit on where they are. -/
theorem Chooses.retains (h : t.Chooses tols rank cost limit c r) (sharp : tols.Sharp)
    (reaches : Reaches limit t₀ t) (retains : Retains limit s t) :
    Retains limit s (t.pivot tols r c) := by
  intro i high
  rw [basis_pivot] at high ⊢
  by_cases hi : i = r
  · rw [if_pos hi] at high
    have leaves := h.basis_lt sharp reaches
    have enters := (h.mayEnter sharp reaches.marked).1
    rcases high with before | after
    · rw [hi] at before
      exact absurd leaves (retains r (.inl before) ▸ before).not_gt
    · exact absurd enters after.not_gt
  · rw [if_neg hi] at high ⊢
    exact retains i high

/-- All tableaus of a run that starts with idle rows keep the columns from the limit on out of
play. -/
theorem Reaches.course (start : Reaches limit t₀ s) (sharp : tols.Sharp) (rank : Vector Nat w)
    (cost : Vector Rat w) (rounds : Nat) :
    ∀ t ∈ s.course tols rank cost limit rounds, Reaches limit t₀ t ∧ Retains limit s t :=
  course_rule (fun _ _ _ chooses ⟨reaches, retains⟩ =>
    ⟨chooses.reaches_limit sharp reaches, chooses.retains sharp reaches retains⟩)
    rounds ⟨start, fun _ _ => rfl⟩

end Tableau

open Tableau

variable {m : Method Rat} {f : Form Rat} {rank : Vector Nat f.width}

/-- The tableaus that a solve passes: those of the first phase; those after some rows have been
driven out, if it ends without cost; and those of the second phase, for any cost. The rounds are
those that a phase has taken so far. -/
inductive Form.Passes (f : Form Rat) (m : Method Rat) (rank : Vector Nat f.width) :
    Tableau Rat f.rows.size f.width → Prop
  | first {t : Tableau Rat f.rows.size f.width} (rounds : Nat)
      (member : t ∈ f.tableau.course m.tolerances rank f.phaseOneCost f.width rounds) :
      f.Passes m rank t
  | driving {t : Tableau Rat f.rows.size f.width} (rounds left done : Nat)
      (ends : f.tableau.run m.tolerances rank f.phaseOneCost f.width rounds = .optimal t left)
      (zero : t.value f.phaseOneCost = 0) :
      f.Passes m rank (((List.finRange f.rows.size).take done).foldl
        (driveRow m.tolerances rank f.artificialStart) t)
  | second {s t : Tableau Rat f.rows.size f.width} (left : Nat)
      (feasible : m.phaseOne f rank = .feasible s left) (cost : Vector Rat f.width) (rounds : Nat)
      (member : t ∈ s.course m.tolerances rank cost f.artificialStart rounds) :
      f.Passes m rank t

/-- In exact arithmetic all tableaus of a solve are sound, if no right-hand side of the form is
negative. Artificial columns that are still basic once they have been driven out are out of play for
all of the second phase. -/
theorem Form.passes_sound (turned : f.IsTurned) (sharp : m.tolerances.Sharp)
    (feasibility : m.tolerances.feasibility = 0) (rank : Vector Nat f.width) :
    (∀ t, f.Passes m rank t → f.tableau.Sound t) ∧
    ∀ s left, m.phaseOne f rank = .feasible s left → ∀ cost rounds,
      ∀ t ∈ s.course m.tolerances rank cost f.artificialStart rounds,
        AtRest f.artificialStart s t := by
  have start := f.reaches_start turned
  have second {s : Tableau Rat f.rows.size f.width} {left : Nat}
      (feasible : m.phaseOne f rank = .feasible s left) :
      Reaches f.artificialStart f.tableau s := by
    have right := m.phaseOne_right rank sharp feasibility.ge start
    rw [feasible] at right
    exact right (.inl feasibility)
  refine ⟨fun t passes => ?_, fun s left feasible cost rounds t member => ?_⟩
  · cases passes with
    | first rounds member =>
      exact (start.course sharp rank f.phaseOneCost rounds t member).1.sound
    | @driving t rounds left done ends zero =>
      have optimal := ((run_spec sharp rank f.phaseOneCost rounds start).1 t left ends).1
      exact ((settled_of_value optimal zero.le).driven sharp _).sound
    | second left feasible cost rounds member =>
      exact ((second feasible).course sharp rank cost rounds t member).1.sound
  · obtain ⟨reaches, retains⟩ := (second feasible).course sharp rank cost rounds t member
    exact reaches.atRest retains

/-- An equation and its double. -/
def Form.doubled : Form Rat where
  columns := #[0, 1]
  rows := #[⟨#v[1, 2], .equal, 4⟩, ⟨#v[2, 4], .equal, 8⟩]

/-- Exact arithmetic with ten pivots. -/
def Method.ten : Method Rat := ⟨⟨0, 0, 0⟩, 10, #[], #[]⟩

/-- The second artificial column is basic when the first phase is done, and still basic when the
second column has taken the place of the first one in the second phase. -/
theorem Form.doubled_sound :
    ∃ s left, Method.ten.phaseOne .doubled (Vector.ofFn Fin.val) = .feasible s left ∧
      s.basis.toList.map Fin.val = [0, 3] ∧
      ∃ t ∈ s.course Method.ten.tolerances (Vector.ofFn Fin.val) (#v[1, 0, 0, 0] : Vector Rat 4)
          Form.doubled.artificialStart 1,
        t.basis.toList.map Fin.val = [1, 3] ∧ Form.doubled.tableau.Sound t ∧
          AtRest Form.doubled.artificialStart s t := by
  have turned : Form.doubled.IsTurned := by
    unfold IsTurned
    decide
  have bases : (match Method.ten.phaseOne .doubled (Vector.ofFn Fin.val) with
      | .feasible s _ => (s.basis.toList.map Fin.val, (s.course Method.ten.tolerances
          (Vector.ofFn Fin.val) (#v[1, 0, 0, 0] : Vector Rat 4) Form.doubled.artificialStart 1).map
            fun t => t.basis.toList.map Fin.val)
      | _ => ([], [])) = ([0, 3], [[0, 3], [1, 3]]) := by
    decide +kernel
  have known := Form.passes_sound turned ⟨rfl, rfl⟩ rfl (m := Method.ten) (Vector.ofFn Fin.val)
  generalize first : Method.ten.phaseOne .doubled (Vector.ofFn Fin.val) = outcome at bases known
  rcases outcome with ⟨s, left⟩ | left | cause
  · obtain ⟨start, course⟩ := Prod.mk.inj bases
    obtain ⟨t, member, last⟩ : ∃ t ∈ s.course Method.ten.tolerances (Vector.ofFn Fin.val)
        (#v[1, 0, 0, 0] : Vector Rat 4) Form.doubled.artificialStart 1,
          t.basis.toList.map Fin.val = [1, 3] :=
      List.mem_map.mp (course ▸ List.mem_cons_of_mem _ List.mem_cons_self)
    exact ⟨s, left, rfl, start, t, member, last,
      known.1 t (.second left first _ 1 member), known.2 s left rfl _ 1 t member⟩
  · cases bases
  · cases bases

end Milp.Relaxation
