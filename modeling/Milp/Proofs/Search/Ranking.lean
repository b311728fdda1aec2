import Milp.Proofs.Random.Order
import Milp.Proofs.Relaxation.Shift
import Milp.Search.State

/-!
# Orders and ranks

Ties between variables are broken by rank when a variable to branch on is chosen, and when a column
enters or leaves a basis. Both need ranks that are all different. Whatever the settings are, the
ranks of the variables and those of the columns are permutations, the inverses of the orders that
the settings ask for, and the constraints become rows in an order that lists each of them once
(`Settings.ranks_strict`).

The columns of a tableau have ranks of two kinds: a structural column has the rank of its variable,
which is below the number of variables, and slacks and artificial columns count on from there. So
the two do not meet, however few of the variables are free in a box (`Form.rank_injective`,
`Form.rank_lt_rank`).
-/

namespace Milp

variable {α : Type}

/-! ### Orders -/

/-- The order of `n` variables by which ties are broken. -/
def Settings.variableOrder (s : Settings α) (n : Nat) : Array Nat :=
  if s.permuteVars then Random.order n (Random.Engine.ofSeed s.permutationSeed) else Array.range n

/-- The order of `n` columns by which the simplex method chooses. -/
def Settings.columnOrder (s : Settings α) (n : Nat) : Array Nat :=
  if s.lpSeed = 0 then Array.range n else Random.order n (Random.Engine.ofSeed s.lpSeed)

/-- The ranks of the variables are those in their order. -/
theorem Settings.inverse_variableRank (s : Settings α) (n : Nat) :
    Random.Inverse n (s.variableOrder n) (s.variableRank n) := by
  unfold variableOrder variableRank
  split
  · exact Random.inverse_ranks (Random.order_perm n _)
  · exact Random.inverse_range n

/-- The order of the rows lists every constraint once. -/
theorem Settings.perm_rowOrder (s : Settings α) (m : Nat) :
    (s.rowOrder m).toList.Perm (List.range m) := by
  unfold rowOrder
  split
  · exact Random.order_perm m _
  · rw [Array.toList_range]

/-- The ranks of the columns are those in their order. -/
theorem Settings.inverse_columnRank [Scalar α] (s : Settings α) (p : Problem α) :
    Random.Inverse p.size (s.columnOrder p.size) (s.method p).columnRank := by
  unfold columnOrder method Relaxation.Method.withSeed
  split
  · exact Random.inverse_range p.size
  · simp only [Relaxation.Method.natural, Array.size_range]
    exact Random.inverse_ranks (Random.order_perm p.size _)

/-! ### Ranks of columns -/

namespace Relaxation

variable {f : Form α}

section Rank

variable {n : Nat} {columnRank : Array Nat}
  (columnRank_perm : columnRank.toList.Perm (List.range n)) (below : ∀ v ∈ f.columns, v < n)

/-- The rank of a column, structural or not. -/
theorem Form.get_rank (f : Form α) (n : Nat) (columnRank : Array Nat) (j : Fin f.width) :
    (f.rank n columnRank).get j =
      if h : j.val < f.columns.size then columnRank.getD f.columns[j.val] 0
      else n + (j.val - f.columns.size) := by
  rw [rank, Vector.get_eq_getElem, Vector.getElem_ofFn]
  rfl

include columnRank_perm below

/-- The rank of a structural column is smaller than the number of variables. -/
theorem Form.rank_lt {j : Fin f.width} (structural : j.val < f.columns.size) :
    (f.rank n columnRank).get j < n := by
  rw [get_rank, dif_pos structural]
  exact Random.getD_lt_of_perm columnRank_perm (below _ (Array.getElem_mem structural))

/-- Structural columns come before all others. -/
theorem Form.rank_lt_rank {j k : Fin f.width} (structural : j.val < f.columns.size)
    (other : f.columns.size ≤ k.val) :
    (f.rank n columnRank).get j < (f.rank n columnRank).get k := by
  refine (rank_lt columnRank_perm below structural).trans_le ?_
  rw [get_rank f n columnRank k, dif_neg other.not_gt]
  exact Nat.le_add_right _ _

/-- No two columns have the same rank. -/
theorem Form.rank_injective (nodup : f.columns.toList.Nodup) :
    Function.Injective (f.rank n columnRank).get := by
  intro j k same
  rcases Nat.lt_or_ge j.val f.columns.size with hj | hj
  · rcases Nat.lt_or_ge k.val f.columns.size with hk | hk
    · rw [get_rank, get_rank, dif_pos hj, dif_pos hk] at same
      have same_variable := Random.getD_inj_of_perm columnRank_perm
        (below _ (Array.getElem_mem hj)) (below _ (Array.getElem_mem hk)) same
      exact Fin.ext ((List.Nodup.getElem_inj_iff nodup).mp same_variable)
    · exact absurd same (rank_lt_rank columnRank_perm below hj hk).ne
  · rcases Nat.lt_or_ge k.val f.columns.size with hk | hk
    · exact absurd same (rank_lt_rank columnRank_perm below hk hj).ne'
    · rw [get_rank, get_rank, dif_neg hj.not_gt, dif_neg hk.not_gt] at same
      exact Fin.ext (by omega)

end Rank

/-- The columns of a standard form are those of the free variables. -/
theorem Form.free_of_build? [Scalar α] {p : Problem α} {tols : Tolerances α}
    {rowOrder : Array Nat} {rows : List (Row α)} {box : Box α}
    (built : Form.build? p tols rowOrder rows box = some f) :
    FreeColumns p tols box f.columns := by
  simp only [Form.build?] at built
  split at built
  · obtain rfl := Option.some.inj built
    exact freeColumns_free p tols box
  · cases built

end Relaxation

open Relaxation

/-! ### All settings -/

/-- Whatever the settings are: the ranks of variables and columns are permutations, the inverses of
the orders, and so is the order of the rows; and in the tableau of every box and all local rows the
ranks are different, those of structural columns being below all others. -/
theorem Settings.ranks_strict [Scalar α] (s : Settings α) :
    (∀ n, Random.Inverse n (s.variableOrder n) (s.variableRank n)) ∧
    (∀ m, (s.rowOrder m).toList.Perm (List.range m)) ∧
    ∀ p : Problem α, Random.Inverse p.size (s.columnOrder p.size) (s.method p).columnRank ∧
      ∀ tols rowOrder rows box f, Form.build? p tols rowOrder rows box = some f →
        Function.Injective (f.rank p.size (s.method p).columnRank).get ∧
        ∀ j k : Fin f.width, j.val < f.columns.size → f.columns.size ≤ k.val →
          (f.rank p.size (s.method p).columnRank).get j <
            (f.rank p.size (s.method p).columnRank).get k := by
  refine ⟨s.inverse_variableRank, s.perm_rowOrder, fun p => ⟨s.inverse_columnRank p, ?_⟩⟩
  intro tols rowOrder rows box f built
  have perm := (s.inverse_columnRank p).ranks_perm
  have free := Form.free_of_build? built
  have below : ∀ v ∈ f.columns, v < p.size := fun v member => ((free.mem_iff v).mp member).1
  exact ⟨Form.rank_injective perm below free.nodup, fun j k => Form.rank_lt_rank perm below⟩

/-- Settings that shuffle everything. -/
def Settings.shuffled : Settings Rat :=
  ⟨none, none, none, 0, .mostFractional, .down, true, true, 0, 0, 1, 0, ""⟩

/-- A problem with four variables and one constraint. -/
def Problem.quartet : Problem Rat where
  name := "quartet"
  sense := .minimize
  vars := #[⟨"w", .continuous, 1, 0, .posInf⟩, ⟨"x", .continuous, 1, 0, .posInf⟩,
    ⟨"y", .continuous, 1, 0, .posInf⟩, ⟨"z", .continuous, 1, 0, .posInf⟩]
  constraints := #[⟨⟨[(0, 1), (1, 1), (2, 1), (3, 1)], .greaterEqual, 4⟩, "total"⟩]

/-- Three of the four columns are left when the second variable is fixed; their ranks are not those
of the natural order, and the slack and the artificial column come after all four. -/
theorem Problem.quartet_ranked :
    ∃ f, Form.build? .quartet ⟨0, 0, 0⟩ #[0] []
        ⟨#[0, 0, 0, 0], #[.posInf, .fin 0, .posInf, .posInf]⟩ = some f ∧
      f.columns = #[0, 2, 3] ∧
      (f.rank 4 (Settings.shuffled.method .quartet).columnRank).toList = [1, 3, 0, 4, 5] ∧
      Function.Injective (f.rank 4 (Settings.shuffled.method .quartet).columnRank).get := by
  have shape : (Form.build? .quartet ⟨0, 0, 0⟩ #[0] []
      ⟨#[0, 0, 0, 0], #[.posInf, .fin 0, .posInf, .posInf]⟩).map (fun f => (f.columns,
        (f.rank 4 (Settings.shuffled.method .quartet).columnRank).toList)) =
      some (#[0, 2, 3], [1, 3, 0, 4, 5]) := by
    decide +kernel
  obtain ⟨f, built, same⟩ := Option.map_eq_some_iff.mp shape
  obtain ⟨columns, ranks⟩ := Prod.mk.inj same
  exact ⟨f, built, columns, ranks,
    ((Settings.shuffled.ranks_strict.2.2 .quartet).2 _ _ _ _ f built).1⟩

end Milp
