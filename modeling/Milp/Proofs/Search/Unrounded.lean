import Milp.Proofs.Number.Optimism
import Milp.Proofs.Relaxation.Correctness
import Milp.Proofs.Search.Soundness

/-!
# Searches without tolerances

With all tolerances at zero the simplex method answers every relaxation that a search can come to
correctly, so the search of any problem in exact arithmetic is exact (`Plan.unrounded_exact`): what
is proved of exact plans holds of the solver's own method, and not only of an ideal one.
-/

namespace Milp

/-! ### Regions that the simplex method can take -/

namespace Problem

/-- The box of a problem has an upper bound for each variable that has one. -/
theorem defined_ofProblem {p : Problem Rat} (h : ∀ x ∈ p.vars, x.upper ≠ .undefined) :
    (Box.ofProblem p).Defined p.size := by
  intro v hv
  have listed : v < p.vars.size := hv
  rw [Box.ofProblem, Box.upperAt, Problem.upper]
  simpa [listed] using h _ (Array.getElem_mem listed)

/-- The boxes of a search have a lower and a defined upper bound for every variable. -/
theorem Subproblem.regular {p : Problem Rat} (h : ∀ x ∈ p.vars, x.upper ≠ .undefined)
    {box : Box Rat} {rows : List (Row Rat)} (sub : p.Subproblem box rows) :
    box.lower.size = p.size ∧ box.Defined p.size := by
  induction sub with
  | whole => exact ⟨Array.size_map, defined_ofProblem h⟩
  | @tighten box rows c _ ih =>
    obtain ⟨size, defined⟩ := ih
    exact ⟨(box.size_tighten c).trans size, defined.tighten c⟩
  | @fix box rows v a _ ih =>
    obtain ⟨size, defined⟩ := ih
    exact ⟨Array.size_setIfInBounds.trans size, defined.fix v a⟩
  | addSum vs sense rhs _ _ ih => exact ih

end Problem

/-! ### The search of a problem -/

/-- The simplex method without tolerances, with columns and rows in the order of the problem. -/
def Relaxation.Method.unrounded (p : Problem Rat) : Relaxation.Method Rat :=
  { Relaxation.Method.natural p 0 with tolerances := ⟨0, 0, 0⟩ }

/-- The search of a problem without tolerances. -/
def Plan.unrounded (p : Problem Rat) (settings : Settings Rat) (hooks : Option Hooks)
    (clock : Clock := .still) : Plan Rat where
  problem := p
  settings := { settings with tolerance := 0 }
  relax := (Relaxation.Method.unrounded p).solve p
  rank := Array.range p.size
  hooks
  clock

/-- Without tolerances nothing is lost to rounding. -/
theorem Plan.unrounded_exact {p : Problem Rat} (h : ∀ x ∈ p.vars, x.upper ≠ .undefined)
    (settings : Settings Rat) (hooks : Option Hooks) (clock : Clock) :
    (Plan.unrounded p settings hooks clock).Exact where
  zero := rfl
  answers box rows relaxed sub answered := by
    obtain ⟨size, defined⟩ := sub.regular h
    have order : (Relaxation.Method.unrounded p).rowOrder.toList.Perm
        (List.range p.constraints.size) := by
      simp [Relaxation.Method.unrounded, Relaxation.Method.natural]
    exact (Relaxation.Method.solve_correct rfl order size defined rows).2 relaxed answered

end Milp
