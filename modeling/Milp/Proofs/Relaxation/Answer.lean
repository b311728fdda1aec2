import Milp.Proofs.Problem.Region
import Milp.Relaxation.Solve

/-!
# Exact answers to relaxations

What the three answers to a relaxation say about its region when nothing is lost to rounding. An
error says nothing.
-/

namespace Milp

/-- Whether an answer is right for the region of a box and local rows: an optimum is a point of the
region with its objective value, and no point of the region is better; an infeasible region has no
points; in an unbounded one there are points better than any value. -/
def Problem.Answers (p : Problem Rat) (box : Box Rat) (rows : List (Row Rat)) :
    RelaxationResult Rat → Prop
  | .optimal objective values =>
    p.Admits box rows values ∧ objective = p.objectiveValue values ∧
      ∀ x, p.Admits box rows x → ¬ p.sense.Better (p.objectiveValue x) objective
  | .infeasible => ∀ x, ¬ p.Admits box rows x
  | .unbounded => ∀ a, ∃ x, p.Admits box rows x ∧ p.sense.Better (p.objectiveValue x) a

end Milp
