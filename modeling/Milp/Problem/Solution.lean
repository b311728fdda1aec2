import Milp.Number.Text

/-!
# Solutions

A point together with its objective value, and its summary: the objective and the values that are
not zero.
-/

namespace Milp

/-- A point and its objective value. -/
structure Solution (α : Type) where
  objective : α
  values : Array α

/-- The solution in words, a line for each value that is not zero. -/
def Solution.summary (s : Solution Float) : String :=
  let head := "Solution Summary\n   Objective Value: " ++ Number.text s.objective ++ "\n"
  if s.values.isEmpty then head ++ "   (No variables)\n"
  else
    head ++ String.join (s.values.toList.zipIdx.filterMap fun (x, j) =>
      if x == 0 then none else some (s!"   x[{j}] = " ++ Number.text x ++ "\n"))

end Milp
