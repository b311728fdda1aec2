import Milp.Proofs.Relaxation.Answer
import Milp.Search.State

/-!
# What the open nodes cover

The invariant of branch and bound. The incumbent is a feasible point with its objective value, and
every feasible point that is better lies in the region of an open node (`Problem.Covers`). Open
nodes are sound (`Node.Sound`): their regions are parts of the problem and their parents' bounds
hold in them.

The lemmas on `Covers` are the ways in which the open nodes and the incumbent change:

* `covers_root` — the search starts with the whole problem.
* `Covers.drop` — a node goes if nothing in it is better than the incumbent.
* `Covers.replace` — a node is exchanged for others that have its feasible points.
* `Covers.improve` — a better point becomes the incumbent.
* `Covers.optimum`, `Covers.none_feasible` — what is known when no node is left.
-/

namespace Milp

/-! ### Incumbents -/

namespace Problem

variable {p : Problem Rat} {incumbent : Option (Solution Rat)} {x : Array Rat}

/-- Whether a solution is a feasible point with its objective value. -/
structure Attains (p : Problem Rat) (best : Solution Rat) : Prop where
  feasible : p.Feasible best.values
  objective_eq : best.objective = p.objectiveValue best.values

/-- Whether a solution is a feasible point that no feasible point beats. -/
structure Optimum (p : Problem Rat) (best : Solution Rat) : Prop extends p.Attains best where
  unbeaten : ∀ x, p.Feasible x → ¬ p.sense.Better (p.objectiveValue x) best.objective

/-- Whether there is an incumbent that a point does not beat. -/
def Matched (p : Problem Rat) (incumbent : Option (Solution Rat)) (x : Array Rat) : Prop :=
  ∃ best ∈ incumbent, ¬ p.sense.Better (p.objectiveValue x) best.objective

/-- A point within a bound that cannot improve is matched. -/
theorem matched_of_bounds {bound : Extended Rat}
    (useless : p.canImprove bound incumbent 0 = false)
    (within : p.sense.Bounds bound (p.objectiveValue x)) : p.Matched incumbent x := by
  cases incumbent with
  | none => cases useless
  | some best => exact ⟨best, rfl, Sense.not_better_of_bounds within useless⟩

/-- A value that can improve is better than the incumbent's. -/
theorem better_of_canImprove {a : Rat}
    (improves : p.canImprove (Scalar.extend a) incumbent 0 = true) :
    ∀ old ∈ incumbent, p.sense.Better a old.objective := by
  rintro old rfl
  exact (Sense.isBetter_fin _ _ _).mp improves

/-- Where no variable is fractional, the integral variables are whole. -/
theorem whole_of_fractionalVars_eq_nil {values : Array Rat}
    (h : p.fractionalVars 0 values = []) :
    ∀ v, p.isIntegral v = true → Whole (values.getD v 0) := by
  intro v hv
  have kept := List.filter_eq_nil_iff.mp h v (mem_integralVars.mpr hv)
  exact (Scalar.isWhole_zero_iff _).mp (by simpa using kept)

/-- A fractional variable is integral. -/
theorem isIntegral_of_mem_fractionalVars {α : Type} [Scalar α] {p : Problem α}
    {values : Array α} {tol : α} {v : Var} (h : v ∈ p.fractionalVars tol values) :
    p.isIntegral v = true :=
  mem_integralVars.mp (List.mem_of_mem_filter h)

/-- A point that is whole already is installed as it is. -/
theorem roundedSolution_eq {values : Array Rat} (h : p.fractionalVars 0 values = []) :
    p.roundedSolution values = ⟨p.objectiveValue values, values⟩ := by
  have same : (values.mapIdx fun v x => if p.isIntegral v then Scalar.round x else x) = values := by
    apply Array.ext
    · simp
    · intro v hv hv'
      rw [Array.getElem_mapIdx]
      split
      next integral =>
        have whole := whole_of_fractionalVars_eq_nil h v integral
        rw [show values.getD v 0 = values[v] by simp [hv']] at whole
        exact Scalar.round_of_whole whole
      next => rfl
  rw [roundedSolution, same]

/-- A whole point of the problem is attained once it is installed. -/
theorem attains_roundedSolution {values : Array Rat}
    (admitted : p.Admits (Box.ofProblem p) [] values) (h : p.fractionalVars 0 values = []) :
    p.Attains (p.roundedSolution values) := by
  rw [roundedSolution_eq h]
  exact ⟨⟨admitted, whole_of_fractionalVars_eq_nil h⟩, rfl⟩

end Problem

/-! ### Nodes -/

/-- Whether a node stands for a part of the problem in which the bound of its parent holds. -/
structure Node.Sound (p : Problem Rat) (n : Node Rat) : Prop where
  subproblem : p.Subproblem (n.box p) n.rows
  within : ∀ x, p.Admits (n.box p) n.rows x → p.Admits (Box.ofProblem p) [] x
  bounds : ∀ x, p.Admits (n.box p) n.rows x → p.sense.Bounds n.parentBound (p.objectiveValue x)

/-- The root is sound. -/
theorem Node.sound_root (p : Problem Rat) : (Node.root p.sense.best).Sound p :=
  ⟨.whole, fun _ h => h, fun _ _ => p.sense.bounds_best _⟩

/-! ### Coverage -/

namespace Problem

/-- Whether the incumbent is attained and it or the open nodes account for every feasible point. -/
structure Covers (p : Problem Rat) (incumbent : Option (Solution Rat)) (nodes : List (Node Rat)) :
    Prop where
  attained : ∀ best ∈ incumbent, p.Attains best
  sound : ∀ n ∈ nodes, n.Sound p
  covered : ∀ x, p.Feasible x →
    p.Matched incumbent x ∨ ∃ n ∈ nodes, p.Admits (n.box p) n.rows x

variable {p : Problem Rat} {incumbent : Option (Solution Rat)} {node : Node Rat}
  {nodes : List (Node Rat)}

/-- The root covers the problem. -/
theorem covers_root (p : Problem Rat) : p.Covers none [Node.root p.sense.best] where
  attained := nofun
  sound _ hn := List.mem_singleton.mp hn ▸ Node.sound_root p
  covered _ hx := .inr ⟨_, List.mem_singleton_self _, hx.admits⟩

namespace Covers

/-- A node goes if the incumbent matches its points. -/
theorem drop (h : p.Covers incumbent (node :: nodes))
    (useless : ∀ x, p.Admits (node.box p) node.rows x → p.Matched incumbent x) :
    p.Covers incumbent nodes where
  attained := h.attained
  sound n hn := h.sound n (List.mem_cons_of_mem node hn)
  covered x hx := by
    rcases h.covered x hx with matched | ⟨n, hn, admits⟩
    · exact .inl matched
    · rcases List.mem_cons.mp hn with rfl | hn
      · exact .inl (useless x admits)
      · exact .inr ⟨n, hn, admits⟩

/-- A node is exchanged for sound ones that have its feasible points. -/
theorem replace (h : p.Covers incumbent (node :: nodes)) {children : List (Node Rat)}
    (sound : ∀ c ∈ children, c.Sound p)
    (split : ∀ x, p.Feasible x → p.Admits (node.box p) node.rows x →
      ∃ c ∈ children, p.Admits (c.box p) c.rows x) :
    p.Covers incumbent (children ++ nodes) where
  attained := h.attained
  sound n hn := by
    rcases List.mem_append.mp hn with hn | hn
    · exact sound n hn
    · exact h.sound n (List.mem_cons_of_mem node hn)
  covered x hx := by
    rcases h.covered x hx with matched | ⟨n, hn, admits⟩
    · exact .inl matched
    · rcases List.mem_cons.mp hn with rfl | hn
      · obtain ⟨c, hc, admits⟩ := split x hx admits
        exact .inr ⟨c, List.mem_append_left nodes hc, admits⟩
      · exact .inr ⟨n, List.mem_append_right children hn, admits⟩

/-- A better point becomes the incumbent. -/
theorem improve (h : p.Covers incumbent nodes) {best : Solution Rat} (attained : p.Attains best)
    (improves : ∀ old ∈ incumbent, p.sense.Better best.objective old.objective) :
    p.Covers (some best) nodes where
  attained := by
    rintro _ ⟨⟩
    exact attained
  sound := h.sound
  covered x hx := by
    rcases h.covered x hx with ⟨old, hold, matched⟩ | open_
    · exact .inl ⟨best, rfl, Sense.not_better_trans matched (improves old hold)⟩
    · exact .inr open_

/-- Once no node is left, the incumbent is an optimum. -/
theorem optimum {best : Solution Rat} (h : p.Covers (some best) []) : p.Optimum best where
  toAttains := h.attained best rfl
  unbeaten x hx := by
    rcases h.covered x hx with ⟨_, ⟨⟩, matched⟩ | ⟨n, hn, -⟩
    · exact matched
    · cases hn

/-- Once no node is left and there is no incumbent, no point is feasible. -/
theorem none_feasible (h : p.Covers none []) (x : Array Rat) : ¬ p.Feasible x := by
  intro hx
  rcases h.covered x hx with ⟨_, ⟨⟩, -⟩ | ⟨n, hn, -⟩
  cases hn

end Covers
end Problem
end Milp
