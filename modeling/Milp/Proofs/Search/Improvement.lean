import Milp.Proofs.Search.DualBound
import Milp.Proofs.Search.Rounding

/-!
# How incumbents follow one another

A point is compared with the incumbent before it is rounded and installed after that, so what is
certain of the new objective value is what the comparison gives less what rounding can take away: the
tolerance for each unit of the integral variables' coefficients in the objective
(`Plan.incumbents_improve`). Where these coefficients are at most one in all, every incumbent is
the best so far. Otherwise it need not be: `Plan.overtaken_replaced` is a search that ends with an
optimum of `-3` after it has found a point of value `0`.

`Search.Ratcheted` is the invariant. Only two functions install points; everything else leaves the
record of incumbents as it is (`Search.SameRecord`).
-/

namespace Milp

/-! ### What rounding does to the objective -/

namespace Problem

variable {p : Problem Rat} {tol : Rat} {values : Array Rat}

/-- The objective as a row. -/
def objectiveRow (p : Problem Rat) : Row Rat :=
  ⟨p.positions.map fun v => (v, p.objectiveAt v), .equal, 0⟩

/-- The objective value of a point is the left-hand side of the objective. -/
theorem activity_objectiveRow (p : Problem Rat) (x : Array Rat) :
    p.objectiveRow.activity x = p.objectiveValue x := by
  have paired : ∀ (vs : List (Variable Rat)) (ys : List Rat),
      (List.zipWith (fun v y => v.objective * y) vs ys).sum =
        ((List.range vs.length).map fun i =>
          (vs[i]?.map (·.objective)).getD 0 * ys.getD i 0).sum := by
    intro vs
    induction vs with
    | nil => intro ys; rfl
    | cons v vs ih =>
      intro ys
      rw [List.length_cons, List.range_succ_eq_map, List.map_cons, List.map_map, List.sum_cons]
      cases ys with
      | nil => simp [Function.comp_def]
      | cons y ys =>
        rw [List.zipWith_cons_cons, List.sum_cons, ih ys]
        rfl
  rw [Row.activity, objectiveValue, Scalar.sum_eq, Scalar.sum_eq, paired, objectiveRow, List.map_map]
  congr 1
  refine List.map_congr_left fun v _ => ?_
  simp [objectiveAt]

/-- The total size of the integral variables' coefficients in the objective. -/
def objectiveWeight (p : Problem Rat) : Rat := p.integralWeight p.objectiveRow

/-- Rounding a point that is whole within a tolerance moves its objective value by at most the
tolerance for each unit of the integral coefficients. -/
theorem abs_objective_roundedSolution (whole : p.fractionalVars tol values = []) :
    |(p.roundedSolution values).objective - p.objectiveValue values| ≤ tol * p.objectiveWeight := by
  have moved := abs_activity_roundedSolution whole p.objectiveRow
  rw [activity_objectiveRow, activity_objectiveRow] at moved
  exact moved

end Problem

namespace Sense

variable {s : Sense} {a b c tol e : Rat}

/-- A number that is better than another one by more than a tolerance, in numbers. -/
theorem isBetter_fin_iff (s : Sense) (a b tol : Rat) :
    s.isBetter (Scalar.extend a) (Scalar.extend b) tol = true ↔ s.sign * a < s.sign * b - tol := by
  cases s with
  | minimize =>
    show (Extended.fin a).lt (.fin (b - tol)) = true ↔ _
    rw [Extended.lt_fin, sign, one_mul, one_mul]
  | maximize =>
    show (Extended.fin (b + tol)).lt (.fin a) = true ↔ _
    rw [Extended.lt_fin, sign]
    constructor <;> intro h <;> linarith

/-- A number that is moved loses at most the distance. -/
theorem isBetter_moved (h : s.isBetter (Scalar.extend a) (Scalar.extend b) tol = true)
    (near : |c - a| ≤ e) : s.isBetter (Scalar.extend c) (Scalar.extend b) (tol - e) = true := by
  rw [isBetter_fin_iff] at h ⊢
  obtain ⟨below, above⟩ := abs_le.mp near
  cases s with
  | minimize => simp only [sign] at h ⊢; linarith
  | maximize => simp only [sign] at h ⊢; linarith

/-- Being better is transitive. -/
theorem Better.trans (h : s.Better a b) (h' : s.Better b c) : s.Better a c := by
  rw [better_iff_sign_mul_lt] at *
  exact h.trans h'

/-- Nothing is better than what is better. -/
theorem Better.asymm (h : s.Better a b) : ¬ s.Better b a := by
  rw [better_iff_sign_mul_lt] at *
  exact h.asymm

/-- What is better by more than a tolerance that is not negative is strictly better. -/
theorem better_of_isBetter (nonneg : 0 ≤ tol)
    (h : s.isBetter (Scalar.extend a) (Scalar.extend b) tol = true) : s.Better a b := by
  rw [isBetter_fin_iff] at h
  rw [better_iff_sign_mul_lt]
  linarith

end Sense

/-! ### The record of incumbents -/

/-- The objective value that an event says was installed. -/
def JournalEvent.installed? {α : Type} : JournalEvent α → Option α
  | .incumbent objective => some objective
  | _ => none

/-- The objective values of all points that were installed, in order. -/
def Search.installed {α : Type} (s : Search α) : List α :=
  s.journal.toList.filterMap JournalEvent.installed?

/-- Whether a state has the incumbent of another one and the same record of incumbents. -/
structure Search.SameRecord {α : Type} (s s' : Search α) : Prop where
  incumbent : s'.incumbent = s.incumbent
  installed : s'.installed = s.installed
  found : s'.stats.solutionsFound = s.stats.solutionsFound

namespace Search.SameRecord

variable {α : Type} {s s' s'' : Search α}

/-- A state has its own record. -/
theorem refl (s : Search α) : SameRecord s s := ⟨rfl, rfl, rfl⟩

/-- Having the same record is transitive. -/
theorem trans (h : SameRecord s s') (h' : SameRecord s' s'') : SameRecord s s'' :=
  ⟨h'.incumbent.trans h.incumbent, h'.installed.trans h.installed, h'.found.trans h.found⟩

/-- An event that installs nothing leaves the record as it is. -/
theorem note {e : JournalEvent α} (h : SameRecord s s') (quiet : e.installed? = none) :
    SameRecord s (s'.note e) := by
  refine h.trans ⟨rfl, ?_, rfl⟩
  simp [Search.installed, Search.note, quiet]

/-- Lines for the reader leave the record as it is. -/
theorem display [Scalar α] (h : SameRecord s s') (plan : Plan α) (line : ReaderLine α) :
    SameRecord s (s'.display plan line) := by
  unfold Search.display
  split
  · exact h.note rfl
  · exact h

end Search.SameRecord

namespace Plan

variable {α : Type} [Scalar α] (plan : Plan α) {s s' : Search α}

/-- The end of a search leaves the record as it is. -/
theorem finish_sameRecord (s : Search α) (ending : Ending) :
    s.SameRecord (plan.finish s ending).search := by
  have exited : s.SameRecord { s with monitor := s.monitor.after .exited } := ⟨rfl, rfl, rfl⟩
  unfold finish
  exact (exited.note rfl).display plan _

/-- A stop leaves the record as it is. -/
theorem stopAt_sameRecord (s : Search α) (node : Node α) (status : SolveStatus) :
    s.SameRecord (plan.stopAt s node status).search := by
  have pushed : s.SameRecord { s with stack := node :: s.stack } := ⟨rfl, rfl, rfl⟩
  exact pushed.trans (plan.finish_sameRecord _ _)

/-- A split leaves the record as it is. -/
theorem split_sameRecord (s : Search α) (f : Focus α) (split : Split α) :
    s.SameRecord (plan.split s f split) := by
  have pushed (down up : Node α) : s.SameRecord (plan.pushChildren s down up) := ⟨rfl, rfl, rfl⟩
  cases split with
  | onVariable v => exact (pushed _ _).note rfl
  | onSum vs sum => exact (pushed _ _).note rfl

/-- So does a split by the rule of the settings. -/
theorem splitByRule_sameRecord (s : Search α) (f : Focus α) :
    s.SameRecord (plan.splitByRule s f) := by
  have drawn (engine : Random.Engine) : s.SameRecord { s with engine } := ⟨rfl, rfl, rfl⟩
  unfold splitByRule
  simp only
  split
  · exact drawn _
  · exact (drawn _).trans (plan.split_sameRecord _ _ _)

/-- Going on behind the heuristic point leaves the record as it is. -/
theorem offerBranching_sameRecord (s : Search α) (f : Focus α) :
    s.SameRecord (plan.offerBranching s f).search := by
  unfold offerBranching
  split
  · exact ⟨rfl, rfl, rfl⟩
  · exact plan.splitByRule_sameRecord s f

/-- Going on with a solved node leaves the record as it is. -/
theorem offer_sameRecord (s : Search α) (f : Focus α) : s.SameRecord (plan.offer s f).search := by
  unfold offer
  split
  · exact ⟨rfl, rfl, rfl⟩
  · exact plan.offerBranching_sameRecord s f

/-- Going on from a decision point leaves the record as it is. -/
theorem resolve_sameRecord (d : Decision α) (reply : Attempt (SolverError α) Choice) :
    d.search.SameRecord (plan.resolve d reply).search := by
  cases reply with
  | error cause => exact .refl _
  | ok choice =>
    show d.search.SameRecord (plan.answer d choice).search
    unfold answer
    split
    · exact .refl _
    · split
      · exact plan.stopAt_sameRecord _ _ _
      · split
        · exact .refl _
        · unfold settle
          simp only
          split
          · exact plan.stopAt_sameRecord _ _ _
          · split
            · exact ⟨rfl, rfl, rfl⟩
            · split
              · exact plan.offerBranching_sameRecord _ _
              · split
                · exact plan.split_sameRecord _ _ _
                · exact plan.splitByRule_sameRecord _ _

end Plan

namespace Decision

variable {α : Type} [Scalar α]

/-- Completing an assignment leaves the record as it is or installs what it accepts. -/
theorem probe_record (plan : Plan α) (d : Decision α) (assignment : List (Var × α)) :
    d.search.SameRecord (d.probe plan assignment).2.search ∨
      ∃ values, Accepts plan d assignment values ∧
        (d.search.install plan values).SameRecord (d.probe plan assignment).2.search := by
  unfold probe
  split
  · exact .inl (.refl _)
  next box fixed =>
    split
    · exact .inl (.refl _)
    next relaxed answered =>
      obtain ⟨result, iterations⟩ := relaxed
      cases result with
      | infeasible => exact .inl ⟨rfl, rfl, rfl⟩
      | unbounded => exact .inl ⟨rfl, rfl, rfl⟩
      | optimal objective values =>
        simp only [judge]
        split_ifs with fractional improves
        · exact .inl ⟨rfl, rfl, rfl⟩
        · exact .inl ⟨rfl, rfl, rfl⟩
        · refine .inr ⟨values, ⟨box, objective, iterations, fixed, answered, ?_, ?_⟩, ⟨rfl, rfl, rfl⟩⟩
          · simpa using fractional
          · simpa using improves

/-- A trial leaves the record as it is or installs what it accepts. -/
theorem tryAssignment_record (plan : Plan α) (d : Decision α) (assignment : List (Var × α)) :
    d.search.SameRecord (d.tryAssignment plan assignment).2.search ∨
      ∃ values, Accepts plan d assignment values ∧
        (d.search.install plan values).SameRecord (d.tryAssignment plan assignment).2.search := by
  unfold tryAssignment
  split
  · exact .inl (.refl _)
  · have counted : d.search.SameRecord { d.search with stats := d.search.stats.onTrial } :=
      ⟨rfl, rfl, rfl⟩
    have probed := probe_record plan
      { d with search := { d.search with stats := d.search.stats.onTrial } } assignment
    simp only
    split
    next h =>
      rw [h] at probed
      rcases probed with same | ⟨values, accepts, same⟩
      · exact .inl (counted.trans same)
      · exact .inr ⟨values, accepts, ⟨same.incumbent, same.installed, same.found⟩⟩
    next h =>
      rw [h] at probed
      rcases probed with same | ⟨values, accepts, same⟩
      · exact .inl ((counted.trans same).note rfl)
      · have installed : (d.search.install plan values).SameRecord _ :=
          ⟨same.incumbent, same.installed, same.found⟩
        exact .inr ⟨values, accepts, installed.note rfl⟩

end Decision

/-! ### The invariant -/

/-- Whether optima come with their own objective values. -/
def Plan.Priced (plan : Plan Rat) : Prop := ∀ box rows objective values iterations,
  plan.relax box rows = .ok ⟨.optimal objective values, iterations⟩ →
    objective = plan.problem.objectiveValue values

/-- By how much at least a new incumbent is better than the old one. -/
def Plan.margin (plan : Plan Rat) : Rat :=
  plan.tolerance - plan.tolerance * plan.problem.objectiveWeight

/-- Whether the incumbents of a search follow one another by more than the margin; the last one is the
incumbent, and each was counted. -/
structure Search.Ratcheted (plan : Plan Rat) (s : Search Rat) : Prop where
  improving : s.installed.IsChain fun old new =>
    plan.problem.sense.isBetter (Scalar.extend new) (Scalar.extend old) plan.margin = true
  last : s.installed.getLast? = s.incumbent.map (·.objective)
  counted : s.stats.solutionsFound = countUp 0 s.installed.length

namespace Search.Ratcheted

variable {plan : Plan Rat} {s s' : Search Rat}

/-- Only the record matters. -/
theorem of_sameRecord (h : s.Ratcheted plan) (same : s.SameRecord s') : s'.Ratcheted plan := by
  constructor
  · rw [same.installed]
    exact h.improving
  · rw [same.installed, same.incumbent]
    exact h.last
  · rw [same.found, same.installed]
    exact h.counted

/-- Installing an optimum that improves on the incumbent before it is rounded. -/
theorem install (h : s.Ratcheted plan) {values : Array Rat}
    (whole : plan.problem.fractionalVars plan.tolerance values = [])
    (improves : plan.problem.canImprove (Scalar.extend (plan.problem.objectiveValue values))
      s.incumbent plan.tolerance = true) : (s.install plan values).Ratcheted plan := by
  have recorded : (s.install plan values).installed =
      s.installed ++ [(plan.problem.roundedSolution values).objective] := by
    simp [Search.install, Search.note, installed, JournalEvent.installed?]
  constructor
  · rw [recorded]
    refine h.improving.append (List.isChain_singleton _) fun old hold new hnew => ?_
    rw [h.last] at hold
    obtain ⟨best, incumbent, rfl⟩ := Option.map_eq_some_iff.mp hold
    obtain rfl : (plan.problem.roundedSolution values).objective = new := by simpa using hnew
    rw [incumbent] at improves
    exact Sense.isBetter_moved improves (Problem.abs_objective_roundedSolution whole)
  · rw [recorded, List.getLast?_concat]
    rfl
  · rw [recorded]
    show countUp s.stats.solutionsFound = _
    rw [h.counted, List.length_append, List.length_singleton]
    simp only [countUp]
    omega

end Search.Ratcheted

namespace Plan

variable {plan : Plan Rat} {s : Search Rat}

/-! ### The steps -/

/-- Going on with the optimum of a node's relaxation. -/
theorem explore_ratcheted (h : s.Ratcheted plan) (node : Node Rat) (box : Box Rat)
    {values : Array Rat} {bound : Rat} (priced : bound = plan.problem.objectiveValue values) :
    (plan.explore s node box bound values).search.Ratcheted plan := by
  unfold explore
  simp only
  -- what is written into the journal for the node installs nothing
  generalize shown : (s.note (.nodeSolved node.number node.depth bound)).display plan
    (.node node.number node.depth bound s.stack.length) = s'
  have same : s.SameRecord s' := by
    rw [← shown]
    exact ((Search.SameRecord.refl s).note rfl).display plan _
  have noted : s'.Ratcheted plan := h.of_sameRecord same
  split
  next => exact noted.of_sameRecord ⟨rfl, rfl, rfl⟩
  next useful =>
    split
    next whole =>
      apply noted.install (List.isEmpty_iff.mp whole)
      rw [← priced]
      simpa using useful
    next => exact noted.of_sameRecord (plan.offer_sameRecord _ _)

/-- Solving the relaxation of a node. -/
theorem visit_ratcheted (priced : plan.Priced) (h : s.Ratcheted plan) (node : Node Rat) :
    (plan.visit s node).search.Ratcheted plan := by
  unfold visit
  simp only
  split
  · exact h
  next relaxed answered =>
    -- the counters that change are not that of the solutions
    have counted (stats : Statistics Rat) (same : stats.solutionsFound = s.stats.solutionsFound) :
        Search.Ratcheted plan { s with stats } := h.of_sameRecord ⟨rfl, rfl, same⟩
    split
    next =>
      refine (counted _ ?_).of_sameRecord ((Search.SameRecord.refl _).note rfl)
      split <;> rfl
    next =>
      refine (counted _ ?_).of_sameRecord (plan.finish_sameRecord _ _)
      split <;> rfl
    next bound values optimal =>
      obtain ⟨result, iterations⟩ := relaxed
      obtain rfl : result = .optimal bound values := optimal
      apply explore_ratcheted _ _ _ (priced _ _ _ _ _ answered)
      apply counted
      split <;> rfl

/-- Taking the next open node. -/
theorem advance_ratcheted (priced : plan.Priced) (h : s.Ratcheted plan) :
    (plan.advance s).search.Ratcheted plan := by
  unfold advance
  split
  · exact h.of_sameRecord (plan.finish_sameRecord _ _)
  next node rest _ =>
    have popped : Search.Ratcheted plan
        { s with stack := rest, monitor := s.monitor.after .stepped } :=
      h.of_sameRecord ⟨rfl, rfl, rfl⟩
    split
    · exact h.of_sameRecord ⟨rfl, rfl, rfl⟩
    · simp only
      split
      · exact popped.of_sameRecord (plan.stopAt_sameRecord _ _ _)
      · exact visit_ratcheted priced popped node

/-- What a callback does at a decision point. -/
theorem reaches_ratcheted (priced : plan.Priced) {d e : Decision Rat} (h : d.search.Ratcheted plan)
    (reaches : d.Reaches plan e) : e.search.Ratcheted plan := by
  induction reaches with
  | refl => exact h
  | interrupt _ ih => exact ih.of_sameRecord ⟨rfl, rfl, rfl⟩
  | @trial e assignment _ ih =>
    rcases Decision.tryAssignment_record plan e assignment with same | ⟨values, accepts, same⟩
    · exact ih.of_sameRecord same
    · obtain ⟨box, objective, iterations, -, answered, whole, improves⟩ := accepts
      rw [priced _ _ _ _ _ answered] at improves
      exact (ih.install whole improves).of_sameRecord same

/-- A whole run. -/
theorem drive_ratcheted (priced : plan.Priced) {κ : Type} {handler : Handler Rat κ}
    (confined : handler.Confined) (turns : Nat) {turn : Turn Rat} (k : κ)
    (h : turn.search.Ratcheted plan) : (plan.drive handler turns turn k).1.search.Ratcheted plan := by
  induction turns generalizing turn k with
  | zero => exact h
  | succ turns ih =>
    cases turn with
    | proceed s => exact ih k (advance_ratcheted priced h)
    | ask d =>
      have reached := reaches_ratcheted priced h (confined plan d k)
      exact ih _ (reached.of_sameRecord (plan.resolve_sameRecord _ _))
    | ended status dual s => exact h
    | failed cause s => exact h

/-- The start of a search. -/
theorem start_ratcheted (plan : Plan Rat) (interrupted : Bool) :
    (Search.start plan {} none interrupted).Ratcheted plan := by
  unfold Search.start
  simp only
  generalize begun : ({
    stack := [Node.root plan.problem.sense.best], lastNumber := 1, stats := {}, incumbent := none,
    monitor := (Search.monitorOf plan.settings).after .entered, interrupted,
    engine := Random.Engine.ofSeed plan.settings.randomSeedShift, journal := #[] } :
      Search Rat) = s
  have empty : s.Ratcheted plan := by
    rw [← begun]
    exact ⟨.nil, rfl, rfl⟩
  exact empty.of_sameRecord (((Search.SameRecord.refl s).note rfl).display plan _)

/-- The simplex method gives optima with their own objective values. -/
theorem ofSettings_priced (p : Problem Rat) (settings : Settings Rat) (hooks : Option Hooks)
    (clock : Clock) : (ofSettings p settings hooks clock).Priced := by
  intro box rows objective values iterations answered
  obtain ⟨m, solved⟩ : ∃ m : Relaxation.Method Rat,
      m.solve p box rows = .ok ⟨.optimal objective values, iterations⟩ := ⟨_, answered⟩
  rcases m.solve_cases p box rows with ⟨refused, -⟩ | ⟨f, -, -, same⟩
  · rw [refused] at solved
    cases solved
  · rw [same] at solved
    simp only [Relaxation.Method.solveForm] at solved
    split at solved
    next => cases solved
    next => cases solved
    next =>
      split at solved
      next => cases solved
      next => cases solved
      next =>
        split at solved
        next =>
          cases solved
          rfl
        next => cases solved

/-- Each incumbent of a search is better than the one before by more than the tolerance, less the
tolerance for each unit of the integral variables' coefficients in the objective; the last one is the
incumbent, and each was counted. If these coefficients are at most one in all, no point that was
ever installed is better than the incumbent. -/
theorem incumbents_improve (p : Problem Rat) (settings : Settings Rat) (hooks : Option Hooks)
    (clock : Clock) {κ : Type} {handler : Handler Rat κ} (confined : handler.Confined)
    (interrupted : Bool) (turns : Nat) {first last : κ} {turn : Turn Rat}
    (run : (ofSettings p settings hooks clock).drive handler turns
      (.proceed (Search.start (ofSettings p settings hooks clock) {} none interrupted)) first =
        (turn, last)) :
    (turn.search.installed.IsChain fun old new =>
      p.sense.isBetter (Scalar.extend new) (Scalar.extend old)
        (settings.tolerance - settings.tolerance * p.objectiveWeight) = true) ∧
    turn.search.installed.getLast? = turn.search.incumbent.map (·.objective) ∧
    turn.search.stats.solutionsFound = countUp 0 turn.search.installed.length ∧
    (0 ≤ settings.tolerance → p.objectiveWeight ≤ 1 → ∀ best, turn.search.incumbent = some best →
      ∀ a ∈ turn.search.installed, ¬ p.sense.Better a best.objective) := by
  have started : (Turn.proceed (Search.start (ofSettings p settings hooks clock) {} none
      interrupted)).search.Ratcheted (ofSettings p settings hooks clock) :=
    start_ratcheted _ interrupted
  have ratcheted :=
    drive_ratcheted (ofSettings_priced p settings hooks clock) confined turns first started
  rw [run] at ratcheted
  obtain ⟨improving, last_eq, counted⟩ := ratcheted
  refine ⟨improving, last_eq, counted, fun nonneg light best has a listed => ?_⟩
  have margin : 0 ≤ settings.tolerance - settings.tolerance * p.objectiveWeight :=
    sub_nonneg.mpr (mul_le_of_le_one_right nonneg light)
  have steps : turn.search.installed.IsChain fun old new => p.sense.Better new old :=
    improving.imp fun _ _ h => Sense.better_of_isBetter margin h
  have : IsTrans Rat fun old new => p.sense.Better new old := ⟨fun _ _ _ h h' => h'.trans h⟩
  rw [has] at last_eq
  obtain ⟨before, listed_eq⟩ := List.getLast?_eq_some_iff.mp last_eq
  rw [listed_eq] at listed steps
  have ordered := (List.pairwise_append.mp (List.isChain_iff_pairwise.mp steps)).2.2
  rcases List.mem_append.mp listed with earlier | same
  · exact (ordered a earlier _ (List.mem_singleton_self _)).asymm
  · rw [List.mem_singleton.mp same]
    exact fun h => h.asymm h

end Plan

/-! ### Two searches within a millionth -/

/-- The settings of a search within a millionth. -/
def Settings.millionth : Settings Rat := { Plan.halved.settings with tolerance := 1 / 10 ^ 6 }

/-- Maximise the value of a load, which is a variable of its own. -/
def Problem.freight : Problem Rat where
  name := "freight"
  sense := .maximize
  vars := #[⟨"x", .integer, 0, 0, .fin 5⟩, ⟨"y", .integer, 0, 0, .fin 5⟩,
    ⟨"value", .continuous, 1, 0, .posInf⟩]
  constraints := #[⟨⟨[(0, 6), (1, 4)], .lessEqual, 23⟩, "weight"⟩,
    ⟨⟨[(0, 2), (1, 3)], .lessEqual, 12⟩, "room"⟩,
    ⟨⟨[(2, 1), (0, -5), (1, -4)], .lessEqual, 0⟩, "worth"⟩]

/-- The search of the problem. -/
def Plan.freight : Plan Rat := .ofSettings .freight .millionth none

/-- The second point that the search installs is better than the first by more than a millionth, and
no point that it installed is better than the last. -/
theorem Plan.freight_improves : ∃ s,
    Plan.freight.drive Handler.passive 40 (.proceed (Search.start Plan.freight {} none false)) () =
      (.ended .optimal (.fin 19) s, ()) ∧
    s.installed = [18, 19] ∧ s.incumbent.map (·.objective) = some 19 ∧
    Sense.maximize.isBetter (Scalar.extend 19) (Scalar.extend 18) (1 / 10 ^ 6 : Rat) = true ∧
    ∀ best, s.incumbent = some best → ∀ a ∈ s.installed, ¬ Sense.maximize.Better a best.objective := by
  have shown : (Plan.freight.drive Handler.passive 40
      (.proceed (Search.start Plan.freight {} none false)) ()).1.endsWith .optimal (.fin 19) = true := by
    decide +kernel
  have recorded : (Plan.freight.drive Handler.passive 40
      (.proceed (Search.start Plan.freight {} none false)) ()).1.search.installed = [18, 19] := by
    decide +kernel
  generalize run : Plan.freight.drive Handler.passive 40
    (.proceed (Search.start Plan.freight {} none false)) () = last at shown recorded
  obtain ⟨turn, memory⟩ := last
  obtain ⟨s, rfl⟩ := Turn.exists_ended shown
  have installed : s.installed = [18, 19] := recorded
  have weight : Problem.freight.objectiveWeight = 0 := by decide +kernel
  obtain ⟨improving, last, -, best⟩ := Plan.incumbents_improve Problem.freight .millionth none .still
    Handler.passive_confined false 40 run
  have step := List.isChain_pair.mp (installed ▸ improving)
  rw [weight, mul_zero, sub_zero] at step
  refine ⟨s, rfl, installed, ?_, step, best (by decide +kernel) (weight ▸ zero_le_one)⟩
  rw [← show s.installed.getLast? = s.incumbent.map (·.objective) from last, installed]
  rfl

/-- Maximise ten million times a variable less three times another one, where the first may be no more
than half the second, and the second leaves it almost no room. -/
def Problem.overtaken : Problem Rat where
  name := "overtaken"
  sense := .maximize
  vars := #[⟨"v", .integer, -3, 0, .fin 1⟩, ⟨"x", .integer, 10 ^ 7, 0, .fin 1⟩]
  constraints := #[⟨⟨[(0, -1), (1, 2)], .lessEqual, 0⟩, "wall"⟩,
    ⟨⟨[(0, 1), (1, 2)], .lessEqual, 1000001 / 10 ^ 6⟩, "cap"⟩]

/-- The search of the problem. -/
def Plan.overtaken : Plan Rat := .ofSettings .overtaken .millionth none

/-- The search ends with an optimum of `-3` after it has installed a point of value `0`: the second
relaxation promises `2`, and rounding takes five away. -/
theorem Plan.overtaken_replaced : ∃ s,
    Plan.overtaken.drive Handler.passive 20
      (.proceed (Search.start Plan.overtaken {} none false)) () =
        (.ended .optimal (.fin (-3)) s, ()) ∧
    s.installed = [0, -3] ∧
    Sense.maximize.isBetter (Scalar.extend (-3)) (Scalar.extend 0) (1 / 10 ^ 6 : Rat) = false ∧
    Sense.maximize.Better 0 (-3) := by
  have shown : (Plan.overtaken.drive Handler.passive 20
      (.proceed (Search.start Plan.overtaken {} none false)) ()).1.endsWith .optimal (.fin (-3)) =
        true := by
    decide +kernel
  have recorded : (Plan.overtaken.drive Handler.passive 20
      (.proceed (Search.start Plan.overtaken {} none false)) ()).1.search.installed = [0, -3] := by
    decide +kernel
  generalize run : Plan.overtaken.drive Handler.passive 20
    (.proceed (Search.start Plan.overtaken {} none false)) () = last at shown recorded
  obtain ⟨turn, memory⟩ := last
  obtain ⟨s, rfl⟩ := Turn.exists_ended shown
  refine ⟨s, rfl, recorded, by decide +kernel, ?_⟩
  show (-3 : Rat) < 0
  norm_num

end Milp
