import Milp.Model
import Milp.Proofs.Number.Duration
import Milp.Proofs.Number.Integers
import Milp.Proofs.Param.Operations

/-!
# What settings are read

However the parameters of the solver are set and reset, they have values of their types that lie in
their ranges (`Registry.Configured.exists_values`), and what is read from the registry depends on
these values alone (`Settings.read_of_holds`): two characters may stand for nothing, which is an
error, and the time limit may be too long for a duration without being long enough to be no limit,
which is a crash. In all other cases the settings say what the values say (`Settings.read_exact`).

A solve whose settings cannot be read leaves its model as it is (`Model.solve_of_rejected`).
-/

namespace Milp

open Double (number)

variable {α : Type}

/-! ### The values of the parameters -/

/-- The values of the parameters of the solver. -/
structure SolverValues where
  time : Float
  nodes : Int64
  solutions : Int32
  tolerance : Float
  rule : Char
  childSelection : Char
  permuteVars : Bool
  permuteConstraints : Bool
  permutationSeed : Int32
  randomSeedShift : Int32
  lpSeed : Int32
  verbosity : Int32
  linePrefix : String

/-- Whether the parameters in a registry have these values. -/
structure Registry.Holds (r : Registry) (v : SolverValues) : Prop where
  time : r.get "limits/time" = .ok (.real v.time)
  nodes : r.get "limits/nodes" = .ok (.long v.nodes)
  solutions : r.get "limits/solutions" = .ok (.int v.solutions)
  tolerance : r.get "numerics/feastol" = .ok (.real v.tolerance)
  rule : r.get "branching/rule" = .ok (.char v.rule)
  childSelection : r.get "nodeselection/childsel" = .ok (.char v.childSelection)
  permuteVars : r.get "randomization/permutevars" = .ok (.bool v.permuteVars)
  permuteConstraints : r.get "randomization/permuteconss" = .ok (.bool v.permuteConstraints)
  permutationSeed : r.get "randomization/permutationseed" = .ok (.int v.permutationSeed)
  randomSeedShift : r.get "randomization/randomseedshift" = .ok (.int v.randomSeedShift)
  lpSeed : r.get "randomization/lpseed" = .ok (.int v.lpSeed)
  verbosity : r.get "display/verblevel" = .ok (.int v.verbosity)
  linePrefix : r.get "display/prefix" = .ok (.string v.linePrefix)

namespace SolverValues

/-- Whether the time limit and the seeds lie in their ranges. -/
structure InRange (v : SolverValues) : Prop where
  time_finite : Scalar.isFinite v.time = true
  time_nonneg : 0 ≤ number v.time
  time_le : number v.time ≤ 10 ^ 20
  permutationSeed : 0 ≤ v.permutationSeed.toInt
  randomSeedShift : 0 ≤ v.randomSeedShift.toInt
  lpSeed : 0 ≤ v.lpSeed.toInt

/-- Whether the characters stand for a branching rule and for a child selection. -/
def Supported (v : SolverValues) : Prop :=
  v.rule ∈ ['f', 'i', 'r'] ∧ v.childSelection ∈ ['d', 'u']

/-- Whether the error is that of the first character that stands for nothing. -/
def Rejected (v : SolverValues) (e : SolverError α) : Prop :=
  (v.rule ∉ ['f', 'i', 'r'] ∧ e = .invalidSetting "branching/rule" v.rule) ∨
    (v.rule ∈ ['f', 'i', 'r'] ∧ v.childSelection ∉ ['d', 'u'] ∧
      e = .invalidSetting "nodeselection/childsel" v.childSelection)

/-- Whether the time limit is too long for a duration and too short to be no limit. -/
def Overlong (v : SolverValues) : Prop := 2 ^ 64 ≤ number v.time ∧ number v.time < 10 ^ 20

/-- Values that are rejected are not supported. -/
theorem Rejected.unsupported {v : SolverValues} {e : SolverError α} (h : v.Rejected e) :
    ¬v.Supported := by
  rintro ⟨rule, child⟩
  obtain ⟨unknown, -⟩ | ⟨-, unknown, -⟩ := h
  · exact unknown rule
  · exact unknown child

/-- Values are rejected with a single error. -/
theorem Rejected.unique {v : SolverValues} {e e' : SolverError α} (h : v.Rejected e)
    (h' : v.Rejected e') : e = e' := by
  obtain ⟨unknown, rfl⟩ | ⟨known, -, rfl⟩ := h
  · obtain ⟨-, rfl⟩ | ⟨known, -⟩ := h'
    · rfl
    · exact absurd known unknown
  · obtain ⟨unknown, -⟩ | ⟨-, -, rfl⟩ := h'
    · exact absurd known unknown
    · rfl

/-- The settings of the values with the given time limit, branching rule and child selection. -/
def settings [Scalar α] (v : SolverValues) (rule : BranchingRule) (childSelection : ChildSelection)
    (timeLimit : Option Duration) : Settings α where
  timeLimit
  nodeLimit := Settings.limit? v.nodes.toInt
  solutionLimit := Settings.limit? v.solutions.toInt
  tolerance := Scalar.ofDouble v.tolerance
  rule
  childSelection
  permuteVars := v.permuteVars
  permuteConstraints := v.permuteConstraints
  permutationSeed := Settings.seedOf v.permutationSeed
  randomSeedShift := Settings.seedOf v.randomSeedShift
  lpSeed := Settings.seedOf v.lpSeed
  verbosity := v.verbosity
  linePrefix := v.linePrefix

end SolverValues

/-- Whether a limit is absent if the parameter is negative and is the parameter otherwise. -/
def Settings.Limits (limit : Option ℕ) (n : ℤ) : Prop :=
  (limit = none ↔ n < 0) ∧ ∀ k, limit = some k → (k : ℤ) = n

/-- Whether settings say what the values of the parameters say. -/
structure Settings.Reflects [Scalar α] (s : Settings α) (v : SolverValues) : Prop where
  timeLimit_absent : s.timeLimit = none ↔ 10 ^ 20 ≤ number v.time
  timeLimit : ∀ d, s.timeLimit = some d → Duration.IsNearest d.nanos (number v.time * 10 ^ 9)
  nodeLimit : Limits s.nodeLimit v.nodes.toInt
  solutionLimit : Limits s.solutionLimit v.solutions.toInt
  tolerance : s.tolerance = Scalar.ofDouble v.tolerance
  rule : BranchingRule.ofChar? v.rule = some s.rule
  childSelection : ChildSelection.ofChar? v.childSelection = some s.childSelection
  permuteVars : s.permuteVars = v.permuteVars
  permuteConstraints : s.permuteConstraints = v.permuteConstraints
  permutationSeed : (s.permutationSeed.toNat : ℤ) = v.permutationSeed.toInt
  randomSeedShift : (s.randomSeedShift.toNat : ℤ) = v.randomSeedShift.toInt
  lpSeed : (s.lpSeed.toNat : ℤ) = v.lpSeed.toInt
  verbosity : s.verbosity = v.verbosity
  linePrefix : s.linePrefix = v.linePrefix

/-! ### Values in range -/

/-- A time limit in its range is a finite number of seconds up to `10 ^ 20`. -/
theorem infiniteTime_number :
    Scalar.isFinite infiniteTime = true ∧ number infiniteTime = 10 ^ 20 := by
  obtain ⟨finite, number_eq⟩ := Double.number_of_unpack
    (show infiniteTime.toModel.unpack = .finite .positive 6103515625000000 14 (by norm_num) from rfl)
    rfl
  refine ⟨finite, number_eq.trans ?_⟩
  norm_num [Double.amount, Double.factor]

/-- A seed in its range is not negative. -/
theorem seed_nonneg {i : Int32} (checked : Parameter.checkRange seedRange (.int i) = .ok ()) :
    0 ≤ i.toInt := by
  obtain ⟨-, above, -⟩ := Parameter.within_of_checkRange checked rfl
  have small : |i.toInt| ≤ 2 ^ 31 := by
    have := i.le_toInt
    have := i.toInt_lt
    exact abs_le.mpr ⟨by omega, by omega⟩
  obtain ⟨finite, -⟩ := Double.ofInt_spec (small.trans (by norm_num))
  have number_eq := Double.ofInt_small (lt_of_le_of_lt small (by norm_num))
  rw [Scalar.Faithful.lt_iff finite Scalar.Faithful.finite_zero, not_lt,
    Scalar.Faithful.value_zero] at above
  have nonneg : (0 : ℚ) ≤ i.toInt := above.trans_eq number_eq
  exact_mod_cast nonneg

/-- However the solver is configured, its parameters have values in their ranges. -/
theorem Registry.Configured.exists_values {r : Registry} (h : r.Configured) :
    ∃ v, r.Holds v ∧ v.InRange := by
  -- One value for each parameter, in the order in which they are declared.
  have declared : ∀ i (within : i < solverParameters.length),
      r.Declares solverParameters[i].1 solverParameters[i].2.2.1 solverParameters[i].2.2.2 :=
    fun i within => h.declares (List.getElem_mem within)
  obtain ⟨time, time_eq, time_checked⟩ := (declared 0 (by decide)).exists_content
  obtain ⟨nodes, nodes_eq, -⟩ := (declared 1 (by decide)).exists_content
  obtain ⟨solutions, solutions_eq, -⟩ := (declared 2 (by decide)).exists_content
  obtain ⟨tolerance, tolerance_eq, -⟩ := (declared 3 (by decide)).exists_content
  obtain ⟨rule, rule_eq, -⟩ := (declared 4 (by decide)).exists_content
  obtain ⟨child, child_eq, -⟩ := (declared 5 (by decide)).exists_content
  obtain ⟨vars, vars_eq, -⟩ := (declared 6 (by decide)).exists_content
  obtain ⟨conss, conss_eq, -⟩ := (declared 7 (by decide)).exists_content
  obtain ⟨seed, seed_eq, seed_checked⟩ := (declared 8 (by decide)).exists_content
  obtain ⟨shift, shift_eq, shift_checked⟩ := (declared 9 (by decide)).exists_content
  obtain ⟨lpSeed, lpSeed_eq, lpSeed_checked⟩ := (declared 10 (by decide)).exists_content
  obtain ⟨verbosity, verbosity_eq, -⟩ := (declared 11 (by decide)).exists_content
  obtain ⟨linePrefix, prefix_eq, -⟩ := (declared 12 (by decide)).exists_content
  obtain ⟨defined, above, below⟩ := Parameter.within_of_checkRange time_checked rfl
  obtain ⟨infinite_finite, infinite_eq⟩ := infiniteTime_number
  obtain ⟨finite, nonneg, time_le⟩ :=
    Double.between Scalar.Faithful.finite_zero infinite_finite defined above below
  refine ⟨⟨time, nodes, solutions, tolerance, rule, child, vars, conss, seed, shift, lpSeed,
    verbosity, linePrefix⟩, ⟨time_eq, nodes_eq, solutions_eq, tolerance_eq, rule_eq, child_eq,
    vars_eq, conss_eq, seed_eq, shift_eq, lpSeed_eq, verbosity_eq, prefix_eq⟩, finite, ?_, ?_,
    seed_nonneg seed_checked, seed_nonneg shift_checked, seed_nonneg lpSeed_checked⟩
  · have zero : number 0 = 0 := Scalar.Faithful.value_zero (α := Float)
    exact zero.symm.trans_le nonneg
  · exact time_le.trans_eq infinite_eq

/-! ### Reading the values -/

namespace Settings

/-- A time limit is none, too long, or rounded to the nearest nanosecond. -/
theorem timeLimit?_cases {x : Float} (finite : Scalar.isFinite x = true) (nonneg : 0 ≤ number x) :
    (10 ^ 20 ≤ number x ∧ timeLimit? (α := α) x = .ok none) ∨
      (2 ^ 64 ≤ number x ∧ number x < 10 ^ 20 ∧
        timeLimit? (α := α) x = .error (.crash timeOutOfRange)) ∨
      ∃ d, number x < 2 ^ 64 ∧ timeLimit? (α := α) x = .ok (some d) ∧
        Duration.IsNearest d.nanos (number x * 10 ^ 9) := by
  obtain ⟨infinite_finite, infinite_eq⟩ := infiniteTime_number
  have limited : x < infiniteTime ↔ number x < 10 ^ 20 := by
    rw [← infinite_eq]
    exact Scalar.Faithful.lt_iff finite infinite_finite
  unfold timeLimit?
  by_cases short : number x < 10 ^ 20
  · rw [if_pos (limited.mpr short)]
    obtain ⟨long, none⟩ | ⟨d, fits, made, nearest⟩ := Duration.ofSeconds?_cases finite nonneg
    · exact .inr (.inl ⟨long, short, by rw [none]⟩)
    · exact .inr (.inr ⟨d, fits, by rw [made], nearest⟩)
  · rw [if_neg fun beyond => short (limited.mp beyond)]
    exact .inl ⟨not_lt.mp short, rfl⟩

/-- A parameter whose value is known is read as that. -/
theorem content_of_get {r : Registry} {t : ParamType} {name : String} {x : t.Carrier}
    (got : r.get name = .ok (.ofContent t x)) : content (α := α) r t name = .ok x := by
  rw [content, Registry.read_of_get got]

/-- So is a character. -/
theorem selected_of_get {β : Type} {r : Registry} {name : String} {c : Char}
    (got : r.get name = .ok (.char c)) (ofChar? : Char → Option β) :
    selected (α := α) r name ofChar? =
      match ofChar? c with
      | some b => .ok b
      | none => Attempt.fail (.invalidSetting name c) := by
  rw [selected, content_of_get (t := .char) got]
  rfl

variable [Scalar α] {r : Registry} {v : SolverValues}

/-- What is read is a matter of the values. -/
theorem read_of_holds (h : r.Holds v) : read (α := α) r =
    match BranchingRule.ofChar? v.rule with
    | none => Attempt.fail (.invalidSetting "branching/rule" v.rule)
    | some rule =>
      match ChildSelection.ofChar? v.childSelection with
      | none => Attempt.fail (.invalidSetting "nodeselection/childsel" v.childSelection)
      | some childSelection => (timeLimit? v.time).map (v.settings rule childSelection) := by
  unfold read
  rw [content_of_get (t := .real) h.time, content_of_get (t := .long) h.nodes,
    content_of_get (t := .int) h.solutions, selected_of_get h.rule,
    selected_of_get h.childSelection]
  simp only [bind, Except.bind]
  cases BranchingRule.ofChar? v.rule with
  | none => rfl
  | some rule =>
    cases ChildSelection.ofChar? v.childSelection with
    | none => rfl
    | some child =>
      simp only
      cases timeLimit? (α := α) v.time with
      | error e => rfl
      | ok limit =>
        simp only [content_of_get (t := .real) h.tolerance,
          content_of_get (t := .bool) h.permuteVars,
          content_of_get (t := .bool) h.permuteConstraints,
          content_of_get (t := .int) h.permutationSeed,
          content_of_get (t := .int) h.randomSeedShift, content_of_get (t := .int) h.lpSeed,
          content_of_get (t := .int) h.verbosity, content_of_get (t := .string) h.linePrefix]
        rfl

/-- The branching rules have their characters. -/
theorem rule_eq_none_iff {c : Char} : BranchingRule.ofChar? c = none ↔ c ∉ ['f', 'i', 'r'] := by
  unfold BranchingRule.ofChar?
  split <;> simp_all

/-- So do the child selections. -/
theorem childSelection_eq_none_iff {c : Char} :
    ChildSelection.ofChar? c = none ↔ c ∉ ['d', 'u'] := by
  unfold ChildSelection.ofChar?
  split <;> simp_all

/-- A limit is absent for negative numbers. -/
theorem limits_limit? (n : ℤ) : Limits (limit? n) n := by
  unfold Limits limit?
  split
  next negative => exact ⟨iff_of_true rfl negative, nofun⟩
  next nonneg =>
    refine ⟨iff_of_false nofun nonneg, fun k eq => ?_⟩
    cases eq
    exact Int.toNat_of_nonneg (not_lt.mp nonneg)

/-- A seed that is not negative is its parameter. -/
theorem toNat_seedOf {n : Int32} (nonneg : 0 ≤ n.toInt) : ((seedOf n).toNat : ℤ) = n.toInt := by
  have small : n.toInt.toNat < 2 ^ 64 := by
    have := n.toInt_lt
    omega
  have kept : (seedOf n).toNat = n.toInt.toNat := UInt64.toNat_ofNat_of_lt small
  rw [kept]
  exact Int.toNat_of_nonneg nonneg

/-- The settings of the values say what these say if the time limit does. -/
theorem reflects_settings (inRange : v.InRange) {rule : BranchingRule} {child : ChildSelection}
    {limit : Option Duration} (rule_eq : BranchingRule.ofChar? v.rule = some rule)
    (child_eq : ChildSelection.ofChar? v.childSelection = some child)
    (absent : limit = none ↔ 10 ^ 20 ≤ number v.time)
    (nearest : ∀ d, limit = some d → Duration.IsNearest d.nanos (number v.time * 10 ^ 9)) :
    (v.settings (α := α) rule child limit).Reflects v where
  timeLimit_absent := absent
  timeLimit := nearest
  nodeLimit := limits_limit? _
  solutionLimit := limits_limit? _
  tolerance := rfl
  rule := rule_eq
  childSelection := child_eq
  permuteVars := rfl
  permuteConstraints := rfl
  permutationSeed := toNat_seedOf inRange.permutationSeed
  randomSeedShift := toNat_seedOf inRange.randomSeedShift
  lpSeed := toNat_seedOf inRange.lpSeed
  verbosity := rfl
  linePrefix := rfl

/-- Settings that cannot be read, for a character or for the time limit, and settings that can. -/
theorem read_cases (h : r.Holds v) (inRange : v.InRange) :
    (∃ e, v.Rejected e ∧ read (α := α) r = .error (.error e)) ∨
      (v.Supported ∧ v.Overlong ∧ read (α := α) r = .error (.crash timeOutOfRange)) ∨
      (v.Supported ∧ ¬v.Overlong ∧ ∃ s, read (α := α) r = .ok s ∧ s.Reflects v) := by
  rw [read_of_holds h]
  cases rule_eq : BranchingRule.ofChar? v.rule with
  | none => exact .inl ⟨_, .inl ⟨rule_eq_none_iff.mp rule_eq, rfl⟩, rfl⟩
  | some rule =>
    have supported : v.rule ∈ ['f', 'i', 'r'] := by
      by_contra unknown
      cases rule_eq.symm.trans (rule_eq_none_iff.mpr unknown)
    cases child_eq : ChildSelection.ofChar? v.childSelection with
    | none =>
      exact .inl ⟨_, .inr ⟨supported, childSelection_eq_none_iff.mp child_eq, rfl⟩, rfl⟩
    | some child =>
      have supported : v.Supported := by
        refine ⟨supported, ?_⟩
        by_contra unknown
        cases child_eq.symm.trans (childSelection_eq_none_iff.mpr unknown)
      simp only
      obtain ⟨none, eq⟩ | ⟨long, short, eq⟩ | ⟨d, fits, eq, nearest⟩ :=
        timeLimit?_cases (α := α) inRange.time_finite inRange.time_nonneg
      · rw [eq]
        refine .inr (.inr ⟨supported, fun overlong => not_lt.mpr none overlong.2, _, rfl, ?_⟩)
        exact reflects_settings inRange rule_eq child_eq (iff_of_true rfl none) nofun
      · rw [eq]
        exact .inr (.inl ⟨supported, ⟨long, short⟩, rfl⟩)
      · rw [eq]
        have short : number v.time < 10 ^ 20 := fits.trans (by norm_num)
        refine .inr (.inr ⟨supported, fun overlong => not_le.mpr fits overlong.1, _, rfl, ?_⟩)
        apply reflects_settings inRange rule_eq child_eq
        · exact iff_of_false nofun (not_le.mpr short)
        intro d' eq'
        cases eq'
        exact nearest

/-- The settings are refused for the first character that stands for nothing. -/
theorem read_error_iff (h : r.Holds v) (inRange : v.InRange) {e : SolverError α} :
    read r = .error (.error e) ↔ v.Rejected e := by
  obtain ⟨e', rejected, eq⟩ | ⟨supported, -, eq⟩ | ⟨supported, -, s, eq, -⟩ :=
    read_cases (α := α) h inRange
  · rw [eq]
    constructor
    · rintro ⟨⟩
      exact rejected
    · intro rejected'
      rw [rejected.unique rejected']
  · rw [eq]
    exact iff_of_false nofun fun rejected => rejected.unsupported supported
  · rw [eq]
    exact iff_of_false nofun fun rejected => rejected.unsupported supported

/-- Reading the settings crashes for the time limit alone. -/
theorem read_crash_iff (h : r.Holds v) (inRange : v.InRange) {c : Crash} :
    read (α := α) r = .error (.crash c) ↔ v.Supported ∧ v.Overlong ∧ c = timeOutOfRange := by
  obtain ⟨e, rejected, eq⟩ | ⟨supported, overlong, eq⟩ | ⟨-, short, s, eq, -⟩ :=
    read_cases (α := α) h inRange
  · rw [eq]
    exact iff_of_false nofun fun crash => rejected.unsupported crash.1
  · rw [eq]
    constructor
    · rintro ⟨⟩
      exact ⟨supported, overlong, rfl⟩
    · rintro ⟨-, -, rfl⟩
      rfl
  · rw [eq]
    exact iff_of_false nofun fun crash => short crash.2.1

/-- Settings that can be read say what the values say. -/
theorem reflects_of_read (h : r.Holds v) (inRange : v.InRange) {s : Settings α}
    (read_eq : read r = .ok s) : s.Reflects v := by
  obtain ⟨e, -, eq⟩ | ⟨-, -, eq⟩ | ⟨-, -, s', eq, reflects⟩ := read_cases (α := α) h inRange
  · cases eq.symm.trans read_eq
  · cases eq.symm.trans read_eq
  · cases eq.symm.trans read_eq
    exact reflects

/-- Settings can be read if both characters stand for something and the time limit is not too
long. -/
theorem exists_read (h : r.Holds v) (inRange : v.InRange) (supported : v.Supported)
    (short : ¬v.Overlong) : ∃ s : Settings α, read r = .ok s ∧ s.Reflects v := by
  obtain ⟨e, rejected, -⟩ | ⟨-, overlong, -⟩ | ⟨-, -, read_eq⟩ := read_cases (α := α) h inRange
  · exact absurd supported rejected.unsupported
  · exact absurd overlong short
  · exact read_eq

end Settings

/-! ### Solving with settings that were refused -/

section Solving

variable [Scalar α] {κ : Type} {m : Model α}

/-- What a solve with the given settings leaves. -/
def Model.solveWith (m : Model α) (s : Settings α) (handler : Handler α κ) (memory : κ) :
    SolveReport α κ :=
  let plan := Plan.ofSettings m.problem s m.hooks m.clock
  let start := Turn.proceed (Search.start plan m.stats m.incumbent m.interrupted)
  let (turn, memory) := plan.drive handler patience start memory
  let (model, result) := m.close turn
  ⟨model, result, memory, turn.journal⟩

/-- A solve whose settings cannot be read leaves everything as it is. -/
theorem Model.solve_of_rejected (fresh : m.stage = .problem) {cause : Failure (SolverError α)}
    (rejected : Settings.read m.registry = .error cause) (handler : Handler α κ) (memory : κ) :
    m.solve handler memory = ⟨m, .error cause, memory, #[]⟩ := by
  simp [solve, opening, fresh, rejected]

/-- A solve whose settings can be read is one with these settings. -/
theorem Model.solve_of_read (fresh : m.stage = .problem) {s : Settings α}
    (read : Settings.read m.registry = .ok s) (handler : Handler α κ) (memory : κ) :
    m.solve handler memory = m.solveWith s handler memory := by
  simp [solve, opening, fresh, read, solveWith]

end Solving

/-! ### However the solver is configured -/

namespace Settings

open Registry

variable [Scalar α]

/-- However the parameters of the solver are set and reset, they have values, and the settings are
refused exactly if a character stands for nothing, crash exactly if the time limit is too long for a
duration and too short to be no limit, and say in all other cases what the values say. A solve whose
settings are refused leaves its model as it is, and once the parameters are corrected it is the solve
of a model that was never refused. -/
theorem read_exact (ops : List Operation) (declared : ∀ op ∈ ops, op.registers = false) :
    let r := defaultRegistry.performAll ops
    ∃ v, r.Holds v ∧
      (∀ e, read (α := α) r = .error (.error e) ↔ v.Rejected e) ∧
      (∀ c, read (α := α) r = .error (.crash c) ↔
        v.Supported ∧ v.Overlong ∧ c = timeOutOfRange) ∧
      (∀ s, read (α := α) r = .ok s → s.Reflects v) ∧
      ∀ (m : Model α) (κ : Type) (handler : Handler α κ) (memory : κ) cause,
        m.registry = r → m.stage = .problem → read r = .error cause →
        m.solve handler memory = ⟨m, .error cause, memory, #[]⟩ ∧
        ∀ corrections : List Operation, (∀ op ∈ corrections, op.registers = false) →
          let r' := r.performAll corrections
          let m' := { (m.solve handler memory).model with registry := r' }
          m'.stage = .problem ∧ ∃ v', r'.Holds v' ∧ (v'.Supported → ¬v'.Overlong →
            ∃ s, read (α := α) r' = .ok s ∧ s.Reflects v' ∧
              m'.solve handler memory = { m with registry := r' }.solveWith s handler memory) := by
  intro r
  have configured : r.Configured := Configured.default.performAll declared
  obtain ⟨v, holds, inRange⟩ := configured.exists_values
  refine ⟨v, holds, fun e => read_error_iff holds inRange, fun c => read_crash_iff holds inRange,
    fun s => reflects_of_read holds inRange, ?_⟩
  intro m κ handler memory cause registry_eq fresh rejected
  have refused := m.solve_of_rejected fresh (registry_eq ▸ rejected) handler memory
  refine ⟨refused, fun corrections declared' => ?_⟩
  intro r' m'
  have unchanged : m' = { m with registry := r' } := by
    show { (m.solve handler memory).model with registry := r' } = _
    rw [refused]
  rw [unchanged]
  obtain ⟨v', holds', inRange'⟩ := (configured.performAll declared').exists_values
  refine ⟨fresh, v', holds', fun supported short => ?_⟩
  obtain ⟨s, read_eq, reflects⟩ := exists_read (α := α) holds' inRange' supported short
  refine ⟨s, read_eq, reflects, ?_⟩
  exact Model.solve_of_read (m := { m with registry := r' }) fresh read_eq handler memory

set_option maxRecDepth 100000 in
/-- An unknown branching rule is refused. Once it is replaced, the limit and the seed that were set
before it are read. -/
theorem unknown_rule_corrected :
    let r := defaultRegistry.performAll [.set "limits/nodes" (.int 10),
      .setMany [("randomization/lpseed", .real 7), ("branching/rule", .char 'x'),
        ("limits/solutions", .int (-7)), ("limits/time", .int 90)]]
    let r' := r.performAll [.set "branching/rule" (.string "i"), .set "display/prefix" (.int 0)]
    let m : Model Float := Model.withRegistry { name := "bare" } r
    let m' := { (m.solve Handler.passive ()).model with registry := r' }
    m.solve Handler.passive () =
        ⟨m, Attempt.fail (.invalidSetting "branching/rule" 'x'), (), #[]⟩ ∧
      ∃ s, s.nodeLimit = some 10 ∧ s.rule = .firstIndex ∧ s.lpSeed.toNat = 7 ∧
        m'.solve Handler.passive () =
          { m with registry := r' }.solveWith s Handler.passive () := by
  intro r r' m m'
  obtain ⟨v, holds, refused, -, -, solves⟩ :=
    read_exact (α := Float) [.set "limits/nodes" (.int 10),
      .setMany [("randomization/lpseed", .real 7), ("branching/rule", .char 'x'),
        ("limits/solutions", .int (-7)), ("limits/time", .int 90)]] (by decide)
  have unknown : v.rule = 'x' := by
    simpa using holds.rule.symm.trans (show r.get "branching/rule" = .ok (.char 'x') by rfl)
  have rejected : v.Rejected (α := Float) (.invalidSetting "branching/rule" 'x') :=
    .inl ⟨by rw [unknown]; decide, by rw [unknown]⟩
  obtain ⟨left, corrected⟩ :=
    solves m Unit Handler.passive () _ rfl rfl ((refused _).mpr rejected)
  obtain ⟨-, v', holds', readable⟩ :=
    corrected [.set "branching/rule" (.string "i"), .set "display/prefix" (.int 0)] (by decide)
  have time : v'.time = infiniteTime := by
    simpa using holds'.time.symm.trans (show r'.get "limits/time" = .ok (.real infiniteTime) by rfl)
  have nodes : v'.nodes = 10 := by
    simpa using holds'.nodes.symm.trans (show r'.get "limits/nodes" = .ok (.long 10) by rfl)
  have rule : v'.rule = 'i' := by
    simpa using holds'.rule.symm.trans (show r'.get "branching/rule" = .ok (.char 'i') by rfl)
  have child : v'.childSelection = 'd' := by
    simpa using holds'.childSelection.symm.trans
      (show r'.get "nodeselection/childsel" = .ok (.char 'd') by rfl)
  have seed : v'.lpSeed = 7 := by
    simpa using holds'.lpSeed.symm.trans
      (show r'.get "randomization/lpseed" = .ok (.int 7) by rfl)
  have unlimited : ¬v'.Overlong := by
    intro overlong
    have short : number v'.time < 10 ^ 20 := overlong.2
    rw [time, infiniteTime_number.2] at short
    exact lt_irrefl _ short
  obtain ⟨s, -, reflects, solved⟩ := readable
    ⟨by rw [rule]; decide, by rw [child]; decide⟩ unlimited
  obtain ⟨absent, limited⟩ := reflects.nodeLimit
  have rule_eq := reflects.rule
  have seed_eq := reflects.lpSeed
  rw [nodes] at absent limited
  rw [rule] at rule_eq
  rw [seed] at seed_eq
  refine ⟨left, s, ?_, (Option.some_inj.mp rule_eq).symm, ?_, solved⟩
  · cases limit : s.nodeLimit with
    | none => exact absurd (absent.mp limit) (by decide)
    | some k =>
      have k_eq : (k : ℤ) = 10 := limited k limit
      rw [show k = 10 by omega]
  · have seven : (s.lpSeed.toNat : ℤ) = 7 := seed_eq
    omega

set_option maxRecDepth 100000 in
/-- A time limit of `2e19` seconds is within its range, but it is too long for a duration. -/
theorem overlong_crashes :
    let r := defaultRegistry.performAll [.set "limits/time" (.real 2e19)]
    r.get "limits/time" = .ok (.real 2e19) ∧ (2e19 : Float) < infiniteTime ∧
      read (α := Float) r = .error (.crash timeOutOfRange) :=
  ⟨by rfl, by decide, by rfl⟩

end Settings

end Milp
