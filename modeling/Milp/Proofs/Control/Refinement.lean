import Milp.Proofs.Control.Following

/-!
# A channel mirrors a direct solve

A channel whose controller has a strategy, and a direct solve with a callback that has it, are the
same to whoever has the strategy (`Strategy.channel_mirrors_direct`): the same snapshots are shown,
the same error is told or none, and in the end there is the same model. Every step of the channel
keeps it where the direct solve is (`Mimics.step`) and leaves fewer steps to the end
(`Mimics.countdown`), whichever of the two threads takes it.
-/

namespace Milp

variable {α κ : Type}

namespace Strategy

variable [Scalar α] {strategy : Strategy α κ} {s t : System α κ} {m : Model α} {hooks : Hooks}
  {course : Course α κ}

/-! ### Calls that a controller makes -/

/-- What a controller is about to do, wherever the direct solve is. -/
inductive Intends (strategy : Strategy α κ) (s : System α κ) : Prop
  | waits (awaits : strategy.Awaits s)
  | calls {call : Call α κ} (holds : strategy.Holds s call) (other : call ≠ .recover)
  | stops (stops : s.controller = .stopping .join ∨ s.controller = .joining .join ∨
      s.controller = .collecting .join)
  | takes (free : s.controller = .free) (next : strategy.next? s = some .takeModel)
  | ended (ends : s.IsOver)

/-- What a controller of a channel is about to do that is where a direct solve is. -/
theorem Mimics.intends (h : strategy.Mimics m hooks s course) : strategy.Intends s := by
  cases h with
  | working works yields => exact .waits yields.awaits
  | suspended paused looks =>
    cases looks with
    | waits awaits => exact .waits awaits
    | asks holds => exact .calls holds nofun
    | looks holds => exact .calls holds nofun
    | resumes holds => exact .calls holds nofun
  | finished settled settles =>
    cases settles with
    | waits awaits => exact .waits awaits
    | asks holds => exact .calls holds nofun
    | joins holds => exact .calls holds nofun
    | stops stops => exact .stops stops
    | takes free next => exact .takes free next
    | ended free delivered taken => exact .ended ⟨free, _, taken⟩

omit [Scalar α] in
/-- A controller that has made its last call has no other one to make. -/
theorem next?_of_isOver (ends : s.IsOver) : strategy.next? s = none := by
  obtain ⟨-, taken, last⟩ := ends
  rw [next?, last]
  rfl

omit [Scalar α] in
/-- What a controller calls next, it may call. -/
theorem Intends.mayCall (h : strategy.Intends s) (free : s.controller = .free) {call : Call α κ}
    (next : strategy.next? s = some call) : s.MayCall call := by
  cases h with
  | waits awaits =>
    rcases awaits.2 with waiting | ⟨-, next'⟩
    · cases waiting.symm.trans free
    · cases next.symm.trans next'
      exact System.mayCall_wait free
  | calls holds other =>
    cases next.symm.trans holds.2.2
    exact ⟨free, fun _ _ _ => by rw [holds.2.1]; exact Nat.one_pos,
      fun recovers => absurd recovers other⟩
  | stops stops => simp [free] at stops
  | takes _ next' =>
    cases next.symm.trans next'
    exact ⟨free, nofun, nofun⟩
  | ended ends => cases next.symm.trans (next?_of_isOver ends)

/-- A channel is over, or goes on with what its controller is about to do. -/
theorem Intends.over_or_goes_on (h : strategy.Intends s) (inv : s.Inv) :
    s.IsOver ∨ ∃ t, strategy.Step s t := by
  have within : s.controller ≠ .free → s.controller ≠ .gone → ∃ t, strategy.Step s t := by
    intro called kept
    obtain ⟨t, progress⟩ := inv.exists_progress called kept
    exact ⟨t, .progress progress⟩
  cases h with
  | waits awaits =>
    rcases awaits.2 with waiting | ⟨free, next⟩
    · exact .inr (within (by simp [waiting]) (by simp [waiting]))
    · exact .inr ⟨_, .call free next⟩
  | calls holds other => exact .inr ⟨_, .call holds.1 holds.2.2⟩
  | stops stops =>
    rcases stops with controller | controller | controller <;>
      exact .inr (within (by simp [controller]) (by simp [controller]))
  | takes free next => exact .inr ⟨_, .call free next⟩
  | ended ends => exact .inl ends

/-! ### Whole runs -/

/-- A channel begins where the direct solve begins. -/
theorem mimics_start (id : Nat) (m : Model α) (hooks : Hooks) (k : κ) :
    strategy.Mimics m hooks (.start id m hooks k) (.start (m.hooked hooks) k) :=
  .working (.ready rfl rfl rfl) ⟨rfl, rfl, ⟨rfl, .inr ⟨rfl, rfl⟩⟩, rfl⟩

/-- A step of either thread, or a call, takes a channel on. -/
theorem Mimics.step (h : strategy.Mimics m hooks s course) (bare : m.hooks = none) (inv : s.Inv)
    (step : strategy.Step s t) : t.Inv ∧ strategy.Advances m hooks s t course := by
  constructor
  · cases step with
    | progress progress => exact inv.progress progress
    | call free next => exact inv.perform (h.intends.mayCall free next)
  · cases h with
    | working works yields =>
      rcases yields.awaits.step_cases step with moved | ⟨rfl, waits⟩
      · exact works.workerStep bare inv yields moved
      · exact yields.sleep works waits
    | suspended paused looks => exact .inl (looks.step inv paused step)
    | finished settled settles => exact .inl (settles.step inv settled step)

/-- Whatever the steps of a channel, it is where the direct solve is after some turns. -/
theorem exists_mimics (bare : m.hooks = none) {id : Nat} {k : κ}
    (steps : Relation.ReflTransGen strategy.Step (.start id m hooks k) s) :
    s.Inv ∧ ∃ n, strategy.Mimics m hooks s (.after strategy (m.hooked hooks) k n) := by
  induction steps with
  | refl => exact ⟨System.inv_start id m hooks k, 0, mimics_start id m hooks k⟩
  | tail _ step ih =>
    obtain ⟨inv, n, mimics⟩ := ih
    obtain ⟨inv', mimics' | ⟨-, mimics', -⟩⟩ := mimics.step bare inv step
    · exact ⟨inv', n, mimics'.1⟩
    · exact ⟨inv', n + 1, by rwa [Course.after_succ]⟩

/-- A step of a channel leaves it fewer steps to the end of its direct solve. -/
theorem Mimics.countdown (bare : m.hooks = none) {k : κ} {n : Nat}
    (ends : (Course.after strategy (m.hooked hooks) k n).IsOver) {i : Nat}
    (h : strategy.Mimics m hooks s (.after strategy (m.hooked hooks) k i)) (inv : s.Inv)
    (step : strategy.Step s t) :
    t.Inv ∧ ∃ i', strategy.Mimics m hooks t (.after strategy (m.hooked hooks) k i') ∧
      13 * (n - i') + strategy.rank t < 13 * (n - i) + strategy.rank s := by
  obtain ⟨inv', ⟨mimics, closer⟩ | ⟨unfinished, mimics, closer⟩⟩ := h.step bare inv step
  · exact ⟨inv', i, mimics, by omega⟩
  · have before : i < n := by
      by_contra behind
      exact unfinished (ends.of_le (Nat.le_of_not_lt behind))
    rw [← Course.after_succ] at mimics
    exact ⟨inv', i + 1, mimics, by omega⟩

/-- A channel completes its solve if the direct solve is over after some turns. -/
theorem Mimics.completes (bare : m.hooks = none) {k : κ} {n : Nat}
    (ends : (Course.after strategy (m.hooked hooks) k n).IsOver) {i : Nat}
    (h : strategy.Mimics m hooks s (.after strategy (m.hooked hooks) k i)) (inv : s.Inv)
    {steps : Nat} (enough : 13 * (n - i) + strategy.rank s ≤ steps) :
    strategy.Completes steps s := by
  induction steps generalizing s i with
  | zero =>
    rcases h.intends.over_or_goes_on inv with ended | ⟨t, step⟩
    · exact .ended 0 ended
    · obtain ⟨-, i', -, fewer⟩ := h.countdown bare ends inv step
      omega
  | succ steps ih =>
    rcases h.intends.over_or_goes_on inv with ended | goes_on
    · exact .ended (steps + 1) ended
    · refine .later goes_on fun t step => ?_
      obtain ⟨inv', i', mimics, fewer⟩ := h.countdown bare ends inv step
      exact ih mimics inv' (by omega)

/-- The controller has been shown the snapshots of the direct solve, or one that its next turn
makes. -/
theorem Mimics.shown_eq (h : strategy.Mimics m hooks s course) :
    s.shown = course.memory.1 ∨ s.shown = (course.next strategy).memory.1 := by
  have ahead : ∀ {m' : Model α} {plan : Plan α} {d : Decision α} {memory : List (Snapshot α) × κ},
      s.shown = memory.1 ++ [d.snapshot plan] →
      s.shown = ((Course.searching m' plan (.ask d) memory).next strategy).memory.1 := by
    intro m' plan d memory shown
    obtain ⟨reply, d', k, round_eq, -⟩ :=
      exists_round strategy s.channel m' plan d memory
    simp only [Course.next, round_eq]
    exact shown
  cases h with
  | working works yields =>
    cases works with
    | ready worker_eq shown memory_eq =>
      left
      rw [shown, Course.start]
      split <;> rfl
    | searching worker_eq memory_eq => exact .inl (congrArg Prod.fst memory_eq)
    | woken worker_eq pending shown memory_eq => exact .inr (ahead shown)
    | acting worker_eq shown memory_eq => exact .inr (ahead shown)
    | closing worker_eq memory_eq => exact .inl (congrArg Prod.fst memory_eq)
  | suspended paused looks =>
    cases looks with
    | waits awaits shown => exact .inl shown
    | asks holds shown => exact .inl shown
    | looks holds shown => exact .inl shown
    | resumes holds shown => exact .inr (ahead shown)
  | finished settled settles => exact .inl (congrArg Prod.fst settled.memory_eq)

omit [Scalar α] in
/-- A controller that is about to wait has not made its last call. -/
theorem Awaits.not_isOver (awaits : strategy.Awaits s) : ¬ s.IsOver := by
  intro ends
  rcases awaits.2 with waiting | ⟨-, next⟩
  · cases waiting.symm.trans ends.1
  · cases next.symm.trans (next?_of_isOver ends)

omit [Scalar α] in
/-- A controller that holds a token has not made its last call. -/
theorem Holds.not_isOver {call : Call α κ} (holds : strategy.Holds s call) : ¬ s.IsOver :=
  fun ends => by cases holds.2.2.symm.trans (next?_of_isOver ends)

/-- A channel that is over mirrors its direct solve, which is over. -/
theorem Mimics.mirrors (h : strategy.Mimics m hooks s course) (ends : s.IsOver) :
    ∃ m' result memory, course = .ended m' result memory ∧
      ∀ report : SolveReport α (List (Snapshot α) × κ), report.model = m' →
        report.result = result → report.memory = memory → s.Mirrors report := by
  cases h with
  | working works yields => exact absurd ends yields.awaits.not_isOver
  | suspended paused looks =>
    cases looks with
    | waits awaits => exact absurd ends awaits.not_isOver
    | asks holds => exact absurd ends holds.not_isOver
    | looks holds => exact absurd ends holds.not_isOver
    | resumes holds => exact absurd ends holds.not_isOver
  | finished settled settles =>
    cases settles with
    | waits awaits => exact absurd ends awaits.not_isOver
    | asks holds => exact absurd ends holds.not_isOver
    | joins holds => exact absurd ends holds.not_isOver
    | stops stops => simp [ends.1] at stops
    | takes free next => cases next.symm.trans (next?_of_isOver ends)
    | ended free delivered taken =>
      have told := settled.told
      rw [delivered, Option.toList_none, List.map_nil, List.append_nil] at told
      refine ⟨_, _, _, rfl, ?_⟩
      rintro report rfl rfl memory_eq
      have known := settled.memory_eq.trans memory_eq.symm
      exact ⟨congrArg Prod.fst known, congrArg Prod.snd known, told, taken⟩

/-- A channel that completes its solve gets to its end. -/
theorem Completes.exists_isOver {n : Nat} (h : strategy.Completes n s) :
    ∃ t, Relation.ReflTransGen strategy.Step s t ∧ t.IsOver := by
  induction h with
  | ended n ends => exact ⟨_, .refl, ends⟩
  | later goes_on _ ih =>
    obtain ⟨t, step⟩ := goes_on
    obtain ⟨u, steps, ends⟩ := ih t step
    exact ⟨u, steps.head step, ends⟩

/-- A channel whose controller has a strategy mirrors the direct solve with that strategy, of any
model without a callback, for any decisions that are asked for, and whichever of the two threads
goes on.

* At any time the controller has been shown what the callback of the direct solve has seen after
  some turns.
* If the controller gets the model, the direct solve is over after some turns.
* If the direct solve is over after `n` turns, the controller gets the model in at most
  `13 * n + 23` steps, and then it was shown the same snapshots, was told the same error or none,
  and has the same model as the direct solve, however many turns that may take and rounds its
  callback may make; `Model.solve` may take `patience` turns (`Model.solve_eq_solveWithin`). -/
theorem channel_mirrors_direct (strategy : Strategy α κ) {m : Model α} (bare : m.hooks = none)
    (hooks : Hooks) (id : Nat) (k : κ) :
    (∀ s, Relation.ReflTransGen strategy.Step (.start id m hooks k) s →
      (∃ n, s.shown = (Course.after strategy (m.hooked hooks) k n).memory.1) ∧
      (s.IsOver → ∃ n, (Course.after strategy (m.hooked hooks) k n).IsOver)) ∧
    ∀ n, (Course.after strategy (m.hooked hooks) k n).IsOver →
      strategy.Completes (13 * n + 23) (.start id m hooks k) ∧
      ∀ s, Relation.ReflTransGen strategy.Step (.start id m hooks k) s → s.IsOver →
        ∀ turns ≥ n, ∀ rounds ≥ n,
          s.Mirrors ((m.hooked hooks).solveWithin turns (strategy.callback rounds) ([], k)) := by
  constructor
  · intro s steps
    obtain ⟨-, n, mimics⟩ := exists_mimics bare steps
    constructor
    · rcases mimics.shown_eq with shown | shown
      · exact ⟨n, shown⟩
      · exact ⟨n + 1, by rwa [Course.after_succ]⟩
    · intro ends
      obtain ⟨m', result, memory, course_eq, -⟩ := mimics.mirrors ends
      exact ⟨n, m', result, memory, course_eq⟩
  · intro n ends
    constructor
    · exact Mimics.completes bare ends (i := 0) (mimics_start id m hooks k)
        (System.inv_start id m hooks k) (Nat.le_refl _)
    · intro s steps finished turns enough rounds enough'
      obtain ⟨-, i, mimics⟩ := exists_mimics bare steps
      obtain ⟨m', result, memory, course_eq, mirrors⟩ := mimics.mirrors finished
      obtain ⟨m₁, result₁, memory₁, after_eq⟩ := ends
      have same : Course.ended m' result memory = .ended m₁ result₁ memory₁ := by
        rcases Nat.le_total i n with before | behind
        · exact (Course.after_of_ended course_eq before).symm.trans after_eq
        · exact course_eq.symm.trans (Course.after_of_ended after_eq behind)
      cases same
      obtain ⟨model_eq, result_eq, memory_eq⟩ :=
        Model.solveWithin_of_course after_eq enough enough'
      exact mirrors _ model_eq result_eq memory_eq

/-- The strategy that holds once at its first decision, which its action remembers, and leaves all
others to the solver. -/
def hesitant : Strategy Rat Nat := fun seen =>
  if seen.length = 1 then .act fun _ d k => (.ok .hold, d, k + 1) else .leave

/-- A channel that solves the pair with it gets the model that a direct solve leaves. -/
theorem hesitant_mirrored :
    hesitant.Completes (13 * 28 + 23) (.start 1 (.ofProblem .pair) { branching := true } 0) ∧
    ∃ s, Relation.ReflTransGen hesitant.Step
        (.start 1 (.ofProblem .pair) { branching := true } 0) s ∧
      s.IsOver ∧ s.Mirrors (((Model.ofProblem .pair).hooked { branching := true }).solve
        (hesitant.callback patience) ([], 0)) := by
  have bare : (Model.ofProblem Problem.pair).hooks = none := rfl
  have ends : (Course.after hesitant ((Model.ofProblem .pair).hooked { branching := true }) 0
      28).IsOver := by
    decide +kernel
  have enough : 28 ≤ patience := by
    rw [patience]
    omega
  obtain ⟨completes, mirrors⟩ :=
    (channel_mirrors_direct hesitant bare { branching := true } 1 0).2 28 ends
  obtain ⟨s, steps, finished⟩ := completes.exists_isOver
  rw [Model.solve_eq_solveWithin]
  exact ⟨completes, s, steps, finished,
    mirrors s steps finished patience enough patience enough⟩

end Strategy
end Milp
