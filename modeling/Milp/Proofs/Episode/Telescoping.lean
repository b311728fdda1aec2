import Milp.Episode.Configuring
import Milp.Episode.Environment
import Milp.Proofs.Episode.Forgetting
import Milp.Proofs.Episode.Work

/-!
# Rewards for work telescope

A reward for work charges every transition for what the solver has done since the transition before. So
the charges of an episode add up to all that was done (`rewards_telescope`): up to any transition, to what
the solver shows there, and after the end, to what the model has counted.

An episode is the list of its charged transitions (`Environment.Charges`). One transition charges the
difference of two readings; as no call on the session takes work back, the difference is not cut off
(`Environment.Earns.tallied`), and the sum follows by induction (`Environment.Charges.tallied`).
Nothing is asked of a dynamics but that it works on its session through calls
(`Dynamics.WorksByCalls`), as all the provided ones do.
-/

namespace Milp

variable {α δ action β : Type}

/-! ### Rewards for work -/

namespace Work

/-- A transition is charged for the work since the last reading. -/
theorem charge_reward (w : Work) (last : Nat) (x : Snapshot α) :
    (w.reward last).charge x = w.shown x - last := by
  cases w <;> rfl

/-- What is charged is taken off. -/
theorem value_reward (w : Work) (last : Nat) (x : Snapshot α) (done : Bool) :
    (w.reward last).value x done = -Float.ofNat ((w.reward last).charge x) := by
  cases w <;> rfl

/-- The next reading is taken at the transition. -/
theorem next_reward (w : Work) (last : Nat) (x : Snapshot α) :
    (w.reward last).next x = w.reward (w.shown x) := by
  cases w <;> rfl

/-- An episode begins with nothing read. -/
theorem restart_reward (w : Work) (last : Nat) : (w.reward last).restart = w.reward 0 := by
  cases w <;> rfl

end Work

/-! ### Dynamics -/

section

variable [Scalar α] {m m' : Model α} {g g' : Random.Engine} {r : Except (EpisodeError α) Unit}

variable (α δ) in
/-- Whether a dynamics works on models and sessions through calls only. -/
structure Dynamics.WorksByCalls [Dynamics α δ action β] : Prop where
  randomize : ∀ {b b' : δ} {m m' : Model α} {g g' : Random.Engine} {r : Except (EpisodeError α) Unit},
    Dynamics.randomize b m g = (r, b', m', g') → Session.Leads (.idle m) (.idle m')
  reset : ∀ (b : δ) (s : EpisodeSession α), s.Leads (Dynamics.reset b s).2.2
  step : ∀ (b : δ) (s : EpisodeSession α) (a : action), s.Leads (Dynamics.step b s a).2.2

namespace Dynamics

omit [Scalar α] in
/-- Randomising a model sets parameters. -/
theorem setParams_of_randomizeModel (randomized : randomizeModel m g = (r, m', g')) :
    ∃ values result, m.setParams values = (m', result) := by
  -- only the bare name is opened: the kernel would draw the seeds to compare its value at `g`
  have opened (f : Model α → Random.Engine → _) (f_eq : f = randomizeModel)
      (randomized : f m g = (r, m', g')) : ∃ values result, m.setParams values = (m', result) := by
    delta randomizeModel at f_eq
    subst f_eq
    beta_reduce at randomized
    split at randomized
    split at randomized
    next set =>
      cases randomized
      exact ⟨_, _, set⟩
  exact opened _ rfl randomized

/-- So it is a call on the idle session. -/
theorem leads_of_randomizeModel (randomized : randomizeModel m g = (r, m', g')) :
    Session.Leads (.idle m) (.idle m') := by
  obtain ⟨values, result, set⟩ := setParams_of_randomizeModel randomized
  exact .configured .refl set

/-- A dynamics that takes nothing from the engine does nothing else. -/
theorem leads_of_randomizeAlone {b b' : δ} (randomized : randomizeAlone b m g = (r, b', m', g')) :
    Session.Leads (.idle m) (.idle m') := by
  rcases alone : randomizeModel m g with ⟨r₁, m₁, g₁⟩
  rw [randomizeAlone, alone] at randomized
  cases randomized
  exact leads_of_randomizeModel alone

variable [Dynamics α δ action β]

/-- A dynamics that starts, resumes and solves its session works by calls, if its orders are confined. -/
theorem OnlyCalls.worksByCalls {orders : Order α Unit → Prop} (only : OnlyCalls δ orders)
    (confined : ∀ order, orders order → order.Confined)
    (randomize : ∀ {b b' : δ} {m m' : Model α} {g g' : Random.Engine}
      {r : Except (EpisodeError α) Unit},
      Dynamics.randomize b m g = (r, b', m', g') → Session.Leads (.idle m) (.idle m')) :
    WorksByCalls α δ := by
  have lasting (s : EpisodeSession α) : Session.Lasting orders s.Leads :=
    ⟨fun _ hooks h => h.start hooks, fun _ order h given => h.resume (confined order given),
      fun _ h => h.solve⟩
  exact ⟨randomize, fun b s => only.reset (lasting s) b s .refl,
    fun b s a => only.step (lasting s) b s a .refl⟩

end Dynamics

/-- Branching works by calls. -/
theorem BranchingDynamics.worksByCalls : Dynamics.WorksByCalls α BranchingDynamics := by
  apply BranchingDynamics.onlyCalls.worksByCalls
  · rintro order (rfl | ⟨v, rfl⟩)
    · exact .leave
    · exact .resolve _
  · intro b b' m m' g g' r randomized
    rcases alone : Dynamics.randomizeModel m g with ⟨r₁, m₁, g₁⟩
    change b.randomize m g = _ at randomized
    rw [randomize, alone] at randomized
    have led := Dynamics.leads_of_randomizeModel alone
    cases r₁ <;> cases randomized <;> exact led

/-- Branching on sums works by calls. -/
theorem SumBranchingDynamics.worksByCalls : Dynamics.WorksByCalls α (SumBranchingDynamics α) := by
  apply SumBranchingDynamics.onlyCalls.worksByCalls
  · rintro order ⟨vars, rfl⟩
    exact .resolve _
  · exact Dynamics.leads_of_randomizeAlone

/-- Primal search works by calls: its orders try assignments. -/
theorem PrimalSearchDynamics.worksByCalls : Dynamics.WorksByCalls α PrimalSearchDynamics := by
  apply PrimalSearchDynamics.onlyCalls.worksByCalls
  · rintro order ⟨b, a, rfl⟩ action eq plan d k
    cases eq
    simp only
    generalize tried : (if a.vars.isEmpty = true then ((.ok none : Except (SolverError α) _), d)
      else ((d.tryAssignment plan (a.vars.zip a.values)).1.map some,
        (d.tryAssignment plan (a.vars.zip a.values)).2)) = trial
    have reached : Decision.Reaches plan d trial.2 := by
      rw [← tried]
      split_ifs
      · exact .refl
      · exact .trial _ .refl
    cases trial.1 with
    | error e => exact reached
    | ok result =>
      simp only
      split_ifs <;> exact reached
  · exact Dynamics.leads_of_randomizeAlone

/-- Configuring works by calls. -/
theorem ConfiguringDynamics.worksByCalls : Dynamics.WorksByCalls α ConfiguringDynamics where
  randomize := Dynamics.leads_of_randomizeAlone
  reset b s := .refl
  step b s configuration := by
    show s.Leads (b.step s configuration).2.2
    cases s with
    | idle m =>
      have set := Session.Leads.configure (.refl (s := .idle m)) configuration.entries
      unfold step
      simp only [Session.model]
      split
      next eq =>
        rw [eq] at set
        exact set
      next eq =>
        rw [eq] at set
        exact set.solve
    | controlled c token => exact .refl
    | vacant => exact .refl

end

/-! ### Episodes -/

namespace Environment

/-- A transition as it is charged: what the solver shows, the work that is charged, and the reward. -/
structure Charge (α : Type) where
  shown : Snapshot α
  work : Nat
  reward : Float

/-- Whether the charges of an episode telescope: each is taken off, the readings never decrease, and up to
any transition the charges add up to the reading there. -/
structure Telescopes (w : Work) (charges : List (Charge α)) : Prop where
  rewards : ∀ c ∈ charges, c.reward = -Float.ofNat c.work
  ascending : (charges.map fun c => w.shown c.shown).Pairwise (· ≤ ·)
  sums : ∀ {past c}, past ++ [c] <+: charges →
    ((past ++ [c]).map (·.work)).sum = w.shown c.shown

/-- Where nothing is charged, there is nothing to add up. -/
theorem Telescopes.nil (w : Work) : Telescopes w ([] : List (Charge α)) :=
  ⟨by simp, .nil, fun upTo => absurd (List.prefix_nil.mp upTo) (by simp)⟩

/-- Charges telescope further if the next one is for the work since the last reading, up to which all
were. -/
theorem Telescopes.concat {w : Work} {past : List (Charge α)} {c : Charge α} {n : Nat}
    (h : Telescopes w past) (sum : (past.map (·.work)).sum = n)
    (below : ∀ b ∈ past, w.shown b.shown ≤ n) (reward_eq : c.reward = -Float.ofNat c.work)
    (work_eq : c.work = w.shown c.shown - n) (grown : n ≤ w.shown c.shown) :
    Telescopes w (past ++ [c]) := by
  refine ⟨fun b hb => ?_, ?_, fun {before b} upTo => ?_⟩
  · rcases List.mem_append.mp hb with hb | hb
    · exact h.rewards b hb
    · rw [List.mem_singleton.mp hb]
      exact reward_eq
  · rw [List.map_append, List.pairwise_append]
    refine ⟨h.ascending, List.pairwise_singleton _ _, fun a ha b hb => ?_⟩
    obtain ⟨b', hb', rfl⟩ := List.mem_map.mp ha
    rw [List.mem_singleton.mp hb]
    exact (below b' hb').trans grown
  · rcases List.prefix_concat_iff.mp upTo with all | earlier
    · obtain ⟨rfl, last⟩ := List.append_inj' all rfl
      obtain rfl : b = c := List.singleton_inj.mp last
      rw [List.map_append, List.sum_append, sum, List.map_singleton, List.sum_singleton, work_eq]
      omega
    · exact h.sums earlier

variable [Scalar α]

/-- Whether the last call on the session of an environment has returned. -/
def HasReturned (e : Environment α δ) : Prop := ∀ session ∈ e.session, ¬session.IsRunning

omit [Scalar α] in
instance (e : Environment α δ) : Decidable e.HasReturned :=
  inferInstanceAs (Decidable (∀ session ∈ e.session, ¬session.IsRunning))

variable [Dynamics α δ action β] {e e' e₀ : Environment α δ} {m : Model α}

/-- The charges of an episode on a model, from the reset up to a transition. Every reset and step has
succeeded and every call has returned. -/
inductive Charges (e₀ : Environment α δ) (m : Model α) : List (Charge α) → Environment α δ → Prop
  | reset {t : Transition α β} {e : Environment α δ} {x : Snapshot α} (landed : e₀.reset m = (.ok t, e))
      (returned : e.HasReturned) (shown : e.snapshot = .ok x) :
      Charges e₀ m [⟨x, e₀.extraction.restart.reward.charge x, t.reward⟩] e
  | step {past : List (Charge α)} {e e' : Environment α δ} {t : Transition α β} {x : Snapshot α}
      (a : action) (charges : Charges e₀ m past e) (landed : e.step a = (.ok t, e'))
      (returned : e'.HasReturned) (shown : e'.snapshot = .ok x) :
      Charges e₀ m (past ++ [⟨x, e.extraction.reward.charge x, t.reward⟩]) e'

/-- Whether a call that began with a session and a reward function has arrived at a transition: what the
session shows, and how it is rewarded. -/
structure Earns (s : EpisodeSession α) (r : Reward) (t : Transition α β) (e' : Environment α δ)
    (session : EpisodeSession α) (x : Snapshot α) : Prop where
  leads : s.Leads session
  held : e'.session = some session
  shown : session.snapshot = .ok x
  reward_eq : t.reward = r.value x t.done
  next_eq : e'.extraction.reward = r.next x

/-- What the dynamics leads to is what the environment arrives at. -/
theorem earns_of_arrive {s : EpisodeSession α} {r : DynamicsResult δ α β} {t : Transition α β}
    (leads : s.Leads r.2.2) (landed : e.arrive r = (.ok t, e')) :
    ∃ session x, Earns s e.extraction.reward t e' session x := by
  rcases r with ⟨⟨cause | c⟩ | outcome, d, session⟩
  · cases landed
  · cases landed
  · rcases shown : session.snapshot with cause | x
    · simp only [arrive, shown] at landed
      cases landed
    · simp only [arrive, shown] at landed
      cases landed
      exact ⟨session, x, leads, rfl, shown, rfl, rfl⟩

variable (works : Dynamics.WorksByCalls α δ)
include works

/-- A reset begins with the idle model and nothing read. -/
theorem earns_of_reset {t : Transition α β} (landed : e₀.reset m = (.ok t, e)) :
    ∃ session x, Earns (.idle m) e₀.extraction.reward.restart t e session x := by
  simp only [reset] at landed
  rcases set : m.setParams e₀.params.entries with ⟨m₁, cause | ⟨⟩⟩ <;> simp only [set] at landed
  · cases landed
  · rcases randomized : Dynamics.randomize e₀.dynamics m₁ (Random.Engine.ofSeed (e₀.seed + 1))
      with ⟨cause | ⟨⟩, d, m₂, g⟩ <;> simp only [randomized] at landed
    · cases landed
    · have configured : Session.Leads (.idle m) (.idle m₁) := .configured .refl set
      have leads := (configured.trans (works.randomize randomized)).trans (works.reset d (.idle m₂))
      exact earns_of_arrive leads landed

/-- A step goes on with the session. -/
theorem earns_of_step {a : action} {t : Transition α β} (landed : e.step a = (.ok t, e')) :
    ∃ s session x, e.session = some s ∧ Earns s e.extraction.reward t e' session x := by
  unfold step at landed
  split at landed
  next s awaiting held =>
    obtain ⟨session, x, earns⟩ := earns_of_arrive (works.step e.dynamics s a) landed
    exact ⟨s, session, x, held, earns⟩
  next => cases landed

/-! ### The sum of the charges -/

omit works [Dynamics α δ action β] in
/-- An environment shows what its session shows. -/
theorem snapshot_of_held {session : EpisodeSession α} (held : e.session = some session) :
    e.snapshot = session.snapshot := by
  simp only [snapshot, currentSession, held]
  rfl

omit works [Scalar α] [Dynamics α δ action β] in
/-- Its model is that of its session. -/
theorem model_of_held {session : EpisodeSession α} (held : e.session = some session) :
    e.model = session.model := by
  simp only [model, currentSession, held]
  rfl

/-- What is known of an episode at a transition: its charges telescope up to what its session shows, which
has done so much work and is where it shows to be. -/
structure Tallied (w : Work) (charges : List (Charge α)) (e : Environment α δ)
    (session : EpisodeSession α) (x : Snapshot α) : Prop where
  telescopes : Telescopes w charges
  sum : (charges.map (·.work)).sum = w.shown x
  below : ∀ c ∈ charges, w.shown c.shown ≤ w.shown x
  held : e.session = some session
  shown : session.snapshot = .ok x
  next_eq : e.extraction.reward = w.reward (w.shown x)
  shows : session.Shows x
  sound : session.Sound w (w.shown x)

omit works in
/-- One more transition: the session has not taken work back since the last reading, so what is charged is
the difference of both. -/
theorem Earns.tallied {w : Work} {n : Nat} {past : List (Charge α)} {s session : EpisodeSession α}
    {t : Transition α β} {x x' : Snapshot α} (earns : Earns s (w.reward n) t e' session x)
    (telescopes : Telescopes w past) (sum : (past.map (·.work)).sum = n)
    (below : ∀ c ∈ past, w.shown c.shown ≤ n) (sound : s.Sound w n) (returned : e'.HasReturned)
    (shown : e'.snapshot = .ok x') :
    ∃ session x, Tallied w (past ++ [⟨x', (w.reward n).charge x', t.reward⟩]) e' session x := by
  obtain rfl : x = x' := by
    rw [snapshot_of_held earns.held, earns.shown] at shown
    exact Except.ok.inj shown
  have later := earns.leads.sound sound
  have shows := later.shows (returned session earns.held) earns.shown
  obtain ⟨grown, sound'⟩ := shows.sound later
  have telescopes' : Telescopes w (past ++ [⟨x, (w.reward n).charge x, t.reward⟩]) := by
    apply telescopes.concat sum below
    · exact earns.reward_eq.trans (w.value_reward n x t.done)
    · exact w.charge_reward n x
    · exact grown
  refine ⟨session, x, telescopes', telescopes'.sums List.prefix_rfl, fun c hc => ?_, earns.held,
    earns.shown, earns.next_eq.trans (w.next_reward n x), shows, sound'⟩
  rcases List.mem_append.mp hc with hc | hc
  · exact (below c hc).trans grown
  · rw [List.mem_singleton.mp hc]

/-- What is charged from a reset on is known at every transition. -/
theorem Charges.tallied {w : Work} {last : Nat} (charged : e₀.extraction.reward = w.reward last)
    (inRange : w.done m.stats ≤ counterLimit) {charges : List (Charge α)}
    (episode : e₀.Charges m charges e) : ∃ session x, Tallied w charges e session x := by
  induction episode with
  | @reset t e x landed returned shown =>
    obtain ⟨session, y, earns⟩ := earns_of_reset works landed
    have fresh : e₀.extraction.restart.reward = w.reward 0 := by
      rw [← w.restart_reward last, ← charged]
      rfl
    have begun : Session.Sound w 0 (.idle m) := ⟨⟨Nat.zero_le _, inRange⟩, trivial, trivial⟩
    rw [fresh]
    rw [show e₀.extraction.reward.restart = w.reward 0 from fresh] at earns
    exact earns.tallied (.nil w) rfl (by simp) begun returned shown
  | @step past e e' t x a _ landed returned shown ih =>
    obtain ⟨session, y, before⟩ := ih
    obtain ⟨s, session', y', held, earns⟩ := earns_of_step works landed
    obtain rfl : session = s := Option.some.inj (before.held.symm.trans held)
    rw [before.next_eq] at earns ⊢
    exact earns.tallied before.telescopes before.sum before.below before.sound returned shown

end Environment

/-- Whether the rewards for work telescope in all episodes of a dynamics, with whatever observers,
terminations and informers: up to any transition, what was charged adds up to what the solver shows there.
If it shows no decision, because the solve is over, the model is idle and has counted just that. So has the
model that the end of the session gives back, be the solve over or suspended. -/
def Dynamics.Telescoping (α δ : Type) [Scalar α] [Dynamics α δ action β] : Prop :=
  ∀ (w : Work) (e₀ e : Environment α δ) (last : Nat) (m : Model α)
    (charges : List (Environment.Charge α)),
    e₀.extraction.reward = w.reward last → w.done m.stats ≤ counterLimit → e₀.Charges m charges e →
      Environment.Telescopes w charges ∧
      ∃ x session, e.snapshot = .ok x ∧ (charges.map (·.work)).sum = w.shown x ∧
        (x.decision = none → ∃ m', e.model = .ok m') ∧
        (∀ m', e.model = .ok m' → w.done m'.stats = w.shown x) ∧
        e.session = some session ∧ ∃ m', (session.close ()).1 = some m' ∧ w.done m'.stats = w.shown x

/-- Rewards for work telescope if the dynamics works by calls. -/
theorem Dynamics.WorksByCalls.telescoping [Scalar α] [Dynamics α δ action β]
    (works : Dynamics.WorksByCalls α δ) : Dynamics.Telescoping α δ := by
  intro w e₀ e last m charges charged inRange episode
  obtain ⟨session, x, tallied⟩ := episode.tallied works charged inRange
  have model_eq := Environment.model_of_held tallied.held
  refine ⟨tallied.telescopes, x, session, ?_, tallied.sum, fun free => ?_, fun m' idle => ?_, tallied.held,
    tallied.shows.close⟩
  · exact (Environment.snapshot_of_held tallied.held).trans tallied.shown
  · rw [model_eq]
    exact tallied.shows.exists_model free
  · rw [model_eq] at idle
    exact tallied.shows.model idle

namespace Environment

/-- An environment of branching that rewards nodes. It still has the last reading of another episode. -/
def countingNodes : Environment Rat BranchingDynamics :=
  { dynamics := {}, extraction := { reward := .nodes 7 }, seed := 3 }

/-- What comes of a reset on the pair, where the solver then branches so many times. -/
def pairBranched : Nat → Result Rat BranchingDynamics (List Var)
  | 0 => countingNodes.reset (.ofProblem .pair)
  | n + 1 => (pairBranched n).2.step .bySolver

/-- Whether the call has returned with a transition, and so many nodes are shown there. -/
def showsNodes (r : Result Rat BranchingDynamics (List Var)) (nodes : Nat) : Bool :=
  r.1.toOption.isSome && decide r.2.HasReturned &&
    r.2.snapshot.toOption.map (·.nodesExplored) == some nodes

/-- What it means that so many nodes are shown. -/
theorem exists_of_showsNodes {r : Result Rat BranchingDynamics (List Var)} {nodes : Nat}
    (h : showsNodes r nodes = true) :
    ∃ t x, r = (.ok t, r.2) ∧ r.2.HasReturned ∧ r.2.snapshot = .ok x ∧ x.nodesExplored = nodes := by
  rcases r with ⟨cause | t, e⟩
  · cases h
  · cases shown : e.snapshot with
    | error cause => simp [showsNodes, shown, Except.toOption] at h
    | ok x =>
      simp only [showsNodes, shown, Except.toOption, Option.isSome_some, Bool.true_and, Option.map_some,
        Bool.and_eq_true, decide_eq_true_eq, beq_iff_eq, Option.some.injEq] at h
      exact ⟨t, x, rfl, h.1, rfl, h.2⟩

/-- The transitions up to one where the episode on the pair has arrived are charged. -/
theorem exists_charges {nodes : Nat → Nat} (n : Nat)
    (shown : ∀ k ≤ n, showsNodes (pairBranched k) (nodes k) = true) :
    ∃ charges, countingNodes.Charges (.ofProblem .pair) charges (pairBranched n).2 ∧
      charges.length = n + 1 := by
  induction n with
  | zero =>
    obtain ⟨t, x, landed, returned, shown, -⟩ := exists_of_showsNodes (shown 0 le_rfl)
    exact ⟨_, .reset landed returned shown, rfl⟩
  | succ n ih =>
    obtain ⟨charges, episode, length_eq⟩ := ih fun k within => shown k (within.trans (Nat.le_succ n))
    obtain ⟨t, x, landed, returned, shown, -⟩ := exists_of_showsNodes (shown (n + 1) le_rfl)
    exact ⟨_, .step .bySolver episode landed returned shown, by simp [length_eq]⟩

end Environment
end Milp
