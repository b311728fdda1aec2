import Milp.Proofs.Control.Work
import Milp.Proofs.Episode.Calls
import Milp.Proofs.Episode.Ownership

/-!
# The work that a session shows

Whatever calls are made on a session (`Session.Leads`), the work of its solve is not taken back, and once
a call has returned, the session shows all of it: on the idle model as well as at the decision of a
suspended solve (`Session.Shows`). So a reading is a lower bound for every later one
(`Session.Sound.shows`, `Session.Leads.sound`), and the model that the end of the session gives back has
the same counters as the snapshot before (`Session.Shows.close`).
-/

namespace Milp

variable {α : Type} [Scalar α]

namespace Session

/-! ### What is in the cell -/

section

variable {κ : Type}

/-- Whether a session that is suspended owns a truthful channel whose worker has not finished. -/
def Truthful : Session α κ → Prop
  | .controlled c _ => c.Truthful ∧ c.cell.finished = false
  | _ => True

/-- A session that is not suspended has nothing to be untruthful about. -/
theorem truthful_of_not_suspended {s : Session α κ} (idle : s.isSuspended = false) : s.Truthful := by
  cases s with
  | controlled c token => cases idle
  | _ => trivial

/-- Settling where a session is keeps a truthful channel, or there is none any more. -/
theorem truthful_settle {c : Channel α κ} (h : c.Truthful) (waited : Except (ControlError α) Token)
    (k : κ) : (settle c waited k).2.1.Truthful := by
  have recovered (c : Channel α κ) (k : κ) : (recover c k).1.Truthful :=
    truthful_of_not_suspended (isSuspended_recover c k)
  unfold settle
  cases waited with
  | error e => exact recovered c k
  | ok token =>
    simp only [bind, Except.bind, pure, Except.pure, Channel.isDone]
    cases c.isForeign token with
    | true => exact recovered c k
    | false =>
      cases finished : c.cell.finished with
      | true =>
        simp only [Bool.false_eq_true, if_false]
        split <;> exact recovered _ _
      | false => exact ⟨h, finished⟩

end

/-- That suspended sessions are truthful outlives calls with confined orders. -/
theorem lasting_truthful : Lasting Order.Confined (Truthful (α := α)) where
  start s hooks h := by
    cases s with
    | idle m => exact truthful_settle ((Channel.Truthful.start channelId m hooks).wait () patience) _ _
    | controlled c token => exact h
    | vacant => exact h
  resume s order h confined := by
    cases s with
    | idle m => exact h
    | controlled c token =>
      have resumed := Channel.Truthful.resume h.1 confined token
      unfold Session.resume
      simp only
      split
      next eq => exact truthful_of_not_suspended (isSuspended_recover _ ())
      next eq =>
        rw [eq] at resumed
        exact truthful_settle (resumed.wait () patience) _ _
    | vacant => exact h
  solve s h := by
    cases s with
    | idle m => trivial
    | controlled c token => exact h
    | vacant => exact h

/-! ### Calls -/

/-- Where calls lead a session: starts, resumptions with confined orders, and solves, and whatever can be
done to its model while it is idle. -/
inductive Leads (s : EpisodeSession α) : EpisodeSession α → Prop
  | refl : Leads s s
  | start {t : EpisodeSession α} (leads : Leads s t) (hooks : Hooks) :
      Leads s (t.start hooks ()).2.1
  | resume {t : EpisodeSession α} (leads : Leads s t) {order : Order α Unit}
      (confined : order.Confined) : Leads s (t.resume order ()).2.1
  | solve {t : EpisodeSession α} (leads : Leads s t) : Leads s t.solve.2
  | configure {m : Model α} (leads : Leads s (.idle m)) (values : List (String × ParamValue)) :
      Leads s (.idle (m.setParams values).1)
  | hook {m : Model α} (leads : Leads s (.idle m)) (hooks : Option Hooks) :
      Leads s (.idle { m with hooks })
  | interrupt {m : Model α} (leads : Leads s (.idle m)) (raised : Bool) :
      Leads s (.idle { m with interrupted := raised })
  | attend {m : Model α} (leads : Leads s (.idle m)) {κ : Type} {handler : Handler α κ}
      (confined : handler.Confined) (k : κ) : Leads s (.idle (m.solve handler k).model)

/-- Leading is transitive. -/
theorem Leads.trans {s t u : EpisodeSession α} (h : s.Leads t) (h' : t.Leads u) : s.Leads u := by
  induction h' with
  | refl => exact h
  | start _ hooks ih => exact ih.start hooks
  | resume _ confined ih => exact ih.resume confined
  | solve _ ih => exact ih.solve
  | configure _ values ih => exact ih.configure values
  | hook _ hooks ih => exact ih.hook hooks
  | interrupt _ raised ih => exact ih.interrupt raised
  | attend _ confined k ih => exact ih.attend confined k

/-- Setting parameters leads to the model with these parameters. -/
theorem Leads.configured {s : EpisodeSession α} {m m' : Model α} {values : List (String × ParamValue)}
    {result : Except (SolverError α) Unit} (h : s.Leads (.idle m))
    (set : m.setParams values = (m', result)) : s.Leads (.idle m') := by
  have led := h.configure values
  rw [set] at led
  exact led

/-! ### Work -/

/-- Whether a session has done at least so much work, and what it shows is where it is. -/
structure Sound (w : Work) (n : Nat) (s : EpisodeSession α) : Prop where
  worked : s.Upholds (Law.worked w n)
  flagged : s.Flagged
  truthful : s.Truthful

/-- What a session shows once a call has returned: its idle model, or the decision at which its worker
waits. -/
inductive Shows : EpisodeSession α → Snapshot α → Prop
  | idle (m : Model α) : Shows (.idle m) m.snapshot
  | suspended {c : Channel α Unit} {token : Token} {m : Model α} {plan : Plan α} {d : Decision α}
      (worker_eq : c.worker = .waiting m plan d) (inactive : c.cell.workerActive = false)
      (unfinished : c.cell.finished = false) (own : c.isForeign token = false) :
      Shows (.controlled c token) (d.snapshot plan)

variable {s t : EpisodeSession α} {x : Snapshot α} {w : Work} {n : Nat}

/-- No call takes work back. -/
theorem Leads.sound (h : s.Leads t) (sound : s.Sound w n) : t.Sound w n := by
  have kept := Law.worked_kept (α := α) w n
  have worked : Lasting Order.Confined (Upholds (Law.worked (α := α) w n)) :=
    lasting_upholds kept fun _ confined => confined.upholds w n
  have flagged := lasting_flagged (α := α) Order.Confined
  have truthful := lasting_truthful (α := α)
  induction h with
  | refl => exact sound
  | @start t _ hooks ih =>
    exact ⟨worked.start t hooks ih.worked, flagged.start t hooks ih.flagged,
      truthful.start t hooks ih.truthful⟩
  | @resume t _ order confined ih =>
    exact ⟨worked.resume t order ih.worked confined, flagged.resume t order ih.flagged confined,
      truthful.resume t order ih.truthful confined⟩
  | @solve t _ ih =>
    exact ⟨worked.solve t ih.worked, flagged.solve t ih.flagged, truthful.solve t ih.truthful⟩
  | configure _ values ih => exact ⟨ih.worked, trivial, trivial⟩
  | hook _ hooks ih => exact ⟨ih.worked, trivial, trivial⟩
  | interrupt _ raised ih => exact ⟨ih.worked, trivial, trivial⟩
  | @attend m _ κ handler confined k ih =>
    have enough : w.Within n m.stats := ih.worked
    exact ⟨enough.grows (m.solve_work confined k), trivial, trivial⟩

/-- A session whose call has returned shows where it is. -/
theorem Sound.shows (h : s.Sound w n) (returned : ¬s.IsRunning) (snapshot_eq : s.snapshot = .ok x) :
    s.Shows x := by
  cases s with
  | idle m =>
    cases snapshot_eq
    exact .idle m
  | controlled c token =>
    obtain ⟨truthful, unfinished⟩ : c.Truthful ∧ c.cell.finished = false := h.truthful
    have goesOn : (Session.controlled c token).GoesOn := ⟨c, token, rfl, unfinished⟩
    obtain ⟨plan, d, c', token', m, eq, worker_eq⟩ :=
      (goesOn.running_or_waits h.flagged).resolve_left returned
    cases eq
    have inactive : c.cell.workerActive = false := by
      by_contra active
      exact returned ⟨c, token, rfl, by simpa using active⟩
    have published := truthful.shows m plan d worker_eq
    cases own : c.isForeign token with
    | true => simp [snapshot, Channel.state, own, Except.mapError] at snapshot_eq
    | false =>
      rw [snapshot, Channel.state, own, published] at snapshot_eq
      cases snapshot_eq
      exact .suspended worker_eq inactive unfinished own
  | vacant => cases snapshot_eq

namespace Shows

/-- What is shown is at least what was done before, and a lower bound of all that follows. -/
theorem sound (shows : s.Shows x) (h : s.Sound w n) : n ≤ w.shown x ∧ s.Sound w (w.shown x) := by
  cases shows with
  | idle m =>
    have enough : w.Within n m.stats := h.worked
    rw [Work.shown_atRest]
    exact ⟨enough.1, ⟨⟨le_rfl, enough.2⟩, trivial, trivial⟩⟩
  | @suspended c token m plan d worker_eq inactive unfinished own =>
    have worker := Channel.Upholds.worker h.worked
    rw [worker_eq] at worker
    have enough : w.Within n d.search.stats := worker
    have truthful : c.Truthful := h.truthful.1
    rw [Work.shown_decision]
    refine ⟨enough.1, ⟨?_, fun order left => (truthful.confined order left).upholds w _, ?_, ?_⟩,
      h.flagged, h.truthful⟩
    · rw [worker_eq]
      exact ⟨le_rfl, enough.2⟩
    · exact fun _ _ => trivial
    · intro m' handed
      rw [truthful.modelless unfinished] at handed
      cases handed

/-- The model of an idle session has done what is shown. -/
theorem model (shows : s.Shows x) {m : Model α} (model_eq : s.model = .ok m) :
    w.done m.stats = w.shown x := by
  cases shows with
  | idle m' =>
    cases model_eq
    exact (Work.shown_atRest m w).symm
  | suspended => cases model_eq

/-- Where no decision is shown, the session is idle. -/
theorem exists_model (shows : s.Shows x) (free : x.decision = none) : ∃ m, s.model = .ok m := by
  cases shows with
  | idle m => exact ⟨m, rfl⟩
  | suspended => cases free

/-- The model that the end of the session gives back has done what is shown. -/
theorem close (shows : s.Shows x) : ∃ m, (s.close ()).1 = some m ∧ w.done m.stats = w.shown x := by
  cases shows with
  | idle m => exact ⟨m, rfl, (Work.shown_atRest m w).symm⟩
  | @suspended c token m plan d worker_eq inactive unfinished own =>
    have taken := Channel.shutdown_of_waiting (c := c.giveUp) worker_eq unfinished inactive ()
    refine ⟨(m.close (plan.answer d .interrupt)).1.uninstall, ?_, ?_⟩
    · simp only [Session.close, Channel.join, own, Bool.false_eq_true, if_false]
      exact taken
    · show w.done (m.close (plan.answer d .interrupt)).1.stats = _
      rw [Model.close_stats, (plan.answer_interrupt d).2, Work.shown_decision]

end Shows
end Session
end Milp
