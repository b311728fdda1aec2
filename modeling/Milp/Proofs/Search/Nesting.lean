import Mathlib.Logic.Function.Basic
import Mathlib.Tactic.SplitIfs
import Milp.Search.Monitor

/-!
# Nested monitors

Composites may be nested in each other to any depth. What counts is which monitors stand at the
leaves of the tree, from left to right (`Monitor.leaves`): every event reaches each of them once
(`Monitor.leaves_watchAll`), and the tree stops a search with the reason of the first one that would
stop it (`Monitor.command_eq_first`). So a tree of monitors behaves as the flat list of its leaves,
each of which watches the search for itself (`Monitor.nesting_immaterial`).

A look at the clock that comes later makes a difference only where a time limit has passed since
(`Monitor.command_later`).
-/

namespace Milp

/-- The first of the commands that stops the search, if there is one. -/
def Command.first (cs : List Command) : Command := (cs.find? (·.isTerminate)).getD .proceed

/-- A command that stops the search is the first one, and one that does not is passed over. -/
theorem Command.first_cons (c : Command) (cs : List Command) :
    first (c :: cs) = if c.isTerminate then c else first cs := by
  rw [first, List.find?_cons]
  cases c <;> rfl

/-- A single command is the first one. -/
theorem Command.first_singleton (c : Command) : first [c] = c := by
  cases c <;> rfl

/-- Of two lists of commands the second one counts if nothing in the first one stops the search. -/
theorem Command.first_append (cs ds : List Command) :
    first (cs ++ ds) = if (first cs).isTerminate then first cs else first ds := by
  induction cs with
  | nil => rfl
  | cons c cs ih =>
    rw [List.cons_append, first_cons, first_cons, ih]
    cases c <;> rfl

/-- What happens while monitors watch: an event of the search, or a flag is raised or lowered. -/
inductive Occurrence (φ : Type) where
  | event (e : SearchEvent)
  | flag (flag : φ) (raised : Bool)

namespace Signals

variable {φ : Type} [DecidableEq φ]

/-- The signals after something has happened. -/
def turn (s : Signals φ) : Occurrence φ → Signals φ
  | .event _ => s
  | .flag flag raised => { s with raised := Function.update s.raised flag raised }

/-- The signals after one thing has happened after the other. -/
def turnAll (s : Signals φ) (os : List (Occurrence φ)) : Signals φ := os.foldl turn s

end Signals

namespace Monitor

variable {φ : Type}

/-! ### The leaves of a tree -/

mutual

/-- The monitors of a tree that are not composites, from left to right. -/
def leaves : Monitor φ → List (Monitor φ)
  | .composite parts => leavesOfAll parts
  | .interrupt flag => [.interrupt flag]
  | .timeLimit limit mask steps => [.timeLimit limit mask steps]
  | .nodeLimit limit steps => [.nodeLimit limit steps]
  | .solutionLimit limit found => [.solutionLimit limit found]

/-- The leaves of all parts, one part after the other. -/
def leavesOfAll : List (Monitor φ) → List (Monitor φ)
  | [] => []
  | m :: ms => m.leaves ++ leavesOfAll ms

end

mutual

/-- A leaf is its only leaf. -/
theorem leaves_of_mem : ∀ (m : Monitor φ), ∀ l ∈ m.leaves, l.leaves = [l]
  | .composite parts, l, h => leaves_of_mem_all parts l (by rwa [leaves] at h)
  | .interrupt _, l, h => by rw [List.mem_singleton.mp h]; rfl
  | .timeLimit .., l, h => by rw [List.mem_singleton.mp h]; rfl
  | .nodeLimit .., l, h => by rw [List.mem_singleton.mp h]; rfl
  | .solutionLimit .., l, h => by rw [List.mem_singleton.mp h]; rfl

/-- So is each leaf of the parts. -/
theorem leaves_of_mem_all : ∀ (ms : List (Monitor φ)), ∀ l ∈ leavesOfAll ms, l.leaves = [l]
  | m :: ms, l, h => by
    rw [leavesOfAll, List.mem_append] at h
    rcases h with first | rest
    · exact leaves_of_mem m l first
    · exact leaves_of_mem_all ms l rest

end

/-- Monitors that are their only leaves are the leaves of their list. -/
theorem leavesOfAll_eq_self {ms : List (Monitor φ)} (flat : ∀ m ∈ ms, m.leaves = [m]) :
    leavesOfAll ms = ms := by
  induction ms with
  | nil => rfl
  | cons m ms ih =>
    rw [leavesOfAll, flat m List.mem_cons_self, ih fun l hl => flat l (List.mem_cons_of_mem m hl)]
    rfl

/-- The flat list of the leaves has the leaves of the tree. -/
theorem leaves_flat (m : Monitor φ) : (composite m.leaves).leaves = m.leaves := by
  rw [leaves]
  exact leavesOfAll_eq_self m.leaves_of_mem

/-! ### Events and commands -/

mutual

/-- Every leaf sees an event, and sees it once. -/
theorem leaves_after (e : SearchEvent) :
    ∀ m : Monitor φ, (m.after e).leaves = m.leaves.map (after e)
  | .composite parts => by rw [after, leaves, leaves, leavesOfAll_afterAll e parts]
  | .interrupt _ => rfl
  | .timeLimit .. => by cases e <;> rfl
  | .nodeLimit .. => by cases e <;> rfl
  | .solutionLimit .. => by cases e <;> rfl

/-- So does every leaf of the parts. -/
theorem leavesOfAll_afterAll (e : SearchEvent) :
    ∀ ms : List (Monitor φ), leavesOfAll (afterAll e ms) = (leavesOfAll ms).map (after e)
  | [] => rfl
  | m :: ms => by
    rw [afterAll, leavesOfAll, leavesOfAll, List.map_append, leaves_after e m,
      leavesOfAll_afterAll e ms]

end

mutual

/-- A tree says what the first leaf says that stops the search. -/
theorem command_eq_first (s : Signals φ) :
    ∀ m : Monitor φ, m.command s = .first (m.leaves.map (command s))
  | .composite parts => by rw [command, leaves, firstCommand_eq_first s parts]
  | .interrupt _ => (Command.first_singleton _).symm
  | .timeLimit .. => (Command.first_singleton _).symm
  | .nodeLimit .. => (Command.first_singleton _).symm
  | .solutionLimit .. => (Command.first_singleton _).symm

/-- So do its parts, one after the other. -/
theorem firstCommand_eq_first (s : Signals φ) :
    ∀ ms : List (Monitor φ), firstCommand s ms = .first ((leavesOfAll ms).map (command s))
  | [] => rfl
  | m :: ms => by
    rw [firstCommand, leavesOfAll, List.map_append, Command.first_append, ← command_eq_first s m,
      ← firstCommand_eq_first s ms]
    cases m.command s <;> rfl

end

mutual

/-- A later look at the clock tells the same as an earlier one, or that a time limit has passed. -/
theorem command_later {s s' : Signals φ} (flags : s'.raised = s.raised)
    (later : s.elapsed.nanos ≤ s'.elapsed.nanos) :
    ∀ m : Monitor φ, m.command s' = m.command s ∨ m.command s' = .terminate .timeLimit
  | .composite parts => by
    rw [command, command]
    exact firstCommand_later flags later parts
  | .interrupt _ => .inl (by rw [command, command, flags])
  | .timeLimit limit mask steps => by
    rw [command, command]
    split_ifs with passed before before
    · exact .inr rfl
    · exact .inr rfl
    · exact absurd ⟨before.1, Nat.le_trans before.2 later⟩ passed
    · exact .inl rfl
  | .nodeLimit .. => .inl rfl
  | .solutionLimit .. => .inl rfl

/-- So does the first part of a list that stops the search. -/
theorem firstCommand_later {s s' : Signals φ} (flags : s'.raised = s.raised)
    (later : s.elapsed.nanos ≤ s'.elapsed.nanos) :
    ∀ ms : List (Monitor φ),
      firstCommand s' ms = firstCommand s ms ∨ firstCommand s' ms = .terminate .timeLimit
  | [] => .inl rfl
  | m :: ms => by
    rw [firstCommand, firstCommand]
    rcases command_later flags later m with same | passed
    · rw [same]
      cases m.command s with
      | terminate reason => exact .inl rfl
      | proceed => exact firstCommand_later flags later ms
    · rw [passed]
      exact .inr rfl

end

/-! ### Watching a search -/

/-- The monitor after it has watched something. -/
def watch (m : Monitor φ) : Occurrence φ → Monitor φ
  | .event e => m.after e
  | .flag _ _ => m

/-- The monitor after it has watched one thing after the other. -/
def watchAll (m : Monitor φ) (os : List (Occurrence φ)) : Monitor φ := os.foldl watch m

/-- Each leaf has watched for itself. -/
theorem leaves_watchAll (m : Monitor φ) (os : List (Occurrence φ)) :
    (m.watchAll os).leaves = m.leaves.map (watchAll · os) := by
  induction os generalizing m with
  | nil => exact (List.map_id _).symm
  | cons o os ih =>
    have one : (m.watch o).leaves = m.leaves.map (watch · o) := by
      cases o with
      | event e => exact leaves_after e m
      | flag flag raised => exact (List.map_id _).symm
    show ((m.watch o).watchAll os).leaves = _
    rw [ih, one, List.map_map]
    rfl

/-- Whatever a tree of monitors has watched, it says what the first of its leaves says, from left to
right, that has watched the same for itself and stops the search; if none of them does, the search
goes on. Each leaf has seen what there was to see as if it had been alone, and so the flat list of
the leaves says the same as the tree, and so does every other tree with these leaves. -/
theorem nesting_immaterial [DecidableEq φ] (m : Monitor φ) (signals : Signals φ)
    (os : List (Occurrence φ)) :
    let s := signals.turnAll os
    (m.watchAll os).command s =
        (((m.leaves.map fun l => (l.watchAll os).command s).find? (·.isTerminate)).getD .proceed) ∧
      (m.watchAll os).leaves = m.leaves.map (watchAll · os) ∧
      (∀ l ∈ m.leaves, l.leaves = [l]) ∧
      ((composite m.leaves).watchAll os).command s = (m.watchAll os).command s ∧
      ∀ m' : Monitor φ, m'.leaves = m.leaves →
        (m'.watchAll os).command s = (m.watchAll os).command s := by
  intro s
  have verdict (m : Monitor φ) : (m.watchAll os).command s =
      .first (m.leaves.map fun l => (l.watchAll os).command s) := by
    rw [command_eq_first, leaves_watchAll, List.map_map]
    rfl
  have alike (m' : Monitor φ) (same : m'.leaves = m.leaves) :
      (m'.watchAll os).command s = (m.watchAll os).command s := by
    rw [verdict m', verdict m, same]
  exact ⟨verdict m, leaves_watchAll m os, leaves_of_mem m, alike _ (leaves_flat m), alike⟩

end Monitor
end Milp
