import Milp.Number.Text
import Milp.Search.Error
import Milp.Search.Rule

/-!
# The journal of a search

A search keeps a journal of what it does. Its events are written as records of a level, a message
and named values. Lines for the reader are part of it as far as the verbosity asks for them; they
carry the prefix that the settings give them.
-/

namespace Milp

/-- A line for the reader. -/
inductive ReaderLine (α : Type) where
  | opening (problem : String) (vars rows : Nat)
  | node (number depth : Nat) (bound : α) (openNodes : Nat)
  | closing (status : SolveStatus) (primal : Extended α) (nodes : Nat)

/-- The verbosity from which on a line is shown. -/
def ReaderLine.verbosity {α : Type} : ReaderLine α → Int32
  | .opening .. => 1
  | .node .. => 2
  | .closing .. => 1

/-- What happens in a search. -/
inductive JournalEvent (α : Type) where
  | started (problem : String) (rule : BranchingRule) (vars rows : Nat)
  | shown (linePrefix : String) (line : ReaderLine α)
  | nodeSolved (node depth : Nat) (bound : α)
  | nodeInfeasible (node : Nat)
  | incumbent (objective : α)
  | trial (node fixed : Nat) (result : TrialResult)
  | branched (node : Nat) (v : Var) (down up : α)
  | branchedSum (node size : Nat) (down up : α)
  | finished (status : SolveStatus) (nodes solutions : Nat)
  | failed (cause : SolverError α)

/-- How much an event matters. -/
inductive JournalLevel where
  | info
  | debug
  | trace
  deriving DecidableEq, Repr

/-- The level in words. -/
def JournalLevel.text : JournalLevel → String
  | .info => "INFO"
  | .debug => "DEBUG"
  | .trace => "TRACE"

/-- An event as it is written. -/
structure JournalRecord where
  level : JournalLevel
  message : String
  values : List (String × String)

/-- The line in words. -/
def ReaderLine.text : ReaderLine Float → String
  | .opening problem vars rows =>
    s!"solving {problem} ({vars} variables, {rows} constraints)"
  | .node number depth bound openNodes =>
    s!"node {number} depth {depth} bound " ++ Number.text bound ++ s!" open {openNodes}"
  | .closing status primal nodes =>
    s!"{status.text}: primal bound " ++ Number.extendedText primal ++ s!", {nodes} nodes"

namespace JournalEvent

/-- A number among the values of a record, where both zeros are written alike. -/
def numberText (x : Float) : String := if x == 0 then "0" else Number.text x

/-- The event as it is written. -/
def toRecord : JournalEvent Float → JournalRecord
  | .started problem rule vars rows =>
    ⟨.debug, s!"search started on {problem} ({rule.text} branching)",
      [("variables", Nat.repr vars), ("constraints", Nat.repr rows)]⟩
  | .shown linePrefix line => ⟨.info, linePrefix ++ line.text, []⟩
  | .nodeSolved node depth bound =>
    ⟨.trace, "node solved",
      [("node", Nat.repr node), ("depth", Nat.repr depth), ("bound", numberText bound)]⟩
  | .nodeInfeasible node => ⟨.trace, "infeasible", [("node", Nat.repr node)]⟩
  | .incumbent objective => ⟨.trace, "new incumbent", [("objective", numberText objective)]⟩
  | .trial node fixed result =>
    ⟨.trace, "trial " ++ result.text, [("node", Nat.repr node), ("fixed", Nat.repr fixed)]⟩
  | .branched node v down up =>
    ⟨.trace, "branched",
      [("node", Nat.repr node), ("var", Nat.repr v), ("down", numberText down),
        ("up", numberText up)]⟩
  | .branchedSum node size down up =>
    ⟨.trace, "branched on sum",
      [("node", Nat.repr node), ("vars", Nat.repr size), ("down", numberText down),
        ("up", numberText up)]⟩
  | .finished status nodes solutions =>
    ⟨.debug, "search finished: " ++ status.text,
      [("nodes", Nat.repr nodes), ("solutions", Nat.repr solutions)]⟩
  | .failed cause => ⟨.debug, "solve failed: " ++ cause.message, []⟩

end JournalEvent
end Milp
