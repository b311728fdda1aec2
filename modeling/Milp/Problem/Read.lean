import Milp.Problem.Scanner

/-!
# Reading a problem

A problem text is a sequence of sections, each opened by a keyword:

    problem NAME
    minimize | maximize
    variables N      then N times    NAME KIND OBJECTIVE LOWER UPPER
    constraints M    then M times    NAME SENSE RHS K  and K times  VARIABLE COEFFICIENT
    end

Sections may come in any order and number; `end` stops the reading. A variable is declared before
a constraint names it. What the builder refuses, the reader refuses.
-/

namespace Milp

namespace Problem

/-- A reader of the words that are left. -/
abbrev Reader (β : Type) : Type := StateT (List Lexeme) (Attempt LoadError) β

namespace Reader

/-- Ends the reading with an error. -/
def fail {β : Type} (e : LoadError) : Reader β := fun _ => Attempt.fail e

/-- The next word with its line, if there is one. -/
def word? : Reader (Option (String × Nat)) := fun lexemes =>
  match lexemes with
  | [] => .ok (none, [])
  | .broken cause :: _ => .error cause
  | .word text line :: rest => .ok (some (text, line), rest)

/-- The next word with its line. -/
def word : Reader (String × Nat) := do
  match ← word? with
  | some w => pure w
  | none => fail .unexpectedEnd

/-- The next word as a value; `type` names what is expected. -/
def value {β : Type} (parse : String → Option β) (type : String) : Reader β := do
  let (text, line) ← word
  match parse text with
  | some b => pure b
  | none => fail (.unparsable line text type)

/-- The next word as a number. -/
def number : Reader Float := value Number.read? "f64"

/-- The next word as a count. -/
def count : Reader Nat := value Number.readCount? "usize"

/-- The next word as one of several fixed words. -/
def choice {β : Type} (select : String → Option β) (expected : String) : Reader β := do
  let (text, line) ← word
  match select text with
  | some b => pure b
  | none => fail (.unexpectedWord line text expected)

end Reader

/-- The kind that a word names. -/
def kindOfWord? : String → Option VariableKind
  | "binary" | "bin" => some .binary
  | "integer" | "int" => some .integer
  | "continuous" | "cont" => some .continuous
  | _ => none

/-- The relation that a word names. -/
def senseOfWord? : String → Option RowSense
  | "le" | "<=" => some .lessEqual
  | "ge" | ">=" => some .greaterEqual
  | "eq" | "=" => some .equal
  | _ => none

open Reader

/-- Reads one variable into the problem. -/
def readVariable (p : Problem Float) : Reader (Problem Float) := do
  let (name, _) ← word
  let kind ← choice kindOfWord? "a variable kind"
  let objective ← number
  let lower ← number
  let upper ← number
  match p.addVariable name kind objective lower (Number.extend upper) with
  | .ok (_, p) => pure p
  | .error e => fail (.refused e)

/-- Reads `n` terms of a row. -/
def readTerms (p : Problem Float) : Nat → Reader (List (Var × Float))
  | 0 => pure []
  | n + 1 => do
    let (name, line) ← word
    match p.find? name with
    | none => fail (.unknownVariable line name)
    | some v =>
      let a ← number
      let rest ← readTerms p n
      pure ((v, a) :: rest)

/-- The largest number of terms that a row may announce: as many as fit the memory of a 64-bit
machine at sixteen bytes each. -/
def termLimit : Nat := 0x7FFFFFFFFFFFFFF

/-- Reads one constraint into the problem. -/
def readConstraint (p : Problem Float) : Reader (Problem Float) := do
  let (name, _) ← word
  let sense ← choice senseOfWord? "a constraint sense"
  let rhs ← number
  let nonzeros ← count
  if nonzeros > termLimit then throw (.crash (.message "capacity overflow"))
  let terms ← readTerms p nonzeros
  match p.addConstraint name terms sense rhs with
  | .ok (_, p) => pure p
  | .error e => fail (.refused e)

/-- Reads `n` entries, one after the other. -/
def readEntries (entry : Problem Float → Reader (Problem Float)) :
    Nat → Problem Float → Reader (Problem Float)
  | 0, p => pure p
  | n + 1, p => do readEntries entry n (← entry p)

/-- Reads the rest of a section after its keyword. -/
def readSection (keyword : String) (line : Nat) (p : Problem Float) :
    Reader (Problem Float) := do
  match keyword with
  | "problem" =>
    let (name, _) ← word
    pure { p with name }
  | "minimize" | "min" => pure { p with sense := .minimize }
  | "maximize" | "max" => pure { p with sense := .maximize }
  | "variables" => readEntries readVariable (← count) p
  | "constraints" => readEntries readConstraint (← count) p
  | _ => fail (.unexpectedWord line keyword "a section keyword")

/-- Reads sections up to `end` or the last word. A section takes at least one word, so as many
rounds as there are words reach the end. -/
def readSections : Nat → Problem Float → Reader (Problem Float)
  | 0, p => pure p
  | rounds + 1, p => do
    match ← word? with
    | none => pure p
    | some ("end", _) => pure p
    | some (keyword, line) => readSections rounds (← readSection keyword line p)

/-- Reads a problem from its words. One without variables is accepted only on request. -/
def ofLexemes (allowEmpty : Bool) (lexemes : List Lexeme) :
    Attempt LoadError (Problem Float) := do
  let (p, _) ← readSections lexemes.length { name := "unnamed" } lexemes
  if !allowEmpty && p.vars.isEmpty then Attempt.fail .noVariables else pure p

/-- Reads a problem from a text. -/
def ofText (allowEmpty : Bool) (text : String) : Attempt LoadError (Problem Float) :=
  ofLexemes allowEmpty (Lexeme.ofText text)

/-- Reads a problem from the bytes of a text. -/
def ofBytes (allowEmpty : Bool) (bytes : ByteArray) : Attempt LoadError (Problem Float) :=
  ofLexemes allowEmpty (Lexeme.ofBytes bytes)

end Problem
end Milp
