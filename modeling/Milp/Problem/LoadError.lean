import Milp.Problem.Build

/-!
# Load errors

Why no problem can be read from a text. Errors that are found at a word carry the line of that word.
-/

namespace Milp

/-- Why no problem could be read. -/
inductive LoadError where
  | io (cause : String)
  | unexpectedEnd
  | unparsable (line : Nat) (word type : String)
  | unexpectedWord (line : Nat) (word expected : String)
  | unknownVariable (line : Nat) (name : String)
  | noVariables
  | refused (cause : ProblemError Float)

namespace LoadError

/-- The cause in words. -/
def message : LoadError → String
  | .io cause => s!"I/O error: {cause}"
  | .unexpectedEnd => "unexpected end of file while parsing problem"
  | .unparsable line word type => s!"line {line}: could not parse token '{word}' as {type}"
  | .unexpectedWord line word expected => s!"line {line}: expected {expected}, found '{word}'"
  | .unknownVariable line name => s!"line {line}: unknown variable '{name}'"
  | .noVariables => "problem declares no variables"
  | .refused cause => "invalid problem: " ++ cause.message

/-- A line that is not text. -/
def notText : LoadError := .io "stream did not contain valid UTF-8"

/-- The cause where a name stands for nothing. -/
def nothingThere : String := "No such file or directory (os error 2)"

/-- The cause where a file stands for a directory. -/
def notDirectory : String := "Not a directory (os error 20)"

/-- A file that is not there. -/
def missingFile : LoadError := .io nothingThere

end LoadError
end Milp
