import Milp.Failure
import Milp.Problem.LoadError

/-!
# The words of a problem text

A problem text is a sequence of words between blanks. Lines are counted from one, and a word knows
the line it stands on. Where no more words can be read, a mark ends the sequence, so that the words
before it still count.
-/

namespace Milp

/-- A word of a problem text with its line, or the mark of a place where reading fails. -/
inductive Lexeme where
  | word (text : String) (line : Nat)
  | broken (cause : Failure LoadError)

namespace Lexeme

/-- The ranges of the characters with the property `White_Space`. -/
def blankRanges : List (Nat × Nat) :=
  [(0x9, 0xD), (0x20, 0x20), (0x85, 0x85), (0xA0, 0xA0), (0x1680, 0x1680), (0x2000, 0x200A),
    (0x2028, 0x2029), (0x202F, 0x202F), (0x205F, 0x205F), (0x3000, 0x3000)]

/-- Whether the character separates words. -/
def isBlank (c : Char) : Bool := blankRanges.any fun r => r.1 ≤ c.toNat && c.toNat ≤ r.2

end Lexeme
end Milp
