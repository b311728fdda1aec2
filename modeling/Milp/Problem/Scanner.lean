import Milp.Problem.Lexeme

/-!
# The scanner of problem texts

A scanner gives the words of a text one at a time. It reads the text line by line into a buffer and
keeps of a line what stands before its first `#`. How far it has come in the buffer it remembers as a
number of bytes, and words are slices from one byte to another; a slice that does not begin and end
between characters is a crash.
-/

namespace Milp

/-! ### Slices of a text -/

/-- The number of bytes that a text takes in UTF-8. -/
def byteLength : List Char → Nat
  | [] => 0
  | c :: cs => c.utf8Size + byteLength cs

/-- The part of a text from a byte on. There is none from within a character or beyond the end. -/
def sliceFrom? : List Char → Nat → Option (List Char)
  | cs, 0 => some cs
  | [], _ + 1 => none
  | c :: cs, n + 1 => if c.utf8Size ≤ n + 1 then sliceFrom? cs (n + 1 - c.utf8Size) else none

/-- The part of a text up to a byte. There is none into a character or beyond the end. -/
def sliceTo? : List Char → Nat → Option (List Char)
  | _, 0 => some []
  | [], _ + 1 => none
  | c :: cs, n + 1 =>
    if c.utf8Size ≤ n + 1 then (sliceTo? cs (n + 1 - c.utf8Size)).map (c :: ·) else none

/-- The byte at which the first character of a kind begins, if there is one. -/
def byteOf? (kind : Char → Bool) : List Char → Option Nat
  | [] => none
  | c :: cs => if kind c then some 0 else (byteOf? kind cs).map (c.utf8Size + ·)

/-- A slice that has to be there. -/
def sliced : Option (List Char) → Attempt LoadError (List Char)
  | some cs => .ok cs
  | none => .error (.crash (.message "byte index is not a char boundary"))

/-! ### Lines -/

/-- The lines of a sequence. Each is ended by an element that belongs to it, except that the last one
need not be. -/
def linesOf {β : Type} (isEnd : β → Bool) : List β → List (List β)
  | [] => []
  | b :: bs =>
    if isEnd b then [b] :: linesOf isEnd bs
    else
      match linesOf isEnd bs with
      | [] => [[b]]
      | l :: ls => (b :: l) :: ls

/-- The text that some bytes are in UTF-8. -/
def decode? (bytes : List UInt8) : Option (List Char) :=
  (String.fromUTF8? ⟨bytes.toArray⟩).map String.toList

/-- The line in hand: what is kept of it, the byte up to which its words were taken, and its
number. -/
structure Cursor where
  buffer : List Char := []
  offset : Nat := 0
  line : Nat := 0

namespace Cursor

/-- The next word of the line in hand and the cursor behind it, if there is one. -/
def word? (c : Cursor) : Attempt LoadError (Option (String × Cursor)) := do
  let rest ← sliced (sliceFrom? c.buffer c.offset)
  let trimmed := rest.dropWhile Lexeme.isBlank
  if trimmed.isEmpty then pure none
  else
    let start := c.offset + (byteLength rest - byteLength trimmed)
    let length := (byteOf? Lexeme.isBlank trimmed).getD (byteLength trimmed)
    let text ← sliced ((sliceFrom? c.buffer start).bind (sliceTo? · length))
    pure (some (String.ofList text, { c with offset := start + length }))

/-- The cursor at the start of the next line. What follows the first `#` of it is dropped. -/
def fill (c : Cursor) (bytes : List UInt8) : Attempt LoadError Cursor :=
  match decode? bytes with
  | none => Attempt.fail .notText
  | some text => do
    let kept ← match byteOf? (· == '#') text with
      | none => pure text
      | some n => sliced (sliceTo? text n)
    pure { buffer := kept, offset := 0, line := c.line + 1 }

end Cursor

/-! ### Scanners -/

/-- A reader of words: the line in hand and the lines that are still to be read. -/
structure Scanner extends Cursor where
  lines : List (List UInt8)

namespace Scanner

/-- The scanner of a text that is given by its bytes. -/
def ofBytes (bytes : ByteArray) : Scanner := { lines := linesOf (· == 10) bytes.data.toList }

/-- The scanner of a text. -/
def ofText (text : String) : Scanner := ofBytes text.toUTF8

/-- The next word behind a cursor, reading on from line to line, and the scanner behind it. There is
none at the end of the text. -/
def nextFrom (c : Cursor) (lines : List (List UInt8)) :
    Attempt LoadError (Option String × Scanner) := do
  match ← c.word? with
  | some (text, c) => pure (some text, { c with lines })
  | none =>
    match lines with
    | [] => pure (none, { line := c.line, lines := [] })
    | bytes :: rest => nextFrom (← c.fill bytes) rest

/-- The next word and the scanner behind it. -/
def next (s : Scanner) : Attempt LoadError (Option String × Scanner) := nextFrom s.toCursor s.lines

/-- The words of a text up to its end, or up to where reading fails; at most so many. -/
def lexemes : Nat → Scanner → List Lexeme
  | 0, _ => []
  | rounds + 1, s =>
    match s.next with
    | .error cause => [.broken cause]
    | .ok (none, _) => []
    | .ok (some text, s) => .word text s.line :: lexemes rounds s

end Scanner

namespace Lexeme

/-- The words of a text given by its bytes. A word takes at least one byte, so one round more than
there are bytes reaches the end. -/
def ofBytes (bytes : ByteArray) : List Lexeme := (Scanner.ofBytes bytes).lexemes (bytes.size + 1)

/-- The words of a text. -/
def ofText (text : String) : List Lexeme := ofBytes text.toUTF8

end Lexeme
end Milp
