import Mathlib.Data.List.TakeWhile
import Milp.Problem.Scanner

/-!
# Words and their lines

What the words of a text are, said without a scanner that finds them: the text is cut into lines,
each line into the part before its first `#` and a comment, and that part at its blanks.

* `Word.ofText` — the words of a text, each with the number of its line.
* `Word.ofText_eq` — they are the runs of the text: one for each position where a word begins, in the
  order of the positions, as far as the word goes, with the number of newlines before it.
* `Word.split_cases` — the words of a line one after the other.
-/

namespace Milp

/-- A word of a problem text with the number of its line. -/
abbrev Word : Type := String × Nat

namespace Word

/-- The words of the line of a number: what stands before its first `#`, cut at the blanks. -/
def ofLine (line : Nat) (cs : List Char) : List Word :=
  (((cs.takeWhile (· != '#')).splitOnP Lexeme.isBlank).filter (!·.isEmpty)).map
    fun w => (String.ofList w, line)

/-- The words of a text; its lines are counted from one. -/
def ofText (text : String) : List Word :=
  ((text.toList.splitOnP (· == '\n')).zipIdx 1).flatMap fun l => ofLine l.2 l.1

end Word

/-- The words as readable lexemes. -/
def Lexeme.ofWords (ws : List Word) : List Lexeme := ws.map fun w => .word w.1 w.2

theorem Lexeme.ofWords_append (us ws : List Word) :
    ofWords (us ++ ws) = ofWords us ++ ofWords ws :=
  List.map_append

@[simp] theorem Lexeme.length_ofWords (ws : List Word) : (ofWords ws).length = ws.length :=
  List.length_map _

namespace Word

open Lexeme (isBlank)

/-! ### The first part of a split -/

/-- The first part of a split is what stands before the first separator. -/
theorem head_splitOnP {β : Type} {p : β → Bool} {xs w : List β} {ws : List (List β)}
    (h : xs.splitOnP p = w :: ws) : w = xs.takeWhile (!p ·) := by
  induction xs generalizing w ws with
  | nil =>
    obtain ⟨rfl, -⟩ : [] = w ∧ [] = ws := by simpa using h
    rfl
  | cons x xs ih =>
    obtain ⟨v, vs, hv⟩ := List.exists_cons_of_ne_nil (List.splitOnP_ne_nil p xs)
    rw [List.splitOnP_cons_eq_if_modifyHead, hv] at h
    cases hx : p x with
    | true =>
      obtain ⟨rfl, -⟩ : [] = w ∧ v :: vs = ws := by simpa [hx] using h
      simp [hx]
    | false =>
      obtain ⟨rfl, -⟩ : x :: v = w ∧ vs = ws := by simpa [hx] using h
      simp [hx, ih hv]

/-- The words between the blanks. -/
def split (cs : List Char) : List (List Char) := (cs.splitOnP isBlank).filter (!·.isEmpty)

/-- Blanks in front do not matter. -/
theorem split_dropWhile (cs : List Char) : split (cs.dropWhile isBlank) = split cs := by
  induction cs with
  | nil => rfl
  | cons c cs ih =>
    cases hc : isBlank c with
    | true => simpa [split, List.splitOnP_cons_eq_if_modifyHead, hc] using ih
    | false => simp [hc]

/-- A run of other characters up to a blank or the end is a word, and more words follow it. -/
theorem split_append {w after : List Char} (nonempty : w ≠ []) (solid : ∀ c ∈ w, isBlank c = false)
    (ends : ∀ c ∈ after.head?, isBlank c = true) : split (w ++ after) = w :: split after := by
  cases after with
  | nil => simp [split, List.splitOnP_eq_singleton solid, nonempty]
  | cons b after =>
    have blank : isBlank b = true := ends b rfl
    rw [split, List.splitOnP_append_cons_of_forall_mem solid b blank]
    simp [split, List.splitOnP_cons_eq_if_modifyHead, blank, nonempty]

/-- A line has no words if it is blank; else a word stands behind the blanks, and the others behind
that. -/
theorem split_cases (cs : List Char) :
    (cs.dropWhile isBlank = [] ∧ split cs = []) ∨
    (cs.dropWhile isBlank ≠ [] ∧ split cs = (cs.dropWhile isBlank).takeWhile (!isBlank ·) ::
      split ((cs.dropWhile isBlank).dropWhile (!isBlank ·))) := by
  rw [← split_dropWhile cs]
  cases ht : cs.dropWhile isBlank with
  | nil => exact .inl ⟨rfl, rfl⟩
  | cons c t =>
    have first := List.head?_dropWhile_not isBlank cs
    rw [ht] at first
    have solid : isBlank c = false := by simpa using first
    have parts : split (c :: t) = split ((c :: t).takeWhile (!isBlank ·) ++
        (c :: t).dropWhile (!isBlank ·)) := by rw [List.takeWhile_append_dropWhile]
    refine .inr ⟨by simp, ?_⟩
    rw [parts, split_append (by simp [solid])]
    · intro d hd
      simpa using List.mem_takeWhile_imp hd
    · intro d hd
      have next := List.head?_dropWhile_not (!isBlank ·) (c :: t)
      rw [hd] at next
      simpa using next

/-! ### Where words begin -/

/-- Whether a character can be part of a word. -/
def isPart (c : Char) : Bool := !isBlank c && c != '#'

/-- Whether a line has a comment before the next character, if so much is before that. -/
def isCommented (before : List Char) : Bool := (before.reverse.takeWhile (· != '\n')).contains '#'

/-- Whether a word begins at a position of a text: a character of a word that does not follow one in
the same word, nor a `#` in the same line. -/
def beginsAt (cs : List Char) (i : Nat) : Bool :=
  cs[i]?.any isPart && (cs.take i).getLast?.all (!isPart ·) && !isCommented (cs.take i)

/-- The word that begins at a position of a text, with one more than the newlines before it. -/
def wordAt (cs : List Char) (i : Nat) : Word :=
  (String.ofList ((cs.drop i).takeWhile isPart), 1 + (cs.take i).count '\n')

/-- The words of a text that begin from a position on. -/
def runsFrom (cs : List Char) (i : Nat) : List Word :=
  ((List.range' i (cs.length - i)).filter (beginsAt cs)).map (wordAt cs)

/-- The words of a line whose first part is in a word already, or in a comment. -/
def ofRest (fresh commented : Bool) (line : Nat) (cs : List Char) : List Word :=
  if commented then []
  else
    let parts := (cs.takeWhile (· != '#')).splitOnP isBlank
    ((if fresh then parts else parts.tail).filter (!·.isEmpty)).map fun w => (String.ofList w, line)

@[simp] theorem ofRest_nil (fresh commented : Bool) (line : Nat) :
    ofRest fresh commented line [] = [] := by
  cases fresh <;> cases commented <;> simp [ofRest]

/-- In a line that is neither in a word nor in a comment, all words count. -/
theorem ofRest_start (line : Nat) (cs : List Char) : ofRest true false line cs = ofLine line cs := rfl

/-- The words behind one character more. -/
theorem ofRest_cons (fresh commented : Bool) (line : Nat) (c : Char) (cs : List Char) :
    ofRest fresh commented line (c :: cs) =
      (if isPart c && fresh && !commented then
        [(String.ofList ((c :: cs).takeWhile isPart), line)] else []) ++
      ofRest (!isPart c) (commented || c == '#') line cs := by
  cases commented with
  | true => simp [ofRest]
  | false =>
    by_cases hash : c = '#'
    · simp [ofRest, hash, isPart]
    obtain ⟨p, ps, hp⟩ := List.exists_cons_of_ne_nil
      (List.splitOnP_ne_nil isBlank (cs.takeWhile (· != '#')))
    have parts := List.splitOnP_cons_eq_if_modifyHead (p := isBlank) c (cs.takeWhile (· != '#'))
    cases blank : isBlank c with
    | true =>
      cases fresh <;> simp [ofRest, hash, isPart, blank, parts]
    | false =>
      have word : (c :: cs).takeWhile isPart = c :: p := by
        rw [head_splitOnP hp, List.takeWhile_takeWhile]
        simp [isPart, hash, blank]
        rfl
      cases fresh <;> simp [ofRest, hash, isPart, blank, parts, hp, ← word]

/-- So much and one character more. -/
theorem isCommented_concat (before : List Char) (c : Char) :
    isCommented (before ++ [c]) = (c != '\n' && (isCommented before || c == '#')) := by
  simp only [isCommented, List.reverse_append, List.reverse_singleton, List.singleton_append]
  by_cases newline : c = '\n'
  · simp [newline]
  · simp only [List.takeWhile_cons, bne_iff_ne.mpr newline, if_true, List.contains_cons,
      Bool.true_and]
    rw [Bool.or_comm, BEq.comm]

/-- The words that begin from a position on: perhaps one there, and those behind it. -/
theorem runsFrom_cons (before : List Char) (c : Char) (cs : List Char) :
    runsFrom (before ++ c :: cs) before.length =
      (if isPart c && before.getLast?.all (!isPart ·) && !isCommented before then
        [(String.ofList ((c :: cs).takeWhile isPart), 1 + before.count '\n')] else []) ++
      runsFrom ((before ++ [c]) ++ cs) (before ++ [c]).length := by
  have rest : (before ++ c :: cs).length - before.length = cs.length + 1 := by simp
  have rest' : ((before ++ [c]) ++ cs).length - (before ++ [c]).length = cs.length := by
    simp
    omega
  rw [runsFrom, runsFrom, rest, rest', List.range'_succ, List.filter_cons]
  have here : beginsAt (before ++ c :: cs) before.length =
      (isPart c && before.getLast?.all (!isPart ·) && !isCommented before) := by
    simp [beginsAt]
  rw [here]
  split
  · simp [wordAt]
  · simp

/-- A word of a line is a word of the text. -/
theorem takeWhile_isPart_line {cs next : List Char} {later : List (List Char)}
    (lines : cs.splitOnP (· == '\n') = next :: later) (c : Char) :
    (c :: next).takeWhile isPart = (c :: cs).takeWhile isPart := by
  have newline (d : Char) : (isPart d && d != '\n') = isPart d := by
    by_cases hd : d = '\n'
    · rw [hd]
      decide
    · simp [hd]
  have first : next = cs.takeWhile (· != '\n') := head_splitOnP lines
  rw [List.takeWhile_cons, List.takeWhile_cons, first, List.takeWhile_takeWhile]
  simp only [Bool.decide_and, Bool.decide_eq_true, newline]

/-- The words that begin behind some text: the rest of those of its last line, and those of the lines
after it. -/
theorem runsFrom_eq (before cs first : List Char) (rest : List (List Char)) {line : Nat}
    (hl : 1 + before.count '\n' = line) (lines : cs.splitOnP (· == '\n') = first :: rest) :
    runsFrom (before ++ cs) before.length =
      ofRest (before.getLast?.all (!isPart ·)) (isCommented before) line first ++
        (rest.zipIdx (line + 1)).flatMap fun l => ofLine l.2 l.1 := by
  induction cs generalizing before first rest line with
  | nil =>
    obtain ⟨rfl, rfl⟩ : [] = first ∧ [] = rest := by simpa using lines
    simp [runsFrom]
  | cons c cs ih =>
    obtain ⟨next, later, split⟩ := List.exists_cons_of_ne_nil (List.splitOnP_ne_nil (· == '\n') cs)
    rw [List.splitOnP_cons_eq_if_modifyHead, split] at lines
    by_cases newline : c = '\n'
    · subst newline
      obtain ⟨rfl, rfl⟩ : [] = first ∧ next :: later = rest := by simpa using lines
      have blank : isPart '\n' = false := by decide
      have line' : 1 + (before ++ ['\n']).count '\n' = line + 1 := by
        simp
        omega
      rw [runsFrom_cons, ih (before ++ ['\n']) next later line' split, isCommented_concat]
      simp [blank, ofRest_start, List.zipIdx_cons]
    · obtain ⟨rfl, rfl⟩ : c :: next = first ∧ later = rest := by simpa [newline] using lines
      have line' : 1 + (before ++ [c]).count '\n' = line := by
        simpa [newline] using hl
      rw [runsFrom_cons, ih (before ++ [c]) next later line' split, isCommented_concat, ofRest_cons,
        takeWhile_isPart_line split, hl, bne_iff_ne.mpr newline, Bool.true_and]
      simp

/-- The words of a text are those that begin somewhere in it, in the order of the positions, each with
one more than the newlines before it. -/
theorem ofText_eq (text : String) : ofText text =
    ((List.range text.toList.length).filter (beginsAt text.toList)).map (wordAt text.toList) := by
  obtain ⟨first, rest, split⟩ :=
    List.exists_cons_of_ne_nil (List.splitOnP_ne_nil (· == '\n') text.toList)
  have runs := runsFrom_eq [] text.toList first rest rfl split
  rw [ofText, split, List.zipIdx_cons, List.flatMap_cons, ← ofRest_start]
  rw [runsFrom, List.nil_append, List.length_nil, Nat.sub_zero, ← List.range_eq_range'] at runs
  exact runs.symm

end Word
end Milp
