import Milp.Proofs.Problem.Scanning
import Milp.Proofs.Problem.Sections

/-!
# Words and lines of a text

What the lines of a text are for: the scanner counts them right, errors name them, and nothing else
depends on them.

* `Problem.place_of_error` — an error that is about a word is about the first that cannot stand where
  it stands.
* `Problem.words_and_lines` — what the scanner gives of a text and what the loader makes of its lines.
-/

namespace Milp.Problem

open Lexeme (ofWords)
open Format (start)
open Reader

/-- An error that is about a word is about the first that cannot stand where it stands: whatever
follows it, the error is the same, and the words before it are refused for none of them. -/
theorem place_of_error {allowEmpty : Bool} {ws : List Word} {e : LoadError} {w : Word}
    (h : ofLexemes allowEmpty (ofWords ws) = .error (.error e)) (place : e.place? = some w) :
    ∃ before after, ws = before ++ w :: after ∧
      (∀ after', ofLexemes allowEmpty (ofWords (before ++ w :: after')) = .error (.error e)) ∧
      ∀ e', ofLexemes allowEmpty (ofWords before) = .error (.error e') → e'.place? = none := by
  obtain waits | ⟨u, v, x, rfl, settles, before, blames⟩ := sections_outcome start ws
  · rw [place?_eq_none_of_waits waits h] at place
    cases place
  cases x with
  | ok q =>
    rw [Lexeme.ofWords_append, ofLexemes_of_ok (settles _)] at h
    obtain rfl : e = .noVariables := by simpa using eq_of_finished_eq_error h
    cases place
  | error c =>
    obtain rfl : c = .error e := by
      rw [Lexeme.ofWords_append, ofLexemes_of_error (settles _)] at h
      exact Except.error.inj h
    obtain ⟨u, rfl⟩ : ∃ u', u = u' ++ [w] :=
      List.getLast?_eq_some_iff.mp (blames _ rfl e rfl w place)
    refine ⟨u, v, by simp, fun after' => ?_, fun e' => place?_eq_none_of_waits (before u w [] rfl)⟩
    rw [List.append_cons, Lexeme.ofWords_append, ofLexemes_of_error (settles _)]

/-- Called again and again, the scanner of a text gives its words and then nothing for ever. They are
the runs of the text that begin somewhere in it, in the order of the positions, each with one more
than the newlines before it. A text with the same words on other lines loads to the same but for the
lines of errors. The line of an error is that of the first word that cannot stand where it stands:
the error depends on no word behind it, and without it there is none that has a line. -/
theorem words_and_lines (text : String) :
    (∀ n, (Scanner.ofText text).calls n =
      (List.range n).map fun i => .ok (Word.ofText text)[i]?) ∧
    Word.ofText text = ((List.range text.toList.length).filter
      (Word.beginsAt text.toList)).map (Word.wordAt text.toList) ∧
    ∀ allowEmpty,
      (∀ text', (Word.ofText text').map Prod.fst = (Word.ofText text).map Prod.fst →
        Attempt.mapError LoadError.unlined (ofText allowEmpty text') =
          Attempt.mapError LoadError.unlined (ofText allowEmpty text)) ∧
      ∀ e w, ofText allowEmpty text = .error (.error e) → e.place? = some w →
        ∃ before after, Word.ofText text = before ++ w :: after ∧
          (∀ after', ofLexemes allowEmpty (ofWords (before ++ w :: after')) =
            .error (.error e)) ∧
          ∀ e', ofLexemes allowEmpty (ofWords before) = .error (.error e') → e'.place? = none := by
  refine ⟨fun n => Scanner.calls_ofText n text, Word.ofText_eq text, fun allowEmpty =>
    ⟨fun text' same => ?_, fun e w h place => ?_⟩⟩
  · have unlined (ws : List Word) : (ofWords ws).map unline =
        (ws.map Prod.fst).map fun text => .word text 0 := by
      simp [ofWords, unline]
    rw [ofText, ofText, Lexeme.ofText_eq, Lexeme.ofText_eq]
    exact ofLexemes_blind (by rw [unlined, unlined, same])
  · rw [ofText, Lexeme.ofText_eq] at h
    exact place_of_error h place

/-- A variable over several lines, with a word that is no number. -/
def spread : String := "variables 1\n\nx # name\n integer five 0\n1"

/-- The same on one line. -/
def unspread : String := "variables 1 x integer five 0 1"

theorem words_spread : Word.ofText spread = [("variables", 1), ("1", 1), ("x", 3), ("integer", 4),
    ("five", 4), ("0", 4), ("1", 5)] := by
  decide +kernel

theorem words_unspread : Word.ofText unspread = [("variables", 1), ("1", 1), ("x", 1),
    ("integer", 1), ("five", 1), ("0", 1), ("1", 1)] := by
  decide +kernel

theorem spread_error :
    ofText true spread = .error (.error (.unparsable 4 "five" "f64")) := by
  have number : Field.number ("five", 4) = .error (.unparsable 4 "five" "f64") := by
    have none : Number.read? "five" = none := by decide +kernel
    rw [Field.number, Field.value, none]
    rfl
  have lacks : Lacks [Field.name.check, Field.kind.check, Field.number.check, Field.number.check,
      Field.number.check] [("x", 3), ("integer", 4), ("five", 4), ("0", 4), ("1", 5)]
      (.error (.unparsable 4 "five" "f64")) :=
    .later rfl (.later rfl (.wrong (Field.check_eq_error.2 number)))
  have fault : TextSection.Fault (some termLimit) start (Word.ofText spread)
      (.error (.unparsable 4 "five" "f64")) := by
    rw [words_spread]
    exact .vars rfl (.inr ⟨("1", 1), _, 1, [], rfl, by rfl, Nat.zero_lt_one,
      ⟨[], _, start, rfl, .nil, rfl, .word lacks⟩⟩)
  rw [ofText, Lexeme.ofText_eq, ofLexemes_eq_error]
  exact .item ⟨[], _, start, rfl, .nil, rfl, fault⟩

/-- Both texts are refused for the same word; the error names the line on which it stands. -/
theorem spread_named :
    ((Word.ofText unspread).map Prod.fst = (Word.ofText spread).map Prod.fst ∧
      Attempt.mapError LoadError.unlined (ofText true unspread) =
        Attempt.mapError LoadError.unlined (ofText true spread)) ∧
    ofText true spread = .error (.error (.unparsable 4 "five" "f64")) ∧
    ∃ before after, Word.ofText spread = before ++ ("five", 4) :: after ∧
      (∀ after', ofLexemes true (ofWords (before ++ ("five", 4) :: after')) =
        .error (.error (.unparsable 4 "five" "f64"))) ∧
      ∀ e', ofLexemes true (ofWords before) = .error (.error e') → e'.place? = none := by
  obtain ⟨-, -, rest⟩ := words_and_lines spread
  obtain ⟨blind, blamed⟩ := rest true
  have same : (Word.ofText unspread).map Prod.fst = (Word.ofText spread).map Prod.fst := by
    rw [words_spread, words_unspread]
    rfl
  exact ⟨⟨same, blind _ same⟩, spread_error, blamed _ _ spread_error rfl⟩

end Milp.Problem
