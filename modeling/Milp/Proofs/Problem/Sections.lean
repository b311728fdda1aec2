import Milp.Proofs.Problem.Loading
import Milp.Proofs.Problem.Plain

/-!
# Sections until the end

The reader of sections goes round as often as there are words; this file frees it from the rounds and
says what settles its result.

* `Reader.sections` — the reader of sections with a round for each word; more change nothing
  (`readSections_eq_sections`).
* `Reader.sections_cons` — it reads a section and goes on behind that.
* `Reader.sections_outcome` — the words run out, or end where a section may begin, or the first few
  settle the result.
* `Reader.sections_blind` — lines matter for nothing but the lines of errors.
-/

namespace Milp.Problem.Reader

open Lexeme (ofWords)

variable {p : Problem Float} {k : Word} {ls : List Lexeme} {ws : List Word}

/-- Reads sections up to `end` or the last word. -/
def sections (p : Problem Float) : Reader (Problem Float) := fun ls => readSections ls.length p ls

/-- At any word but `end`, a section is read, and sections behind it. -/
theorem readSections_word (rounds : Nat) (p : Problem Float) (hk : k.1 ≠ "end")
    (ls : List Lexeme) : readSections (rounds + 1) p (.word k.1 k.2 :: ls) =
      (sectionEntry p >>= readSections rounds) (.word k.1 k.2 :: ls) := by
  rw [readSections_cons rounds p hk]
  show _ = (sectionEntry p (.word k.1 k.2 :: ls)).bind fun y => readSections rounds y.1 y.2
  rw [sectionEntry_eq]
  rfl

/-- A section takes its keyword at least. -/
theorem length_le_of_sectionEntry {q : Problem Float} {left : List Lexeme}
    (h : sectionEntry p (.word k.1 k.2 :: ls) = .ok (q, left)) : left.length ≤ ls.length := by
  obtain ⟨⟨key, mid⟩, first, rest⟩ := bind_eq_ok.1 h
  have taken : mid = ls := by
    rw [field_cons] at first
    cases hk : Field.keyword k <;> rw [hk] at first <;> cases first
    rfl
  exact taken ▸ ((Plain.sectionRest p key).suffix rest).length_le

/-- Rounds beyond the number of words change nothing. -/
theorem readSections_eq_sections {rounds : Nat} (h : ls.length ≤ rounds) :
    readSections rounds p ls = sections p ls := by
  suffices ∀ rounds', ls.length ≤ rounds' → readSections rounds p ls = readSections rounds' p ls from
    this _ (Nat.le_refl _)
  intro rounds' h'
  induction rounds generalizing rounds' p ls with
  | zero =>
    obtain rfl := List.length_eq_zero_iff.1 (Nat.le_zero.1 h)
    cases rounds' <;> rfl
  | succ rounds ih =>
    rcases ls with _ | ⟨⟨text, line⟩ | cause, ls⟩
    · cases rounds' <;> rfl
    · obtain ⟨rounds', rfl⟩ := Nat.exists_eq_add_one.mpr (Nat.zero_lt_of_lt h')
      by_cases hk : text = "end"
      · subst hk
        rfl
      · rw [readSections_word (k := (text, line)) _ _ hk, readSections_word (k := (text, line)) _ _ hk]
        cases hr : sectionEntry p (.word text line :: ls) with
        | error c => rw [bind_of_error hr, bind_of_error hr]
        | ok y =>
          have taken := length_le_of_sectionEntry (k := (text, line)) hr
          rw [bind_of_ok (b := y.1) hr, bind_of_ok (b := y.1) hr]
          exact ih (taken.trans (Nat.le_of_succ_le_succ h)) _
            (taken.trans (Nat.le_of_succ_le_succ h'))
    · obtain ⟨rounds', rfl⟩ := Nat.exists_eq_add_one.mpr (Nat.zero_lt_of_lt h')
      rfl

/-- At any word but `end`, a section is read, and sections behind it. -/
theorem sections_cons (hk : k.1 ≠ "end") (ls : List Lexeme) :
    sections p (.word k.1 k.2 :: ls) = (sectionEntry p >>= sections) (.word k.1 k.2 :: ls) := by
  rw [sections, List.length_cons, readSections_word _ _ hk]
  cases hr : sectionEntry p (.word k.1 k.2 :: ls) with
  | error c => rw [bind_of_error hr, bind_of_error hr]
  | ok y =>
    rw [bind_of_ok (b := y.1) hr, bind_of_ok (b := y.1) hr]
    exact readSections_eq_sections (length_le_of_sectionEntry hr)

/-! ### What settles the result -/

/-- The words end where a section may begin: then the problem is done, unless reading fails there. -/
def Ends (p : Problem Float) (ws : List Word) : Prop :=
  ∃ q, sections p (ofWords ws) = .ok (q, []) ∧
    ∀ c tail, sections p (ofWords ws ++ .broken c :: tail) = .error c

/-- Nothing of the words settles the result. -/
def Waits (p : Problem Float) (ws : List Word) : Prop := RunsOut (sections p) ws ∨ Ends p ws

/-- No words end where a section may begin. -/
theorem ends_nil (p : Problem Float) : Ends p [] := ⟨p, rfl, fun _ _ => rfl⟩

/-- What a section and those behind it make of words is made by the reader of sections. -/
theorem settles_sections {q : Attempt LoadError (Problem Float)} (hk : k.1 ≠ "end")
    (h : Settles (sectionEntry p >>= sections) (k :: ws) q) : Settles (sections p) (k :: ws) q :=
  fun tail => (sections_cons hk _).trans (h tail)

theorem runsOut_sections (hk : k.1 ≠ "end") (h : RunsOut (sectionEntry p) (k :: ws)) :
    RunsOut (sections p) (k :: ws) :=
  fun tail c hc => (sections_cons hk _).trans (h.bind tail c hc)

/-- Behind a section, it is for the sections there to go on. -/
theorem sections_append {q : Problem Float} (hk : k.1 ≠ "end")
    (h : Settles (sectionEntry p) (k :: ws) (.ok q)) (v : List Word) (tail : List Lexeme) :
    sections p (ofWords (k :: ws ++ v) ++ tail) = sections q (ofWords v ++ tail) :=
  (sections_cons hk _).trans (h.bind_eq v tail)

theorem waits_append {q : Problem Float} {v : List Word} (hk : k.1 ≠ "end")
    (h : Settles (sectionEntry p) (k :: ws) (.ok q)) (hv : Waits q v) : Waits p (k :: ws ++ v) := by
  obtain out | ⟨done, last, broken⟩ := hv
  · exact .inl fun tail c hc => (sections_append hk h v tail).trans (out tail c hc)
  · refine .inr ⟨done, ?_, fun c tail => (sections_append hk h v _).trans (broken c tail)⟩
    have same := sections_append hk h v []
    rw [List.append_nil, List.append_nil] at same
    exact same.trans last

/-- The words wait for more, or the first few settle the result. -/
theorem sections_outcome (p : Problem Float) (ws : List Word) :
    Waits p ws ∨ SettledBy (sections p) (Waits p) ws := by
  -- on the number of words; a section takes its keyword at least
  induction n : ws.length using Nat.strong_induction_on generalizing p ws with
  | _ size ih =>
    cases ws with
    | nil => exact .inl (.inr (ends_nil p))
    | cons k ws =>
      by_cases hk : k.1 = "end"
      · obtain ⟨k, line⟩ := k
        obtain rfl : k = "end" := hk
        refine .inr ⟨[("end", line)], ws, .ok p, rfl, fun tail => rfl, ?_, fun _ h => nomatch h⟩
        intro v w v' split
        obtain rfl : v = [] := by
          cases v with
          | nil => rfl
          | cons a v => simp at split
        exact .inr (ends_nil p)
      · have first := (Plain.sectionEntry p).outcome (k :: ws)
        have nothing : RunsOut (sectionEntry p) [] := fun tail c hc => bind_of_error (bind_of_error hc)
        obtain out | ⟨u, v, x, split, settles, before, blames⟩ := first
        · exact .inl (.inl (runsOut_sections hk out))
        obtain ⟨u, rfl⟩ : ∃ u', u = k :: u' := by
          cases u with
          | nil => exact absurd settles nothing.not_settles
          | cons a u => exact ⟨u, by rw [(List.cons.inj split).1]⟩
        have before : Before (Waits p) (k :: u) := by
          intro a w a' split
          cases a with
          | nil => exact .inr (ends_nil p)
          | cons d a =>
            obtain ⟨rfl, -⟩ := List.cons.inj split
            exact .inl (runsOut_sections hk (before _ w a' split))
        cases x with
        | error c =>
          exact .inr ⟨k :: u, v, .error c, split, settles_sections hk settles.bind_error, before,
            fun c' h => by cases h; exact blames c rfl⟩
        | ok q =>
          have shorter : v.length < size := by
            have length := congrArg List.length split
            simp only [List.length_append, List.length_cons] at length n
            omega
          obtain waits | settled := ih _ shorter q v rfl
          · exact .inl (split ▸ waits_append hk settles waits)
          · obtain ⟨v, v', x, rfl, settles', before', blames'⟩ := settled
            refine .inr ⟨k :: u ++ v, v', x, by rw [split, List.append_assoc],
              fun tail => (sections_append hk settles v tail).trans (settles' tail),
              before.append (before'.mono fun a => waits_append hk settles), fun c hc => ?_⟩
            exact (blames' c hc).append (k :: u)

/-! ### Lines -/

/-- Lines matter for nothing but the lines of errors. -/
theorem sections_blind {ls ls' : List Lexeme} (same : ls.map unline = ls'.map unline) :
    unlinedResult (sections p ls) = unlinedResult (sections p ls') := by
  induction n : ls.length using Nat.strong_induction_on generalizing p ls ls' with
  | _ size ih =>
    rcases ls with _ | ⟨⟨text, line⟩ | cause, ls⟩ <;>
      rcases ls' with _ | ⟨⟨text', line'⟩ | cause', ls'⟩ <;>
      simp only [List.map_nil, List.map_cons, unline, List.cons.injEq, Lexeme.word.injEq,
        Lexeme.broken.injEq, reduceCtorEq, and_true, false_and] at same
    · rfl
    · obtain ⟨rfl, same⟩ := same
      by_cases hk : text = "end"
      · subst hk
        exact congrArg (fun left => Except.ok (p, left)) same
      · have first : unlinedResult (sectionEntry p (.word text line :: ls)) =
            unlinedResult (sectionEntry p (.word text line' :: ls')) :=
          (Plain.sectionEntry p).blind (congrArg (Lexeme.word text 0 :: ·) same)
        rw [sections_cons (k := (text, line)) hk, sections_cons (k := (text, line')) hk]
        refine unlinedResult_bind first fun q left left' taken rest => ih _ ?_ rest rfl
        have taken := length_le_of_sectionEntry (k := (text, line)) taken
        rw [List.length_cons] at n
        omega
    · obtain ⟨rfl, -⟩ := same
      rfl

end Milp.Problem.Reader

namespace Milp.Problem

open Lexeme (ofWords)
open Format (start)
open Reader

variable {allowEmpty : Bool} {ws u v : List Word} {c : Failure LoadError} {tail : List Lexeme}

/-! ### Whole texts -/

/-- A problem that was read, if it has a variable or need not have one. -/
def finished (allowEmpty : Bool) (p : Problem Float) : Attempt LoadError (Problem Float) :=
  if !allowEmpty && p.vars.isEmpty then Attempt.fail .noVariables else pure p

/-- The loader reads sections and looks at what it has got. -/
theorem ofLexemes_eq_sections (allowEmpty : Bool) (ls : List Lexeme) :
    ofLexemes allowEmpty ls = (sections start ls).bind fun y => finished allowEmpty y.1 := rfl

theorem ofLexemes_of_error {ls : List Lexeme} (h : sections start ls = .error c) :
    ofLexemes allowEmpty ls = .error c := by
  rw [ofLexemes_eq_sections, h]
  rfl

theorem ofLexemes_of_ok {ls left : List Lexeme} {p : Problem Float}
    (h : sections start ls = .ok (p, left)) : ofLexemes allowEmpty ls = finished allowEmpty p := by
  rw [ofLexemes_eq_sections, h]
  rfl

/-- All that can be wrong with a problem that was read is that it has no variables. -/
theorem eq_of_finished_eq_error {p : Problem Float} (h : finished allowEmpty p = .error c) :
    c = .error .noVariables := by
  unfold finished at h
  split at h <;> cases h
  rfl

theorem mapError_unlined {β : Type} (c : Failure LoadError) :
    Attempt.mapError LoadError.unlined (.error c : Attempt LoadError β) =
      .error (unlinedCause c) := by
  cases c <;> rfl

/-- Lines matter to the loader for nothing but the lines of errors. -/
theorem ofLexemes_blind {ls ls' : List Lexeme} (same : ls.map unline = ls'.map unline) :
    Attempt.mapError LoadError.unlined (ofLexemes allowEmpty ls) =
      Attempt.mapError LoadError.unlined (ofLexemes allowEmpty ls') := by
  have alike := sections_blind (p := start) same
  cases hr : sections start ls with
  | error c =>
    cases hr' : sections start ls' with
    | error c' =>
      rw [hr, hr'] at alike
      rw [ofLexemes_of_error hr, ofLexemes_of_error hr', mapError_unlined, mapError_unlined]
      exact congrArg Except.error (Except.error.inj alike)
    | ok y =>
      rw [hr, hr'] at alike
      cases alike
  | ok y =>
    cases hr' : sections start ls' with
    | error c' =>
      rw [hr, hr'] at alike
      cases alike
    | ok y' =>
      rw [hr, hr'] at alike
      have eq : y.1 = y'.1 := (Prod.mk.inj (Except.ok.inj alike)).1
      rw [ofLexemes_of_ok (p := y.1) hr, ofLexemes_of_ok (p := y'.1) hr', eq]

/-- Words that wait for more are refused for no word among them. -/
theorem place?_eq_none_of_waits {e : LoadError} (waits : Waits start ws)
    (h : ofLexemes allowEmpty (ofWords ws) = .error (.error e)) : e.place? = none := by
  obtain out | ⟨q, last, -⟩ := waits
  · have failed := out [] _ rfl
    rw [List.append_nil] at failed
    rw [ofLexemes_of_error failed] at h
    cases h
    rfl
  · rw [ofLexemes_of_ok last] at h
    obtain rfl : e = .noVariables := by simpa using eq_of_finished_eq_error h
    rfl

end Milp.Problem
