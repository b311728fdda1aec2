import Milp.Proofs.Problem.Readers
import Milp.Proofs.Problem.Scanning

/-!
# The loader follows the format

A text loads to a problem exactly when its words are sections of the format that the problem made
so far accepts, and is refused for the cause of the first fault otherwise.

* `Reader.readSections_iff` — what the reader of sections makes of words, by induction on its
  rounds; each section takes a word at least, so a round for each word is enough.
* `Grammar.Narrows`, `Format.Loads.unlimited`, `Format.Faulty.unlimited` — a limit on the terms of
  a row takes problems and causes away and gives no new ones.
* `Problem.ofText_exact` — the loader answers what the format with its limit has, and that is what
  the format itself has, unless the loader crashes.
* `Problem.overdrawn_crashes` — a short text that announces too many terms: the loader crashes where
  the format has a missing word.
-/

namespace Milp

namespace Problem.Reader

open Lexeme (ofWords)

/-! ### Sections after one another -/

/-- The word that ends a text is no keyword. -/
theorem ne_end_of_keyword {k : Word} {x : Keyword} (hk : Field.keyword k = .ok x) :
    k.1 ≠ "end" := by
  intro h
  rw [Field.keyword, Field.choice, h] at hk
  cases hk

/-- A section starts with a keyword, which is not the word that ends the text. -/
theorem spelled_eq_cons {limit : Option Nat} {s : TextSection} {u : List Word}
    (h : TextSection.Spelled limit s u) : ∃ k v, u = k :: v ∧ k.1 ≠ "end" := by
  obtain hk | hk | ⟨hk, -⟩ | ⟨hk, -⟩ := h <;> exact ⟨_, _, rfl, ne_end_of_keyword hk⟩

/-- So does what fails to be a section. -/
theorem fault_eq_cons {limit : Option Nat} {p : Problem Float} {ws : List Word}
    {c : Failure LoadError} (h : TextSection.Fault limit p ws c) :
    ∃ k v, ws = k :: v ∧ k.1 ≠ "end" := by
  obtain ⟨-, he⟩ | ⟨hk, -⟩ | ⟨hk, -⟩ | ⟨hk, -⟩ := h
  · exact ⟨_, _, rfl, he⟩
  all_goals exact ⟨_, _, rfl, ne_end_of_keyword hk⟩

/-- Sections at the start of some words: none, or a first one that starts with the first word. -/
theorem spells_cases {limit : Option Nat} {ss : List TextSection} {ws u v : List Word}
    (h : Spells (TextSection.Spelled limit) ss u) (hw : ws = u ++ v) :
    (ss = [] ∧ u = [] ∧ v = ws) ∨ ∃ s ss' k u' u'', k.1 ≠ "end" ∧ ss = s :: ss' ∧
      u = k :: u' ++ u'' ∧ ws = k :: (u' ++ (u'' ++ v)) ∧ TextSection.Spelled limit s (k :: u') ∧
      Spells (TextSection.Spelled limit) ss' u'' := by
  cases h with
  | nil => exact .inl ⟨rfl, rfl, hw.symm⟩
  | @cons s ss u₁ u₂ hs hss =>
    obtain ⟨k, u', rfl, hk⟩ := spelled_eq_cons hs
    exact .inr ⟨s, ss, k, u', u₂, hk, rfl, rfl, by simpa using hw, hs, hss⟩

section

variable {limit : Option Nat} {p q : Problem Float} {k : Word} {ws : List Word}
  {c : Failure LoadError}

/-- Where the text ends, the problem is done. -/
theorem describes_end_iff (he : ∀ w ∈ ws.head?, w.1 = "end") :
    Format.Describes limit p ws q ↔ q = p := by
  constructor
  · rintro ⟨ss, u, v, hw, hs, hq, -⟩
    obtain ⟨rfl, rfl, rfl⟩ | ⟨_, _, k, _, _, hne, -, -, rfl, -⟩ := spells_cases hs hw
    · cases hq
      rfl
    · exact absurd (he k rfl) hne
  · rintro rfl
    exact ⟨[], [], ws, rfl, .nil, rfl, he⟩

/-- At any other word, a section stands before the rest. -/
theorem describes_cons_iff (hk : k.1 ≠ "end") : Format.Describes limit p (k :: ws) q ↔
    ∃ p' u v, ws = u ++ v ∧ (∃ s, TextSection.Spelled limit s (k :: u) ∧
      TextSection.add p s = some p') ∧ Format.Describes limit p' v q := by
  constructor
  · rintro ⟨ss, u, v, hw, hs, hq, hv⟩
    obtain ⟨rfl, rfl, rfl⟩ | ⟨s, ss, k', u', u'', -, rfl, rfl, hw, hs, hss⟩ := spells_cases hs hw
    · exact absurd (hv k rfl) hk
    · obtain ⟨rfl, rfl⟩ := List.cons.inj hw
      obtain ⟨p', hp, hq⟩ := foldlM_cons_eq_some.1 hq
      exact ⟨p', u', u'' ++ v, rfl, ⟨s, hs, hp⟩, ss, u'', v, rfl, hss, hq, hv⟩
  · rintro ⟨p', u, _, rfl, ⟨s, hs, hp⟩, ss, u', v, rfl, hss, hq, hv⟩
    exact ⟨s :: ss, k :: u ++ u', v, by simp, .cons hs hss,
      foldlM_cons_eq_some.2 ⟨p', hp, hq⟩, hv⟩

/-- Where the text ends, nothing is at fault. -/
theorem not_faultAfter_end (he : ∀ w ∈ ws.head?, w.1 = "end") :
    ¬ ∃ ss, (Grammar.sections limit).FaultAfter ss p ws c := by
  rintro ⟨ss, u, v, q, hw, hs, -, hc⟩
  obtain ⟨k, w, rfl, hk⟩ := fault_eq_cons hc
  obtain ⟨rfl, rfl, rfl⟩ | ⟨_, _, k, _, _, hne, -, -, rfl, -⟩ := spells_cases hs hw
  · exact hk (he k rfl)
  · exact hne (he k rfl)

/-- At any other word, the section there is at fault or what follows it. -/
theorem faultAfter_cons_iff : (∃ ss, (Grammar.sections limit).FaultAfter ss p (k :: ws) c) ↔
    TextSection.Fault limit p (k :: ws) c ∨ ∃ p' u v, ws = u ++ v ∧
      (∃ s, TextSection.Spelled limit s (k :: u) ∧ TextSection.add p s = some p') ∧
      ∃ ss, (Grammar.sections limit).FaultAfter ss p' v c := by
  constructor
  · rintro ⟨ss, u, v, q, hw, hs, hq, hc⟩
    obtain ⟨rfl, rfl, rfl⟩ | ⟨s, ss, k', u', u'', -, rfl, rfl, hw, hs, hss⟩ := spells_cases hs hw
    · cases hq
      exact .inl hc
    · obtain ⟨rfl, rfl⟩ := List.cons.inj hw
      obtain ⟨p', hp, hq⟩ := foldlM_cons_eq_some.1 hq
      exact .inr ⟨p', u', u'' ++ v, rfl, ⟨s, hs, hp⟩, ss, u'', v, q, rfl, hss, hq, hc⟩
  · rintro (hc | ⟨p', u, _, rfl, ⟨s, hs, hp⟩, ss, u', v, q, rfl, hss, hq, hc⟩)
    · exact ⟨[], [], k :: ws, p, rfl, .nil, rfl, hc⟩
    · exact ⟨s :: ss, k :: u ++ u', v, q, by simp, .cons hs hss,
        foldlM_cons_eq_some.2 ⟨p', hp, hq⟩, hc⟩

end

/-- Where the text ends, the reader of sections ends. -/
theorem readSections_end {rounds : Nat} (p : Problem Float) {ws : List Word}
    (hr : ws.length ≤ rounds) (he : ∀ w ∈ ws.head?, w.1 = "end") :
    ∃ left, readSections rounds p (ofWords ws) = .ok (p, left) := by
  cases rounds with
  | zero => exact ⟨_, rfl⟩
  | succ rounds =>
    cases ws with
    | nil => exact ⟨_, rfl⟩
    | cons k ws =>
      obtain ⟨k, line⟩ := k
      obtain rfl : k = "end" := he _ rfl
      exact ⟨_, rfl⟩

theorem readSections_iff_of_end {rounds : Nat} {p : Problem Float} {ws : List Word}
    (hr : ws.length ≤ rounds) (he : ∀ w ∈ ws.head?, w.1 = "end") :
    (∀ q, (∃ left, readSections rounds p (ofWords ws) = .ok (q, left)) ↔
      Format.Describes (some termLimit) p ws q) ∧
    ∀ c, readSections rounds p (ofWords ws) = .error c ↔
      ∃ ss, (Grammar.sections (some termLimit)).FaultAfter ss p ws c := by
  obtain ⟨left, hrun⟩ := readSections_end p hr he
  refine ⟨fun q => ?_, fun c => ⟨fun h => ?_, fun h => (not_faultAfter_end he h).elim⟩⟩
  · rw [describes_end_iff he, hrun]
    exact ⟨fun ⟨_, h⟩ => by cases h; rfl, fun h => ⟨left, by rw [h]⟩⟩
  · rw [hrun] at h
    cases h

/-- What follows a word that is there. -/
theorem word?_bind {β : Type} (f : Option Word → Reader β) (w : Word) (ls : List Lexeme) :
    (word? >>= f) (.word w.1 w.2 :: ls) = f (some w) ls := rfl

/-- At any other word, it reads a section and goes on. -/
theorem readSections_cons (rounds : Nat) (p : Problem Float) {k : Word} (hk : k.1 ≠ "end")
    (ls : List Lexeme) : readSections (rounds + 1) p (.word k.1 k.2 :: ls) =
      (readSection k.1 k.2 p >>= readSections rounds) ls := by
  obtain ⟨k, line⟩ := k
  rw [readSections, word?_bind _ (k, line)]
  refine congrFun ?_ ls
  split <;> simp_all

/-- The reader of sections, with a round for each word, succeeds with what the words describe and
fails for the causes of their first fault. -/
theorem readSections_iff {rounds : Nat} {p : Problem Float} {ws : List Word}
    (hr : ws.length ≤ rounds) :
    (∀ q, (∃ left, readSections rounds p (ofWords ws) = .ok (q, left)) ↔
      Format.Describes (some termLimit) p ws q) ∧
    ∀ c, readSections rounds p (ofWords ws) = .error c ↔
      ∃ ss, (Grammar.sections (some termLimit)).FaultAfter ss p ws c := by
  -- on the rounds; a section takes its keyword at least, so one round fewer is enough for the rest
  induction rounds generalizing p ws with
  | zero =>
    obtain rfl := List.length_eq_zero_iff.1 (Nat.le_zero.1 hr)
    exact readSections_iff_of_end hr (by simp)
  | succ rounds ih =>
    by_cases he : ∀ w ∈ ws.head?, w.1 = "end"
    · exact readSections_iff_of_end hr he
    · obtain _ | ⟨k, ws⟩ := ws
      · simp at he
      have hk : k.1 ≠ "end" := by simpa using he
      have hlen {u v : List Word} (hw : ws = u ++ v) : v.length ≤ rounds := by
        subst hw
        simp at hr
        omega
      have first := takes_readSection k hk p
      have run := readSections_cons rounds p hk (ofWords ws)
      rw [show ofWords (k :: ws) = .word k.1 k.2 :: ofWords ws from rfl, run]
      refine ⟨fun q => ?_, fun c => ?_⟩
      · rw [describes_cons_iff hk]
        constructor
        · rintro ⟨left, h⟩
          obtain ⟨⟨p', mid⟩, hp, hq⟩ := bind_eq_ok.1 h
          obtain ⟨u, v, hw, hs, rfl⟩ := first.ok_iff.1 hp
          exact ⟨p', u, v, hw, hs, ((ih (hlen hw)).1 q).1 ⟨left, hq⟩⟩
        · rintro ⟨p', u, v, hw, hs, hq⟩
          obtain ⟨left, hq⟩ := ((ih (hlen hw)).1 q).2 hq
          exact ⟨left, bind_eq_ok.2 ⟨(p', ofWords v), first.ok_iff.2 ⟨u, v, hw, hs, rfl⟩, hq⟩⟩
      · rw [faultAfter_cons_iff, bind_eq_error, first.error_iff]
        refine or_congr_right ⟨?_, ?_⟩
        · rintro ⟨⟨p', mid⟩, hp, hc⟩
          obtain ⟨u, v, hw, hs, rfl⟩ := first.ok_iff.1 hp
          exact ⟨p', u, v, hw, hs, ((ih (hlen hw)).2 c).1 hc⟩
        · rintro ⟨p', u, v, hw, hs, hc⟩
          exact ⟨(p', ofWords v), first.ok_iff.2 ⟨u, v, hw, hs, rfl⟩, ((ih (hlen hw)).2 c).2 hc⟩

end Problem.Reader

/-! ### The limit on the terms of a row -/

/-- What spells items spells them under a weaker condition. -/
theorem Spells.mono {ε : Type} {spelled spelled' : ε → List Word → Prop}
    (h : ∀ {e ws}, spelled e ws → spelled' e ws) {es : List ε} {ws : List Word}
    (hes : Spells spelled es ws) : Spells spelled' es ws := by
  induction hes with
  | nil => exact .nil
  | cons he _ ih => exact .cons (h he) ih

namespace Grammar

variable {ε : Type} {g g' : Grammar ε} {p : Problem Float} {ws : List Word} {e : LoadError}

/-- One grammar has no more items and no more errors than another. It may have crashes of its
own. -/
structure Narrows (g g' : Grammar ε) : Prop where
  spelled : ∀ {e ws}, g.Spelled e ws → g'.Spelled e ws
  add : g.add = g'.add
  fault : ∀ {p ws e}, g.Fault p ws (.error e) → g'.Fault p ws (.error e)

theorem Narrows.faultAfter (h : g.Narrows g') {es : List ε}
    (hc : g.FaultAfter es p ws (.error e)) : g'.FaultAfter es p ws (.error e) := by
  obtain ⟨u, v, q, hw, hes, hq, hc⟩ := hc
  exact ⟨u, v, q, hw, hes.mono h.spelled, h.add ▸ hq, h.fault hc⟩

theorem Narrows.counted (h : g.Narrows g') : g.counted.Narrows g'.counted where
  spelled := fun ⟨n, v, hw, hn, hes⟩ => ⟨n, v, hw, hn, hes.mono h.spelled⟩
  add := by simp only [Grammar.counted, h.add]
  fault := by
    rintro p ws e (hc | ⟨n, v, m, es, hw, hn, hlt, hc⟩)
    · exact .inl hc
    · exact .inr ⟨n, v, m, es, hw, hn, hlt, h.faultAfter hc⟩

variable (limit : Option Nat)

theorem withinLimit_none (n : Nat) : WithinLimit none n := fun _ h => nomatch h

/-- A limit gives no new rows and no new errors of rows. -/
theorem rows_narrows : (rows limit).Narrows (rows none) where
  spelled := by
    rintro _ _ ⟨head, -, terms, length⟩
    exact .words head (withinLimit_none _) terms length
  add := rfl
  fault := by
    rintro p ws e (hc | _ | ⟨head, -, terms, resolved, fewer, lacks⟩ |
      ⟨⟨head, -, terms, length⟩, h⟩)
    · exact .head hc
    · exact .term head (withinLimit_none _) terms resolved fewer lacks
    · exact .refused (.words head (withinLimit_none _) terms length) h

/-- Nor does it of sections. -/
theorem sections_narrows : (sections limit).Narrows (sections none) where
  spelled := by
    rintro _ _ (hk | hk | ⟨hk, list⟩ | ⟨hk, list⟩)
    · exact .title hk
    · exact .direction hk
    · exact .vars hk list
    · exact .rows hk ((rows_narrows limit).counted.spelled list)
  add := rfl
  fault := by
    rintro p ws e (⟨hk, he⟩ | ⟨hk, hc⟩ | ⟨hk, hc⟩ | ⟨hk, hc⟩)
    · exact .keyword hk he
    · exact .title hk hc
    · exact .vars hk hc
    · exact .rows hk ((rows_narrows limit).counted.fault hc)

end Grammar

namespace Format

variable {limit : Option Nat} {allowEmpty : Bool} {ws : List Word} {p q : Problem Float}

theorem Describes.unlimited (h : Describes limit p ws q) : Describes none p ws q := by
  obtain ⟨ss, u, v, hw, hss, hq, hv⟩ := h
  exact ⟨ss, u, v, hw, hss.mono (Grammar.sections_narrows limit).spelled, hq, hv⟩

/-- What loads under a limit loads without one. -/
theorem Loads.unlimited (h : Loads limit allowEmpty ws p) : Loads none allowEmpty ws p :=
  ⟨h.1.unlimited, h.2⟩

/-- An error under a limit is one without it. -/
theorem Faulty.unlimited {e : LoadError} (h : Faulty limit allowEmpty ws (.error e)) :
    Faulty none allowEmpty ws (.error e) := by
  obtain hc | ⟨hd, ha, hp⟩ := h
  · exact .item ((Grammar.sections_narrows limit).faultAfter hc)
  · exact .empty hd.unlimited ha hp

end Format

/-! ### Texts -/

namespace Problem

open Format Lexeme

variable {allowEmpty : Bool} {ws : List Word}

/-- What the loader makes of the sections it has read. -/
theorem ofLexemes_eq (allowEmpty : Bool) (ws : List Word) : ofLexemes allowEmpty (ofWords ws) =
    match readSections ws.length start (ofWords ws) with
    | .ok (p, _) =>
      if allowEmpty = true ∨ p.vars ≠ #[] then .ok p else .error (.error .noVariables)
    | .error c => .error c := by
  rw [← length_ofWords]
  show (readSections (ofWords ws).length start (ofWords ws)).bind _ = _
  cases readSections (ofWords ws).length start (ofWords ws) with
  | error c => rfl
  | ok y => cases allowEmpty <;> by_cases hp : y.1.vars = #[] <;> simp [Except.bind, hp] <;> rfl

/-- The loader finds the problem that the words load to. -/
theorem ofLexemes_eq_ok {q : Problem Float} : ofLexemes allowEmpty (ofWords ws) = .ok q ↔
    Loads (some termLimit) allowEmpty ws q := by
  rw [Loads, ← (Reader.readSections_iff (Nat.le_refl ws.length)).1, ofLexemes_eq]
  constructor
  · intro h
    split at h
    · next p left hrun =>
      split at h <;> cases h
      exact ⟨⟨left, hrun⟩, ‹_›⟩
    · cases h
  · rintro ⟨⟨left, hrun⟩, hq⟩
    simp only [hrun, if_pos hq]

/-- The loader fails for the cause that the words have. -/
theorem ofLexemes_eq_error {c : Failure LoadError} :
    ofLexemes allowEmpty (ofWords ws) = .error c ↔ Faulty (some termLimit) allowEmpty ws c := by
  obtain ⟨hok, herr⟩ := Reader.readSections_iff (p := start) (Nat.le_refl ws.length)
  rw [ofLexemes_eq]
  constructor
  · intro h
    split at h
    · next p left hrun =>
      split at h
      · cases h
      · next hempty =>
        cases h
        obtain ⟨ha, hp⟩ := not_or.1 hempty
        exact .empty ((hok p).1 ⟨left, hrun⟩) (Bool.eq_false_iff.2 ha) (Decidable.not_not.1 hp)
    · next c' hrun =>
      cases h
      obtain ⟨ss, hss⟩ := (herr c).1 hrun
      exact .item hss
  · rintro (hc | ⟨hd, ha, hp⟩)
    · simp only [(herr c).2 ⟨_, hc⟩]
    · obtain ⟨left, hrun⟩ := (hok _).2 hd
      simp [hrun, ha, hp]

/-- A text loads to the problem that its words describe and is refused for the cause of their first
fault, under the limit that the reader of rows has. Problem and error are those of the format
without a limit: the limit shows only where the loader crashes. -/
theorem ofText_exact (allowEmpty : Bool) (text : String) :
    (∀ p, ofText allowEmpty text = .ok p ↔
      Loads (some termLimit) allowEmpty (Word.ofText text) p) ∧
    (∀ c, ofText allowEmpty text = .error c ↔
      Faulty (some termLimit) allowEmpty (Word.ofText text) c) ∧
    (∀ p, ofText allowEmpty text = .ok p → Loads none allowEmpty (Word.ofText text) p) ∧
    ∀ e, ofText allowEmpty text = .error (.error e) →
      Faulty none allowEmpty (Word.ofText text) (.error e) := by
  rw [ofText, Lexeme.ofText_eq]
  exact ⟨fun p => ofLexemes_eq_ok, fun c => ofLexemes_eq_error,
    fun p h => (ofLexemes_eq_ok.1 h).unlimited, fun e h => (ofLexemes_eq_error.1 h).unlimited⟩

/-- A text with no more than a title, and one that ends where a variable should be. -/
theorem short_texts_answered :
    (ofText true "problem bare" = .ok { name := "bare" } ∧
      Loads none true (Word.ofText "problem bare") { name := "bare" }) ∧
    ofText true "variables 1" = .error (.error .unexpectedEnd) ∧
      Faulty none true (Word.ofText "variables 1") (.error .unexpectedEnd) := by
  obtain ⟨loads, -, unlimited, -⟩ := ofText_exact true "problem bare"
  obtain ⟨-, faulty, -, cause⟩ := ofText_exact true "variables 1"
  have bare : Word.ofText "problem bare" = [("problem", 1), ("bare", 1)] := by decide +kernel
  have title : TextSection.Spelled (some termLimit) (.title "bare") [("problem", 1), ("bare", 1)] :=
    .title (n := ("bare", 1)) rfl
  have hbare : ofText true "problem bare" = .ok { name := "bare" } :=
    (loads _).2 ⟨⟨_, _, [], bare, .cons title .nil, rfl, by simp⟩, .inl rfl⟩
  have short : Word.ofText "variables 1" = [("variables", 1), ("1", 1)] := by decide +kernel
  have missing : TextSection.Fault (some termLimit) start [("variables", 1), ("1", 1)]
      (.error .unexpectedEnd) :=
    .vars rfl (.inr ⟨("1", 1), [], 1, [], rfl, by rfl, Nat.zero_lt_one,
      ⟨[], [], start, rfl, .nil, rfl, .word .missing⟩⟩)
  have hshort : ofText true "variables 1" = .error (.error .unexpectedEnd) :=
    (faulty _).2 (.item ⟨[], _, start, short, .nil, rfl, missing⟩)
  exact ⟨⟨hbare, unlimited _ hbare⟩, hshort, cause _ hshort⟩

/-- A text with a row that announces one term more than it may, and has none. -/
def overdrawn : String := "constraints 1 c le 1 576460752303423488"

/-- The words of that row. -/
def overdrawnRow : List Word := [("c", 1), ("le", 1), ("1", 1), ("576460752303423488", 1)]

theorem words_overdrawn :
    Word.ofText overdrawn = ("constraints", 1) :: ("1", 1) :: overdrawnRow := by
  decide +kernel

theorem faulty_overdrawn {limit : Option Nat} {c : Failure LoadError}
    (h : NamedRow.Fault limit start overdrawnRow c) :
    Faulty limit false (Word.ofText overdrawn) c := by
  rw [words_overdrawn]
  have list : (Grammar.rows limit).FaultAfter [] start overdrawnRow c :=
    ⟨[], overdrawnRow, start, rfl, .nil, rfl, h⟩
  have rows : TextSection.Fault limit start (("constraints", 1) :: ("1", 1) :: overdrawnRow) c :=
    .rows rfl (.inr ⟨("1", 1), overdrawnRow, 1, [], rfl, by rfl, Nat.zero_lt_one, list⟩)
  exact .item ⟨[], _, start, rfl, .nil, rfl, rows⟩

/-- In the format this text lacks a word; the loader crashes before it looks for that. -/
theorem overdrawn_crashes :
    Faulty none false (Word.ofText overdrawn) (.error .unexpectedEnd) ∧
      ofText false overdrawn = .error (.crash (.message "capacity overflow")) := by
  obtain ⟨rhs, hrhs⟩ : ∃ x, Number.read? "1" = some x :=
    Option.isSome_iff_exists.1 (by decide +kernel)
  have head : RowHead.Spelled ⟨"c", .lessEqual, rhs, 576460752303423488⟩ overdrawnRow :=
    .words (n := ("c", 1)) rfl (by rw [Field.number, Field.value, hrhs]; rfl) (by rfl)
  constructor
  · have fewer : 0 < 576460752303423488 := by decide
    have none_read : Spells NamedTerm.Spelled [] [] := .nil
    exact faulty_overdrawn
      (.term head (Grammar.withinLimit_none _) none_read rfl fewer .missing)
  · rw [ofText, Lexeme.ofText_eq, ofLexemes_eq_error]
    exact faulty_overdrawn (.beyondLimit head (by simp [Reader.withinLimit_some, termLimit]))

end Problem
end Milp
