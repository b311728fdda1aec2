import Milp.Proofs.Problem.Lines

/-!
# Counts that texts do not keep

A text may announce any number of variables, rows and terms. This file says what the loader makes of
bytes that announce more than they hold, and that it crashes only where a row announces more terms
than it could ever hold.

* `Format.Behind`, `Format.BehindRows` — what is left of the words where the loader stands.
* `Reader.Leads` — where a reader stands behind words it takes; `leads_sections`, `leads_entries`.
* `Format.Overdrawn` — a row announces more terms than it may; `faulty_crash_iff`.
* `Problem.ofBytes_bounded` — what becomes of any bytes.
* `Problem.boundless_crashes` — a text whose row announces the most terms that can be said.
-/

namespace Milp

open Lexeme (ofWords)

/-! ### Where the loader stands -/

namespace Format

/-- Behind sections that are accepted and make `p`, these words are left. -/
def Behind (ws : List Word) (p : Problem Float) (left : List Word) : Prop :=
  ∃ ss u, ws = u ++ left ∧ Spells (TextSection.Spelled (some Problem.termLimit)) ss u ∧
    ss.foldlM TextSection.add start = some p

/-- In a section of rows that announces more of them, behind some that are accepted and make `q`, these
words are left. -/
def BehindRows (ws : List Word) (q : Problem Float) (left : List Word) : Prop :=
  ∃ p k n m rs u, Behind ws p (k :: n :: (u ++ left)) ∧ Field.keyword k = .ok .rows ∧
    Field.count n = .ok m ∧ rs.length < m ∧
    Spells (NamedRow.Spelled (some Problem.termLimit)) rs u ∧ rs.foldlM Problem.withRow? p = some q

/-- A row announces more terms than it may. -/
def Overdrawn (ws : List Word) : Prop :=
  ∃ q h u v, BehindRows ws q (u ++ v) ∧ RowHead.Spelled h u ∧ Problem.termLimit < h.length

end Format

/-! ### Lengths -/

/-- Items take words. -/
theorem Spells.length_le {ε : Type} {spelled : ε → List Word → Prop} {size : Nat}
    (least : ∀ {e u}, spelled e u → size ≤ u.length) {es : List ε} {u : List Word}
    (h : Spells spelled es u) : size * es.length ≤ u.length := by
  induction h with
  | nil => exact Nat.le_refl 0
  | cons head _ ih =>
    have first := least head
    simp only [List.length_cons, List.length_append, Nat.mul_succ]
    omega

theorem Variable.Spelled.length_le {v : Variable Float} {u : List Word} (h : v.Spelled u) :
    5 ≤ u.length := by
  cases h
  exact Nat.le_refl 5

theorem NamedTerm.Spelled.length_le {t : NamedTerm} {u : List Word} (h : NamedTerm.Spelled t u) :
    2 ≤ u.length := by
  cases h
  exact Nat.le_refl 2

theorem NamedRow.Spelled.length_le {limit : Option Nat} {r : NamedRow} {u : List Word}
    (h : r.Spelled limit u) : 4 ≤ u.length := by
  obtain ⟨⟨⟩, -, -, -⟩ := h
  simp

/-! ### Crashes -/

theorem Lacks.not_crash {fs : List (Field Unit)} {ws : List Word} {x : Crash} :
    ¬ Lacks fs ws (.crash x) := by
  intro h
  generalize hc : Failure.crash x = c at h
  induction h with
  | missing => cases hc
  | wrong => cases hc
  | later _ _ ih => exact ih hc

theorem Variable.Fault.not_crash {p : Problem Float} {ws : List Word} {x : Crash} :
    ¬ Variable.Fault p ws (.crash x) := by
  intro h
  cases h with
  | word h => exact h.not_crash

namespace Format

open Problem (termLimit)
open Problem.Reader (withinLimit_some)

/-- The format has a crash exactly where a row announces more terms than it may. -/
theorem faulty_crash_iff {allowEmpty : Bool} {ws : List Word} {x : Crash} :
    Faulty (some termLimit) allowEmpty ws (.crash x) ↔
      x = .message "capacity overflow" ∧ Overdrawn ws := by
  constructor
  · intro h
    obtain @⟨ss, _, u, left, p, rfl, hss, hp, fault⟩ := h
    have behind : Behind (u ++ left) p left := ⟨ss, u, rfl, hss, hp⟩
    cases fault with
    | title _ h => exact absurd h Lacks.not_crash
    | vars _ h =>
      obtain h | ⟨_, _, _, _, _, _, _, _, _, _, _, _, _, h⟩ := h
      · exact absurd h Lacks.not_crash
      · exact absurd h Variable.Fault.not_crash
    | rows hk h =>
      obtain h | ⟨n, _, m, rs, rfl, hn, fewer, v, w, q, rfl, hrs, hq, fault⟩ := h
      · exact absurd h Lacks.not_crash
      have behind : BehindRows _ q w := ⟨p, _, n, m, rs, v, behind, hk, hn, fewer, hrs, hq⟩
      cases fault with
      | head h => exact absurd h Lacks.not_crash
      | @beyondLimit h u v head beyond =>
        refine ⟨rfl, q, h, u, v, behind, head, ?_⟩
        exact Nat.lt_of_not_le fun within => beyond (withinLimit_some.2 (Nat.not_lt.2 within))
      | term _ _ _ _ _ h => exact absurd h Lacks.not_crash
  · rintro ⟨rfl, q, h, u, v, ⟨p, k, n, m, rs, w, ⟨ss, w', rfl, hss, hp⟩, hk, hn, fewer, hrs, hq⟩,
      head, beyond⟩
    have row : NamedRow.Fault (some termLimit) q (u ++ v) (.crash (.message "capacity overflow")) :=
      .beyondLimit head fun within => withinLimit_some.1 within beyond
    exact .item ⟨w', _, p, rfl, hss, hp,
      .rows hk (.inr ⟨n, _, m, rs, rfl, hn, fewer, w, _, q, rfl, hrs, hq, row⟩)⟩

end Format

namespace Problem.Reader

variable {β γ : Type}

/-! ### Where a reader stands behind words -/

/-- Behind the words, one reader goes on as another. -/
def Leads (r : Reader β) (u : List Word) (r' : Reader β) : Prop :=
  ∀ tail, r (ofWords u ++ tail) = r' tail

variable {r r' r'' : Reader β} {k : β → Reader γ} {b : β} {u v ws : List Word} {p q : Problem Float}

theorem Leads.trans (h : Leads r u r') (h' : Leads r' v r'') : Leads r (u ++ v) r'' := by
  intro tail
  rw [Lexeme.ofWords_append, List.append_assoc, h, h']

theorem Leads.bind (h : Leads r u r') : Leads (r >>= k) u (r' >>= k) := by
  intro tail
  show (r (ofWords u ++ tail)).bind (fun y => k y.1 y.2) = _
  rw [h]
  rfl

theorem Settles.leads (h : Settles r u (.ok b)) : Leads (r >>= k) u (k b) :=
  fun tail => bind_of_ok (h tail)

theorem settles_field {f : Field β} {w : Word} (h : f w = .ok b) : Settles (field f) [w] (.ok b) := by
  intro tail
  show field f (.word w.1 w.2 :: tail) = _
  rw [field_cons, h]
  rfl

/-- Where a reader takes words as the format says, they settle its result. -/
theorem Takes.settles {S : β → List Word → Prop} {F : List Word → Failure LoadError → Prop}
    (h : Takes r S F) (plain : Plain r) (hu : S b u) : Settles r u (.ok b) :=
  plain.settles (v := []) (h.ok_iff.2 ⟨u, [], rfl, hu, rfl⟩)

/-- What words settle is what the format says of them. -/
theorem Takes.of_settles_ok {S : β → List Word → Prop} {F : List Word → Failure LoadError → Prop}
    (h : Takes r S F) (settles : Settles r u (.ok b)) : S b u := by
  have result := settles []
  rw [List.append_nil] at result
  obtain ⟨u', v', rfl, hu, left⟩ := h.ok_iff.1 result
  obtain rfl : v' = [] := List.map_eq_nil_iff.1 left.symm
  rwa [List.append_nil]

theorem Takes.of_settles_error {S : β → List Word → Prop}
    {F : List Word → Failure LoadError → Prop} (h : Takes r S F) {c : Failure LoadError}
    (settles : Settles r u (.error c)) : F u c := by
  have result := settles []
  rw [List.append_nil] at result
  exact h.error_iff.1 result

/-- Behind accepted items, a reader of items has as many fewer to read. -/
theorem leads_entries {ε : Type} {g : Grammar ε} {r : Problem Float → Reader (Problem Float)}
    (follows : Follows r g) (plain : ∀ p, Plain (r p)) {es : List ε} (m : Nat)
    (spelled : Spells g.Spelled es u) (accepted : es.foldlM g.add p = some q) :
    Leads (readEntries r (es.length + m) p) u (readEntries r m q) := by
  induction spelled generalizing p with
  | nil =>
    obtain rfl : p = q := by simpa using accepted
    intro tail
    rw [List.length_nil, Nat.zero_add]
    rfl
  | @cons e es u v head _ ih =>
    obtain ⟨p', hp, hq⟩ := foldlM_cons_eq_some.1 accepted
    have first : Settles (r p) u (.ok p') := (follows p).settles (plain p) ⟨e, head, hp⟩
    rw [List.length_cons, Nat.add_right_comm]
    exact first.leads.trans (ih hq)

/-- Behind a section, the reader of sections goes on with the problem that this makes. -/
theorem leads_section {s : TextSection} (spelled : TextSection.Spelled (some termLimit) s u)
    (accepted : TextSection.add p s = some q) : Leads (sections p) u (sections q) := by
  obtain ⟨k, u, rfl, hk⟩ := spelled_eq_cons spelled
  have entry : sectionEntry p (ofWords (k :: u ++ [])) = .ok (q, ofWords []) := by
    rw [List.append_nil]
    exact (sectionEntry_eq p k _).trans
      ((takes_readSection k hk p).ok_iff.2 ⟨u, [], by simp, ⟨s, spelled, accepted⟩, rfl⟩)
  intro tail
  have next := sections_append hk ((Plain.sectionEntry p).settles entry) [] tail
  rwa [List.append_nil] at next

/-- Behind accepted sections, it goes on with the problem that they make. -/
theorem leads_sections {ss : List TextSection}
    (spelled : Spells (TextSection.Spelled (some termLimit)) ss u)
    (accepted : ss.foldlM TextSection.add p = some q) : Leads (sections p) u (sections q) := by
  induction spelled generalizing p with
  | nil =>
    obtain rfl : p = q := by simpa using accepted
    exact fun tail => rfl
  | cons head _ ih =>
    obtain ⟨p', hp, hq⟩ := foldlM_cons_eq_some.1 accepted
    exact (leads_section head hp).trans (ih hq)

/-- Behind a keyword that calls for a list and the number of its items, these are read. -/
theorem leads_list {k n : Word} {key : Keyword} {m : Nat}
    {r : Problem Float → Reader (Problem Float)} (hk : Field.keyword k = .ok key)
    (hn : Field.count n = .ok m)
    (list : sectionRest p key = field Field.count >>= fun n => readEntries r n p) :
    Leads (sections p) [k, n] (readEntries r m p >>= sections) := by
  intro tail
  have keyword : Leads (sectionEntry p >>= sections) [k] (sectionRest p key >>= sections) :=
    (settles_field hk).leads.bind
  have count : Leads (sectionRest p key >>= sections) [n] (readEntries r m p >>= sections) := by
    rw [list]
    exact (settles_field hn).leads.bind
  exact (sections_cons (ne_end_of_keyword hk) _).trans (keyword.trans count tail)

/-- Behind the head of a row, its terms are read. -/
theorem leads_row {h : RowHead} (head : h.Spelled u) (within : h.length ≤ termLimit) :
    Leads (readConstraint p) u (readTerms p h.length >>= fun ts =>
      settle ((·.2) <$> p.addConstraint h.name ts h.sense h.rhs)) := by
  rw [readConstraint_eq]
  have row : Settles rowHead u (.ok h) := takes_rowHead.settles Plain.rowHead head
  have next := row.leads (k := fun h : RowHead =>
    if h.length > termLimit then fun _ => .error (.crash (.message "capacity overflow"))
    else readTerms p h.length >>= fun ts =>
      settle ((·.2) <$> p.addConstraint h.name ts h.sense h.rhs))
  rwa [if_neg (Nat.not_lt.2 within)] at next

/-- Where a reader stands behind words it takes and cannot succeed with what is left, the words run
out, or some of them settle a cause for which it fails. -/
theorem runsOut_or_settles {r : Reader β} {k : β → Reader (Problem Float)}
    (leads : Leads (sections p) u (r >>= k)) (plain : Plain r)
    (short : ∀ v₁ v₂ b, v = v₁ ++ v₂ → ¬ Settles r v₁ (.ok b)) :
    RunsOut (sections p) (u ++ v) ∨ ∃ v₁ v₂ c, v = v₁ ++ v₂ ∧ Settles r v₁ (.error c) ∧
      Settles (sections p) (u ++ v₁) (.error c) := by
  have behind (v : List Word) (tail : List Lexeme) :
      sections p (ofWords (u ++ v) ++ tail) = (r >>= k) (ofWords v ++ tail) := by
    rw [Lexeme.ofWords_append, List.append_assoc, leads]
  obtain out | ⟨v₁, v₂, x, split, settles, -, -⟩ := plain.outcome v
  · exact .inl fun tail c hc => (behind v tail).trans (bind_of_error (out tail c hc))
  · cases x with
    | ok b => exact absurd settles (short v₁ v₂ b split)
    | error c => exact .inr ⟨v₁, v₂, c, split, settles,
        fun tail => (behind v₁ tail).trans (bind_of_error (settles tail))⟩

/-! ### Announced numbers -/

/-- Behind the keyword and the number of a list that is longer than what is left, the words run out,
or some of them settle a cause for which an item is at fault. -/
theorem list_short {ε : Type} {g : Grammar ε} {r : Problem Float → Reader (Problem Float)}
    {k n : Word} {key : Keyword} {m size : Nat} (follows : Follows r g) (plain : ∀ p, Plain (r p))
    (least : ∀ {e u}, g.Spelled e u → size ≤ u.length) (behind : Format.Behind ws p (k :: n :: v))
    (hk : Field.keyword k = .ok key) (hn : Field.count n = .ok m)
    (list : sectionRest p key = field Field.count >>= fun n => readEntries r n p)
    (short : v.length < size * m) :
    RunsOut (sections Format.start) ws ∨ ∃ u v c, ws = u ++ v ∧
      Settles (sections Format.start) u (.error c) ∧ ∃ es w, g.FaultAfter es p w c := by
  obtain ⟨ss, u, rfl, spelled, accepted⟩ := behind
  have leads := (leads_sections spelled accepted).trans (leads_list hk hn list)
  have entries := follows.entries m p
  obtain out | ⟨v₁, v₂, c, rfl, fails, settles⟩ := runsOut_or_settles (v := v) leads
    (Plain.readEntries plain m p) (by
      rintro v₁ v₂ q rfl settles
      obtain ⟨es, rfl, spelled, -⟩ := entries.of_settles_ok settles
      have enough := spelled.length_le least
      rw [List.length_append] at short
      omega)
  · exact .inl (by simpa using out)
  · obtain ⟨es, -, fault⟩ := entries.of_settles_error fails
    exact .inr ⟨_, v₂, c, by simp, settles, es, _, fault⟩

/-- Behind the head of a row that is longer than what is left, the words run out, or some of them
settle a cause for which a term is at fault. -/
theorem row_short {h : RowHead} (behind : Format.BehindRows ws q (u ++ v)) (head : h.Spelled u)
    (within : h.length ≤ termLimit) (short : v.length < 2 * h.length) :
    RunsOut (sections Format.start) ws ∨ ∃ u v e, ws = u ++ v ∧
      Settles (sections Format.start) u (.error (.error e)) := by
  obtain ⟨p, k, n, m, rs, w, ⟨ss, w', rfl, spelled, accepted⟩, hk, hn, fewer, hrs, hq⟩ := behind
  obtain ⟨left, rfl⟩ := Nat.exists_eq_add_of_lt fewer
  have list := (leads_sections spelled accepted).trans
    (leads_list (r := readConstraint) hk hn rfl)
  have rows : Leads (readEntries readConstraint (rs.length + left + 1) p) w
      (readEntries readConstraint (left + 1) q) :=
    leads_entries readConstraint_follows Plain.readConstraint (left + 1) hrs hq
  have row : Leads (readEntries readConstraint (left + 1) q) u _ :=
    (leads_row head within).bind
  have leads := list.trans ((rows.trans row).bind)
  simp only [bind_assoc] at leads
  have terms := takes_readTerms q h.length
  obtain out | ⟨v₁, v₂, c, rfl, fails, settles⟩ := runsOut_or_settles (v := v) leads
    (Plain.readTerms q h.length) (by
      rintro v₁ v₂ ts rfl settles
      obtain ⟨named, length, spelled, -⟩ := terms.of_settles_ok settles
      have enough := spelled.length_le NamedTerm.Spelled.length_le
      rw [List.length_append] at short
      omega)
  · exact .inl (by simpa using out)
  · obtain ⟨_, _, _, _, -, -, -, -, lacks⟩ := terms.of_settles_error fails
    cases c with
    | error e => exact .inr ⟨_, v₂, e, by simp, settles⟩
    | crash x => exact absurd lacks Lacks.not_crash

end Problem.Reader

namespace Problem

open Format Reader

variable {allowEmpty : Bool} {bytes : ByteArray} {c : Failure LoadError}

/-! ### Bytes -/

/-- What there is to say where the words of some bytes run out. -/
def ending (bytes : ByteArray) : LoadError :=
  if areText (linesOf (· == 10) bytes.data.toList) then .unexpectedEnd else .notText

/-- The bytes are refused, either because their words run out or for a cause that some first words
have whatever follows them. -/
def Refused (allowEmpty : Bool) (bytes : ByteArray) (c : Failure LoadError) : Prop :=
  ofBytes allowEmpty bytes = .error c ∧ (c = .error (ending bytes) ∨
    ∃ u v, Word.ofBytes bytes = u ++ v ∧
      ∀ bytes' v', Word.ofBytes bytes' = u ++ v' → ofBytes allowEmpty bytes' = .error c)

/-- The lexemes of some bytes are their words and no word behind them. -/
theorem lexemes_eq (bytes : ByteArray) : ∃ tail,
    Lexeme.ofBytes bytes = ofWords (Word.ofBytes bytes) ++ tail ∧
    word tail = .error (.error (ending bytes)) := by
  refine ⟨_, Lexeme.ofBytes_eq bytes, ?_⟩
  rw [Lexeme.markOf, ending]
  split <;> rfl

theorem refused_of_runsOut (h : RunsOut (sections start) (Word.ofBytes bytes)) :
    Refused allowEmpty bytes (.error (ending bytes)) := by
  obtain ⟨tail, lexemes, mark⟩ := lexemes_eq bytes
  refine ⟨?_, .inl rfl⟩
  rw [ofBytes, lexemes]
  exact ofLexemes_of_error (h tail _ mark)

theorem refused_of_settles {u v : List Word} (split : Word.ofBytes bytes = u ++ v)
    (h : Settles (sections start) u (.error c)) : Refused allowEmpty bytes c := by
  have refused (bytes' : ByteArray) (v' : List Word) (split : Word.ofBytes bytes' = u ++ v') :
      ofBytes allowEmpty bytes' = .error c := by
    obtain ⟨tail, lexemes, -⟩ := lexemes_eq bytes'
    rw [ofBytes, lexemes, split, Lexeme.ofWords_append, List.append_assoc]
    exact ofLexemes_of_error (h _)
  exact ⟨refused bytes v split, .inr ⟨u, v, split, refused⟩⟩

/-- Words that wait for more crash nothing. -/
theorem not_crash_of_waits {ws : List Word} {tail : List Lexeme} {e : LoadError} {x : Crash}
    (waits : Waits start ws) (mark : word tail = .error (.error e)) :
    ofLexemes allowEmpty (ofWords ws ++ tail) ≠ .error (.crash x) := by
  intro crash
  obtain out | ⟨q, last, broken⟩ := waits
  · rw [ofLexemes_of_error (out tail _ mark)] at crash
    cases crash
  · rcases tail with _ | ⟨⟨text, line⟩ | cause, tail⟩
    · rw [List.append_nil, ofLexemes_of_ok last] at crash
      cases eq_of_finished_eq_error crash
    · cases mark
    · cases mark
      rw [ofLexemes_of_error (broken _ tail)] at crash
      cases crash

/-- What is behind the words decides over no crash. -/
theorem crash_iff_crash {ws : List Word} {tail : List Lexeme} {e : LoadError} {x : Crash}
    (mark : word tail = .error (.error e)) :
    ofLexemes allowEmpty (ofWords ws ++ tail) = .error (.crash x) ↔
      ofLexemes allowEmpty (ofWords ws) = .error (.crash x) := by
  obtain waits | ⟨u, v, y, rfl, settles, -, -⟩ := sections_outcome start ws
  · have quiet : ofLexemes allowEmpty (ofWords ws ++ []) ≠ .error (.crash x) :=
      not_crash_of_waits waits rfl
    rw [List.append_nil] at quiet
    exact iff_of_false (not_crash_of_waits waits mark) quiet
  · rw [Lexeme.ofWords_append, List.append_assoc]
    cases y with
    | ok q => rw [ofLexemes_of_ok (settles _), ofLexemes_of_ok (settles _)]
    | error c => rw [ofLexemes_of_error (settles _), ofLexemes_of_error (settles _)]

/-- Bytes crash the loader exactly if a row announces more terms than it may. -/
theorem ofBytes_crash_iff {x : Crash} : ofBytes allowEmpty bytes = .error (.crash x) ↔
    x = .message "capacity overflow" ∧ Overdrawn (Word.ofBytes bytes) := by
  obtain ⟨tail, lexemes, mark⟩ := lexemes_eq bytes
  rw [ofBytes, lexemes, crash_iff_crash mark, ofLexemes_eq_error, faulty_crash_iff]

/-- What becomes of any bytes. -/
theorem ofBytes_bounded (bytes : ByteArray) (allowEmpty : Bool) :
    (∀ x, ofBytes allowEmpty bytes = .error (.crash x) ↔
      x = .message "capacity overflow" ∧ Overdrawn (Word.ofBytes bytes)) ∧
    (∀ p k n left m, Behind (Word.ofBytes bytes) p (k :: n :: left) →
      Field.keyword k = .ok .vars → Field.count n = .ok m → left.length < 5 * m →
      ∃ e, Refused allowEmpty bytes (.error e)) ∧
    (∀ p k n left m, Behind (Word.ofBytes bytes) p (k :: n :: left) →
      Field.keyword k = .ok .rows → Field.count n = .ok m → left.length < 4 * m →
      ∃ c, Refused allowEmpty bytes c) ∧
    (∀ q h u left, BehindRows (Word.ofBytes bytes) q (u ++ left) → RowHead.Spelled h u →
      h.length ≤ termLimit → left.length < 2 * h.length →
      ∃ e, Refused allowEmpty bytes (.error e)) ∧
    (∀ rounds, bytes.size + 1 ≤ rounds →
      (Scanner.ofBytes bytes).lexemes rounds = Lexeme.ofBytes bytes) ∧
    ∀ rounds, (Lexeme.ofBytes bytes).length ≤ rounds →
      readSections rounds start (Lexeme.ofBytes bytes) =
        readSections (Lexeme.ofBytes bytes).length start (Lexeme.ofBytes bytes) := by
  refine ⟨fun x => ofBytes_crash_iff, ?_, ?_, ?_, ?_, fun rounds => readSections_eq_sections⟩
  · intro p k n left m behind hk hn short
    obtain out | ⟨u, v, c, split, settles, es, w, fault⟩ := list_short readVariable_follows
      Plain.readVariable Variable.Spelled.length_le behind hk hn rfl short
    · exact ⟨_, refused_of_runsOut out⟩
    · cases c with
      | error e => exact ⟨e, refused_of_settles split settles⟩
      | crash x =>
        obtain ⟨_, _, _, -, -, -, fault⟩ := fault
        exact absurd fault Variable.Fault.not_crash
  · intro p k n left m behind hk hn short
    obtain out | ⟨u, v, c, split, settles, -⟩ := list_short readConstraint_follows
      Plain.readConstraint NamedRow.Spelled.length_le behind hk hn rfl short
    · exact ⟨_, refused_of_runsOut out⟩
    · exact ⟨c, refused_of_settles split settles⟩
  · intro q h u left behind head within short
    obtain out | ⟨u, v, e, split, settles⟩ := row_short behind head within short
    · exact ⟨_, refused_of_runsOut out⟩
    · exact ⟨e, refused_of_settles split settles⟩
  · intro rounds enough
    exact (Lexeme.lexemes_ofBytes enough).trans (Lexeme.ofBytes_eq bytes).symm

/-- At its first word, a text is behind no sections. -/
theorem behind_start {text : String} {ws : List Word} (words : Word.ofText text = ws) :
    Behind (Word.ofBytes text.toUTF8) start ws :=
  ⟨[], [], (Word.ofBytes_toUTF8 text).trans words, .nil, rfl⟩

/-- A text that announces a second variable. -/
def oneOfTwo : String := "variables 2 x integer 1 0 1"

/-- The words of its first one. -/
def oneVariable : List Word := [("x", 1), ("integer", 1), ("1", 1), ("0", 1), ("1", 1)]

/-- A text that announces as many rows as can be said. -/
def noRows : String := "constraints 18446744073709551615"

/-- A text with a row that announces as many terms as it may. -/
def noTerms : String := "constraints 1 c le 1 576460752303423487"

/-- The words of that row. -/
def noTermsRow : List Word := [("c", 1), ("le", 1), ("1", 1), ("576460752303423487", 1)]

/-- None of these texts keeps what it announces, and each of them is refused. -/
theorem short_lists_refused :
    (Behind (Word.ofBytes oneOfTwo.toUTF8) start (("variables", 1) :: ("2", 1) :: oneVariable) ∧
      oneVariable.length < 5 * 2 ∧ ∃ e, Refused true oneOfTwo.toUTF8 (.error e)) ∧
    (Behind (Word.ofBytes noRows.toUTF8) start [("constraints", 1), ("18446744073709551615", 1)] ∧
      ∃ c, Refused true noRows.toUTF8 c) ∧
    (∃ h, BehindRows (Word.ofBytes noTerms.toUTF8) start (noTermsRow ++ []) ∧
      RowHead.Spelled h noTermsRow ∧ h.length = termLimit) ∧
      ∃ e, Refused true noTerms.toUTF8 (.error e) := by
  obtain ⟨-, vars, -⟩ := ofBytes_bounded oneOfTwo.toUTF8 true
  obtain ⟨-, -, rows, -⟩ := ofBytes_bounded noRows.toUTF8 true
  obtain ⟨-, -, -, terms, -⟩ := ofBytes_bounded noTerms.toUTF8 true
  have atVars : Behind (Word.ofBytes oneOfTwo.toUTF8) start
      (("variables", 1) :: ("2", 1) :: oneVariable) := behind_start (by decide +kernel)
  have atRows : Behind (Word.ofBytes noRows.toUTF8) start
      [("constraints", 1), ("18446744073709551615", 1)] := behind_start (by decide +kernel)
  have atList : Behind (Word.ofBytes noTerms.toUTF8) start
      (("constraints", 1) :: ("1", 1) :: noTermsRow) := behind_start (by decide +kernel)
  have atTerms : BehindRows (Word.ofBytes noTerms.toUTF8) start (noTermsRow ++ []) :=
    ⟨start, _, _, 1, [], [], atList, rfl, by rfl, Nat.zero_lt_one, .nil, rfl⟩
  obtain ⟨h, head, length⟩ : ∃ h, RowHead.Spelled h noTermsRow ∧ h.length = termLimit := by
    obtain ⟨rhs, hrhs⟩ : ∃ x, Number.read? "1" = some x :=
      Option.isSome_iff_exists.1 (by decide +kernel)
    exact ⟨⟨"c", .lessEqual, rhs, termLimit⟩,
      .words (n := ("c", 1)) rfl (by rw [Field.number, Field.value, hrhs]; rfl) (by rfl), rfl⟩
  have short : oneVariable.length < 5 * 2 := by decide
  have shortRow : 0 < 2 * h.length := by
    rw [length]
    decide
  exact ⟨⟨atVars, short, vars _ _ _ _ _ atVars rfl (by rfl) short⟩,
    ⟨atRows, rows _ _ _ _ 18446744073709551615 atRows rfl (by rfl) (by decide)⟩,
    ⟨h, atTerms, head, length⟩, terms _ h _ [] atTerms head (Nat.le_of_eq length) shortRow⟩

/-- A text whose row announces as many terms as can be said. -/
def boundless : String := "problem wide\nmaximize\nconstraints 2\n wide ge 0 18446744073709551615\n"

/-- The words of that row. -/
def boundlessRow : List Word := [("wide", 4), ("ge", 4), ("0", 4), ("18446744073709551615", 4)]

theorem words_boundless : Word.ofText boundless = [("problem", 1), ("wide", 1)] ++
    ([("maximize", 2)] ++ ("constraints", 3) :: ("2", 3) :: boundlessRow) := by
  decide +kernel

/-- The loader crashes at that row. -/
theorem boundless_crashes :
    ofBytes true boundless.toUTF8 = .error (.crash (.message "capacity overflow")) ∧
      ofBytes false boundless.toUTF8 = .error (.crash (.message "capacity overflow")) := by
  obtain ⟨rhs, hrhs⟩ : ∃ x, Number.read? "0" = some x :=
    Option.isSome_iff_exists.1 (by decide +kernel)
  have head : RowHead.Spelled ⟨"wide", .greaterEqual, rhs, 18446744073709551615⟩ boundlessRow :=
    .words (n := ("wide", 4)) rfl (by rw [Field.number, Field.value, hrhs]; rfl) (by rfl)
  have title : TextSection.Spelled (some termLimit) (.title "wide") [("problem", 1), ("wide", 1)] :=
    .title (n := ("wide", 1)) rfl
  have direction : TextSection.Spelled (some termLimit) (.direction .maximize)
      [("maximize", 2)] :=
    .direction rfl
  have behind : Behind (Word.ofBytes boundless.toUTF8)
      { name := "wide", sense := .maximize } (("constraints", 3) :: ("2", 3) :: boundlessRow) := by
    rw [Word.ofBytes_toUTF8, words_boundless, ← List.append_assoc]
    exact ⟨_, _, rfl, .cons title (.cons direction .nil), rfl⟩
  have row : BehindRows (Word.ofBytes boundless.toUTF8) _ (boundlessRow ++ []) :=
    ⟨_, _, _, 2, [], [], behind, rfl, by rfl, Nat.zero_lt_two, .nil, rfl⟩
  have beyond : termLimit < 18446744073709551615 := by decide
  have overdrawn : Overdrawn (Word.ofBytes boundless.toUTF8) := ⟨_, _, _, [], row, head, beyond⟩
  exact ⟨ofBytes_crash_iff.2 ⟨rfl, overdrawn⟩, ofBytes_crash_iff.2 ⟨rfl, overdrawn⟩⟩

end Problem
end Milp
