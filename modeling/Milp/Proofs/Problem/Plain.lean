import Milp.Proofs.Problem.Readers

/-!
# How far readers look

A reader looks at no word but those it takes and one that it refuses. So what it makes of some words
is settled by the first few of them, or the words run out on it.

* `LoadError.place?` — the word that an error is about; `LoadError.unlined` — the error but for its
  line.
* `Reader.Plain` — the readers that are put together from fields; those of variables, rows and
  sections are.
* `Plain.outcome` — the words run out, or the first few settle what becomes of any words that start
  with them; an error that is about a word is about the last of these.
* `Plain.blind` — lines matter for nothing but the lines of errors.
-/

namespace Milp

/-! ### Errors and words -/

namespace LoadError

/-- The word that an error is about, with its line. -/
def place? : LoadError → Option Word
  | .unparsable line word _ => some (word, line)
  | .unexpectedWord line word _ => some (word, line)
  | .unknownVariable line name => some (name, line)
  | _ => none

/-- The error with no line. -/
def unlined : LoadError → LoadError
  | .unparsable _ word type => .unparsable 0 word type
  | .unexpectedWord _ word expected => .unexpectedWord 0 word expected
  | .unknownVariable _ name => .unknownVariable 0 name
  | e => e

end LoadError

/-- A field is about its word: it blames no other, and the line does not matter to it. -/
structure Field.Honest {β : Type} (f : Field β) : Prop where
  place : ∀ {w e}, f w = .error e → e.place? = some w
  line : ∀ text line line',
    (f (text, line)).mapError LoadError.unlined = (f (text, line')).mapError LoadError.unlined

namespace Field

variable {β : Type}

theorem name_honest : Honest name where
  place := fun h => nomatch h
  line := fun _ _ _ => rfl

theorem value_honest (parse : String → Option β) (type : String) : Honest (value parse type) where
  place := by
    intro w e h
    unfold value at h
    cases hp : parse w.1 <;> rw [hp] at h <;> cases h
    rfl
  line := by
    intro text line line'
    simp only [value]
    cases parse text <;> rfl

theorem choice_honest (select : String → Option β) (expected : String) :
    Honest (choice select expected) where
  place := by
    intro w e h
    unfold choice at h
    cases hs : select w.1 <;> rw [hs] at h <;> cases h
    rfl
  line := by
    intro text line line'
    simp only [choice]
    cases select text <;> rfl

theorem declared_honest (p : Problem Float) : Honest (declared p) where
  place := by
    intro w e h
    unfold declared at h
    cases hv : p.find? w.1 <;> rw [hv] at h <;> cases h
    rfl
  line := by
    intro text line line'
    simp only [declared]
    cases p.find? text <;> rfl

end Field

namespace Problem.Reader

open Lexeme (ofWords)

variable {β γ : Type}

/-! ### Plain readers -/

/-- The readers that are put together from fields. Where such a reader stops without a word, it
blames none. -/
inductive Plain : {β : Type} → Reader β → Prop
  | pure {β : Type} (b : β) : Plain (Pure.pure b : Reader β)
  | stop {β : Type} {c : Failure LoadError} (h : ∀ e, c = .error e → e.place? = none) :
      Plain (fun _ => .error c : Reader β)
  | field {β : Type} {f : Field β} (h : f.Honest) : Plain (field f)
  | bind {β γ : Type} {r : Reader β} {k : β → Reader γ} (hr : Plain r) (hk : ∀ b, Plain (k b)) :
      Plain (r >>= k)

namespace Plain

theorem kind : Plain (Reader.field Field.kind) := .field (Field.choice_honest _ _)

theorem sense : Plain (Reader.field Field.sense) := .field (Field.choice_honest _ _)

theorem number : Plain (Reader.field Field.number) := .field (Field.value_honest _ _)

theorem count : Plain (Reader.field Field.count) := .field (Field.value_honest _ _)

theorem name : Plain (Reader.field Field.name) := .field Field.name_honest

theorem variableEntry : Plain variableEntry :=
  name.bind fun _ => kind.bind fun _ => number.bind fun _ => number.bind fun _ =>
    number.bind fun _ => .pure _

theorem settle (x : Except (ProblemError Float) (Problem Float)) : Plain (settle x) := by
  cases x with
  | ok p => exact .pure p
  | error e => exact .stop fun _ h => by cases h; rfl

theorem readVariable (p : Problem Float) : Plain (readVariable p) := by
  rw [readVariable_eq]
  exact variableEntry.bind fun v => settle _

theorem rowHead : Plain rowHead :=
  name.bind fun _ => sense.bind fun _ => number.bind fun _ => count.bind fun _ => .pure _

theorem readTerms (p : Problem Float) (n : Nat) : Plain (readTerms p n) := by
  induction n with
  | zero => exact .pure []
  | succ n ih =>
    have term : Plain (readTerm p) :=
      (field (Field.declared_honest p)).bind fun _ => number.bind fun _ => .pure _
    rw [readTerms_succ]
    exact term.bind fun t => ih.bind fun ts => .pure _

theorem readConstraint (p : Problem Float) : Plain (readConstraint p) := by
  rw [readConstraint_eq]
  refine rowHead.bind fun h => ?_
  split
  · exact .stop fun _ h => nomatch h
  · exact (readTerms p _).bind fun ts => settle _

theorem readEntries {r : Problem Float → Reader (Problem Float)} (h : ∀ p, Plain (r p)) (n : Nat)
    (p : Problem Float) : Plain (readEntries r n p) := by
  induction n generalizing p with
  | zero => exact .pure p
  | succ n ih => exact (h p).bind fun q => ih q

end Plain

/-- Reads a section behind its keyword. -/
def sectionRest (p : Problem Float) : Keyword → Reader (Problem Float)
  | .title => field Field.name >>= fun name => pure { p with name }
  | .direction sense => pure { p with sense }
  | .vars => field Field.count >>= fun n => readEntries readVariable n p
  | .rows => field Field.count >>= fun n => readEntries readConstraint n p

/-- Reads a section with its keyword. -/
def sectionEntry (p : Problem Float) : Reader (Problem Float) :=
  field Field.keyword >>= sectionRest p

/-- What a field makes of the first word. -/
theorem field_cons (f : Field β) (w : Word) (ls : List Lexeme) :
    field f (.word w.1 w.2 :: ls) = match f w with
      | .ok b => .ok (b, ls)
      | .error e => .error (.error e) := by
  show (match f w with | .ok b => Pure.pure b | .error e => fail e : Reader β) ls = _
  cases f w <;> rfl

/-- A section is read as its keyword and what follows that. -/
theorem sectionEntry_eq (p : Problem Float) (k : Word) (ls : List Lexeme) :
    sectionEntry p (.word k.1 k.2 :: ls) = readSection k.1 k.2 p ls := by
  show (field Field.keyword (.word k.1 k.2 :: ls)).bind (fun y => sectionRest p y.1 y.2) = _
  rw [field_cons, readSection_eq]
  simp only [Reader.count, value_eq]
  cases Field.keyword k with
  | error e => rfl
  | ok key => cases key <;> rfl

theorem Plain.sectionRest (p : Problem Float) (key : Keyword) : Plain (sectionRest p key) := by
  cases key with
  | title => exact name.bind fun _ => .pure _
  | direction sense => exact .pure _
  | vars => exact count.bind fun n => readEntries readVariable n p
  | rows => exact count.bind fun n => readEntries readConstraint n p

theorem Plain.sectionEntry (p : Problem Float) : Plain (sectionEntry p) :=
  Plain.bind (.field (Field.choice_honest _ _)) (sectionRest p)

/-! ### The words that settle a result -/

/-- The words run out on the reader: where there should be one more, it fails for what there is. -/
def RunsOut (r : Reader β) (ws : List Word) : Prop :=
  ∀ tail c, word tail = .error c → r (ofWords ws ++ tail) = .error c

/-- With these words in front, a reader comes to a result whatever follows them, and leaves that. -/
def Settles (r : Reader β) (u : List Word) (x : Attempt LoadError β) : Prop :=
  ∀ tail, r (ofWords u ++ tail) = x.map (·, tail)

/-- The words before any of these. -/
def Before (waits : List Word → Prop) (u : List Word) : Prop :=
  ∀ v w v', u = v ++ w :: v' → waits v

/-- If an error is about a word, it is about the last of these. -/
def Blames (u : List Word) (c : Failure LoadError) : Prop :=
  ∀ e, c = .error e → ∀ w ∈ e.place?, u.getLast? = some w

/-- The first words settle the result, fewer do not, and an error that is about a word is about the
last of them. -/
inductive SettledBy (r : Reader β) (waits : List Word → Prop) (ws : List Word) : Prop
  | by (u v : List Word) (x : Attempt LoadError β) (split : ws = u ++ v) (settles : Settles r u x)
      (before : Before waits u) (blames : ∀ c, x = .error c → Blames u c)

variable {r : Reader β} {k : β → Reader γ} {u v ws : List Word} {b : β} {c : Failure LoadError}

theorem bind_of_ok {ls left : List Lexeme} (h : r ls = .ok (b, left)) :
    (r >>= k) ls = k b left := by
  show (r ls).bind (fun y => k y.1 y.2) = _
  rw [h]
  rfl

theorem bind_of_error {ls : List Lexeme} (h : r ls = .error c) : (r >>= k) ls = .error c := by
  show (r ls).bind (fun y => k y.1 y.2) = _
  rw [h]
  rfl

theorem RunsOut.bind (h : RunsOut r ws) : RunsOut (r >>= k) ws :=
  fun tail c hc => bind_of_error (h tail c hc)

/-- Behind words that settle a first reading, it is for the second one to go on. -/
theorem Settles.bind_eq (h : Settles r u (.ok b)) (v : List Word) (tail : List Lexeme) :
    (r >>= k) (ofWords (u ++ v) ++ tail) = k b (ofWords v ++ tail) := by
  rw [Lexeme.ofWords_append, List.append_assoc]
  exact bind_of_ok (h _)

theorem Settles.bind_error (h : Settles r u (.error c)) : Settles (r >>= k) u (.error c) :=
  fun tail => bind_of_error (h tail)

theorem Settles.bind_settles {x : Attempt LoadError γ} (h : Settles r u (.ok b))
    (hk : Settles (k b) v x) : Settles (r >>= k) (u ++ v) x := by
  intro tail
  rw [h.bind_eq, hk]

/-- If something is the case before some words and behind these before some more, it is before all of
them. -/
theorem Before.append {waits : List Word → Prop} (hu : Before waits u)
    (hv : Before (fun v => waits (u ++ v)) v) : Before waits (u ++ v) := by
  intro a w a' split
  obtain ⟨d, rfl, rest⟩ | ⟨d, rfl, rest⟩ := List.append_eq_append_iff.mp split
  · exact hv d w a' rest
  · cases d with
    | nil => simpa using hv [] w a' rest.symm
    | cons w' d =>
      obtain ⟨rfl, -⟩ := List.cons.inj rest
      exact hu a w d rfl

theorem Before.mono {waits waits' : List Word → Prop} (h : Before waits u)
    (imp : ∀ v, waits v → waits' v) : Before waits' u :=
  fun v w v' split => imp v (h v w v' split)

theorem Blames.append (u : List Word) (h : Blames v c) : Blames (u ++ v) c := by
  intro e he w hw
  rw [List.getLast?_append, h e he w hw]
  rfl

/-- Words that run out settle nothing. -/
theorem RunsOut.not_settles {x : Attempt LoadError β} (h : RunsOut r ws) : ¬ Settles r ws x := by
  intro settles
  have silent := (settles [.broken (.crash .silent)]).symm.trans (h _ _ rfl)
  have missing := (settles []).symm.trans (h _ _ rfl)
  cases x with
  | ok b => cases silent
  | error c =>
    cases silent
    cases missing

/-- Two readings in a row are settled by what settles the first and what settles the second behind
that. -/
theorem SettledBy.bind {waits waits' : List Word → Prop} (split : ws = u ++ v)
    (h : Settles r u (.ok b)) (first : Before waits' u) (hk : SettledBy (k b) waits v)
    (later : ∀ v, waits v → waits' (u ++ v)) : SettledBy (r >>= k) waits' ws := by
  obtain ⟨v, w, x, rfl, settles, before, blames⟩ := hk
  exact ⟨u ++ v, w, x, by rw [split, List.append_assoc], h.bind_settles settles,
    first.append (before.mono later), fun c hc => (blames c hc).append u⟩

/-- On a plain reader the words run out, or the first few settle the result. -/
theorem Plain.outcome {r : Reader β} (h : Plain r) (ws : List Word) :
    RunsOut r ws ∨ SettledBy r (RunsOut r) ws := by
  -- on the way in which the reader is put together
  induction h generalizing ws with
  | pure b =>
    exact .inr ⟨[], ws, .ok b, rfl, fun _ => rfl, fun v _ _ h => by simp at h, fun _ h => nomatch h⟩
  | @stop _ c h =>
    refine .inr ⟨[], ws, .error c, rfl, fun _ => rfl, fun v _ _ h => by simp at h, ?_⟩
    rintro _ ⟨⟩ e rfl w hw
    rw [h e rfl] at hw
    cases hw
  | @field _ f h =>
    have out : RunsOut (Reader.field f) [] := fun tail c hc => bind_of_error hc
    cases ws with
    | nil => exact .inl out
    | cons w ws =>
      refine .inr ⟨[w], ws, (f w).mapError .error, rfl, fun tail => ?_, ?_, ?_⟩
      · show Reader.field f (.word w.1 w.2 :: tail) = _
        rw [field_cons]
        cases f w <;> rfl
      · rintro v w' v' split
        obtain rfl : v = [] := by
          cases v with
          | nil => rfl
          | cons a v => simp at split
        exact out
      · rintro _ hc e rfl w' hw
        have failed : f w = .error e := by
          cases hf : f w <;> rw [hf] at hc <;> cases hc
          rfl
        rw [h.place failed] at hw
        exact hw
  | @bind β γ r k _ _ ihr ihk =>
    obtain out | ⟨u, v, x, split, settles, before, blames⟩ := ihr ws
    · exact .inl out.bind
    cases x with
    | error c =>
      exact .inr ⟨u, v, .error c, split, settles.bind_error, before.mono fun _ => RunsOut.bind,
        fun c' hc => by cases hc; exact blames c rfl⟩
    | ok b =>
      have later (v : List Word) (out : RunsOut (k b) v) : RunsOut (r >>= k) (u ++ v) := by
        intro tail c hc
        rw [settles.bind_eq, out tail c hc]
      obtain out | settled := ihk b v
      · exact .inl (split ▸ later v out)
      · exact .inr (.bind split settles (before.mono fun _ => RunsOut.bind) settled later)

/-! ### What is behind the words that are taken -/

/-- A plain reader leaves the end of what it is given. -/
theorem Plain.suffix {r : Reader β} (h : Plain r) {ls left : List Lexeme} {b : β}
    (hb : r ls = .ok (b, left)) : left <:+ ls := by
  induction h generalizing ls left with
  | pure b =>
    cases hb
    exact List.suffix_refl ls
  | stop => cases hb
  | @field _ f h =>
    rcases ls with _ | ⟨⟨text, line⟩ | cause, ls⟩
    · cases hb
    · rw [field_cons f (text, line)] at hb
      cases hf : f (text, line) <;> rw [hf] at hb <;> cases hb
      exact List.suffix_cons _ _
    · cases hb
  | bind hr hk ihr ihk =>
    obtain ⟨⟨b, mid⟩, first, second⟩ := bind_eq_ok.1 hb
    exact (ihk b second).trans (ihr first)

/-- What a plain reader takes of some words, it takes of any that start with these. -/
theorem Plain.settles {r : Reader β} (h : Plain r) (hb : r (ofWords (u ++ v)) = .ok (b, ofWords v)) :
    Settles r u (.ok b) := by
  obtain out | ⟨u', v', x, split, settles, -, -⟩ := h.outcome (u ++ v)
  · have failed := out [] _ rfl
    rw [List.append_nil, hb] at failed
    cases failed
  · rw [split, Lexeme.ofWords_append, settles] at hb
    cases x with
    | error c => cases hb
    | ok b' =>
      obtain ⟨rfl, left⟩ : b' = b ∧ ofWords v' = ofWords v := by simpa [Except.map] using hb
      have length : v'.length = v.length := by simpa using congrArg List.length left
      obtain rfl := List.append_inj_left' split length.symm
      exact settles

/-! ### Lines -/

/-- The lexeme with no line. -/
def unline : Lexeme → Lexeme
  | .word text _ => .word text 0
  | .broken cause => .broken cause

/-- The cause with no line. -/
def unlinedCause : Failure LoadError → Failure LoadError
  | .error e => .error e.unlined
  | .crash c => .crash c

/-- What a reader makes of words, with no lines. -/
def unlinedResult : Attempt LoadError (β × List Lexeme) → Attempt LoadError (β × List Lexeme)
  | .ok (b, left) => .ok (b, left.map unline)
  | .error c => .error (unlinedCause c)

/-- Two readings in a row are the same but for lines if each of them is. -/
theorem unlinedResult_bind {ls ls' : List Lexeme}
    (first : unlinedResult (r ls) = unlinedResult (r ls'))
    (second : ∀ b left left', r ls = .ok (b, left) → left.map unline = left'.map unline →
      unlinedResult (k b left) = unlinedResult (k b left')) :
    unlinedResult ((r >>= k) ls) = unlinedResult ((r >>= k) ls') := by
  cases hr : r ls with
  | error c =>
    cases hr' : r ls' with
    | error c' =>
      rw [hr, hr'] at first
      rw [bind_of_error hr, bind_of_error hr']
      exact congrArg Except.error (Except.error.inj first)
    | ok y =>
      rw [hr, hr'] at first
      cases first
  | ok y =>
    cases hr' : r ls' with
    | error c' =>
      rw [hr, hr'] at first
      cases first
    | ok y' =>
      rw [hr, hr'] at first
      obtain ⟨eq, left⟩ : y.1 = y'.1 ∧ y.2.map unline = y'.2.map unline :=
        Prod.mk.inj (Except.ok.inj first)
      rw [bind_of_ok (b := y.1) hr, bind_of_ok hr', ← eq]
      exact second y.1 y.2 y'.2 hr left

/-- Lines matter for nothing but the lines of errors. -/
theorem Plain.blind {r : Reader β} (h : Plain r) {ls ls' : List Lexeme}
    (same : ls.map unline = ls'.map unline) : unlinedResult (r ls) = unlinedResult (r ls') := by
  induction h generalizing ls ls' with
  | pure b => exact congrArg (fun left => Except.ok (b, left)) same
  | stop => rfl
  | @field _ f h =>
    rcases ls with _ | ⟨⟨text, line⟩ | cause, ls⟩ <;>
      rcases ls' with _ | ⟨⟨text', line'⟩ | cause', ls'⟩ <;>
      simp only [List.map_nil, List.map_cons, unline, List.cons.injEq, Lexeme.word.injEq,
        Lexeme.broken.injEq, reduceCtorEq, and_true, false_and] at same
    · rfl
    · obtain ⟨rfl, same⟩ := same
      have alike := h.line text line line'
      rw [field_cons f (text, line), field_cons f (text, line')]
      cases hf : f (text, line) <;> cases hf' : f (text, line') <;> rw [hf, hf'] at alike <;>
        simp_all [Except.mapError, unlinedResult, unlinedCause]
    · obtain ⟨rfl, -⟩ := same
      rfl
  | bind _ _ ihr ihk => exact unlinedResult_bind (ihr same) fun b left left' _ => ihk b

end Problem.Reader
end Milp
