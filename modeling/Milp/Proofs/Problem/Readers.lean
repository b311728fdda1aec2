import Milp.Proofs.Problem.Format

/-!
# The readers follow the format

A reader takes words from the front and makes something of them, or fails. This file says for each
reader which words it takes and for which causes it fails, in the terms of the format.

* `Reader.Takes` — a reader takes exactly the words that spell its value and fails exactly for the
  causes that words have; `Takes.bind` — two readings in a row, `Takes.field_bind` — a word and
  what follows it.
* `Reader.Follows` — a reader that adds items to a problem follows a grammar.
* `Reader.readVariable_follows`, `Reader.readConstraint_follows` — the readers of one item do; a
  row is read under the limit that the reader has.
* `Reader.Follows.entries`, `Reader.Follows.counted` — so do readers of several items.
* `Reader.takes_readSection` — a section after its keyword.
-/

namespace Milp

namespace Field

variable {β : Type} {f : Field β} {w : Word}

theorem check_eq_ok : f.check w = .ok () ↔ ∃ b, f w = .ok b := by
  unfold check
  cases f w <;> simp [Except.map]

theorem check_eq_error {e : LoadError} : f.check w = .error e ↔ f w = .error e := by
  unfold check
  cases f w <;> simp [Except.map]

theorem declared_eq_ok {p : Problem Float} {v : Var} :
    declared p w = .ok v ↔ p.find? w.1 = some v := by
  unfold declared
  cases p.find? w.1 <;> simp

end Field

namespace Problem.Reader

open Lexeme (ofWords)

variable {β γ : Type}

/-! ### What a reader takes -/

/-- Two readings in a row succeed when both do. -/
theorem bind_eq_ok {r : Reader β} {k : β → Reader γ} {ls : List Lexeme}
    {x : γ × List Lexeme} :
    (r >>= k) ls = .ok x ↔ ∃ y, r ls = .ok y ∧ k y.1 y.2 = .ok x := by
  show (r ls).bind (fun y => k y.1 y.2) = .ok x ↔ _
  cases r ls with
  | error e => simp [Except.bind]
  | ok y => simp [Except.bind]

/-- Two readings in a row fail when the first does, or the second after it. -/
theorem bind_eq_error {r : Reader β} {k : β → Reader γ} {ls : List Lexeme}
    {c : Failure LoadError} :
    (r >>= k) ls = .error c ↔ r ls = .error c ∨ ∃ y, r ls = .ok y ∧ k y.1 y.2 = .error c := by
  show (r ls).bind (fun y => k y.1 y.2) = .error c ↔ _
  cases r ls with
  | error e => simp [Except.bind]
  | ok y => simp [Except.bind]

/-- The reader takes from the front of the words exactly those that spell its value, and fails
exactly for the causes that the words have. -/
structure Takes (r : Reader β) (spells : β → List Word → Prop)
    (fails : List Word → Failure LoadError → Prop) : Prop where
  ok_iff : ∀ {ws b left}, r (ofWords ws) = .ok (b, left) ↔
    ∃ u v, ws = u ++ v ∧ spells b u ∧ left = ofWords v
  error_iff : ∀ {ws c}, r (ofWords ws) = .error c ↔ fails ws c

namespace Takes

variable {r : Reader β} {k : β → Reader γ} {S S' : β → List Word → Prop}
  {F F' : List Word → Failure LoadError → Prop}

theorem congr (h : Takes r S F) (hs : ∀ b ws, S b ws ↔ S' b ws) (hf : ∀ ws c, F ws c ↔ F' ws c) :
    Takes r S' F' := by
  obtain rfl : S = S' := funext fun b => funext fun ws => propext (hs b ws)
  obtain rfl : F = F' := funext fun ws => funext fun c => propext (hf ws c)
  exact h

theorem pure (b : β) : Takes (pure b) (fun c ws => c = b ∧ ws = []) fun _ _ => False where
  ok_iff := by
    intro ws c left
    constructor
    · intro h
      cases h
      exact ⟨[], ws, rfl, ⟨rfl, rfl⟩, rfl⟩
    · rintro ⟨_, v, rfl, ⟨rfl, rfl⟩, rfl⟩
      rfl
  error_iff := ⟨(fun h => nomatch h), False.elim⟩

theorem stop (c : Failure LoadError) :
    Takes (fun _ => .error c : Reader β) (fun _ _ => False) fun _ c' => c' = c where
  ok_iff := ⟨(fun h => nomatch h), fun ⟨_, _, _, h, _⟩ => h.elim⟩
  error_iff := ⟨fun h => by cases h; rfl, fun h => h ▸ rfl⟩

/-- What two readings in a row take: the words of the first and those of the second. -/
theorem bind {S' : β → γ → List Word → Prop} {F' : β → List Word → Failure LoadError → Prop}
    (h : Takes r S F) (hk : ∀ b, Takes (k b) (S' b) (F' b)) :
    Takes (r >>= k) (fun x ws => ∃ b u v, ws = u ++ v ∧ S b u ∧ S' b x v)
      fun ws c => F ws c ∨ ∃ b u v, ws = u ++ v ∧ S b u ∧ F' b v c where
  ok_iff := by
    intro ws x left
    rw [bind_eq_ok]
    constructor
    · rintro ⟨⟨b, mid⟩, hb, hx⟩
      obtain ⟨u, v, rfl, hu, rfl⟩ := h.ok_iff.1 hb
      obtain ⟨v, w, rfl, hv, rfl⟩ := (hk b).ok_iff.1 hx
      exact ⟨u ++ v, w, (List.append_assoc ..).symm, ⟨b, u, v, rfl, hu, hv⟩, rfl⟩
    · rintro ⟨_, w, rfl, ⟨b, u, v, rfl, hu, hv⟩, rfl⟩
      exact ⟨(b, ofWords (v ++ w)), h.ok_iff.2 ⟨u, v ++ w, List.append_assoc .., hu, rfl⟩,
        (hk b).ok_iff.2 ⟨v, w, rfl, hv, rfl⟩⟩
  error_iff := by
    intro ws c
    rw [bind_eq_error, h.error_iff]
    refine or_congr_right ?_
    constructor
    · rintro ⟨⟨b, mid⟩, hb, hc⟩
      obtain ⟨u, v, rfl, hu, rfl⟩ := h.ok_iff.1 hb
      exact ⟨b, u, v, rfl, hu, (hk b).error_iff.1 hc⟩
    · rintro ⟨b, u, v, rfl, hu, hv⟩
      exact ⟨(b, ofWords v), h.ok_iff.2 ⟨u, v, rfl, hu, rfl⟩, (hk b).error_iff.2 hv⟩

end Takes

/-- A reader that is only run where nothing stops it. -/
theorem Takes.unless {r : Reader β} {S : β → List Word → Prop}
    {F : List Word → Failure LoadError → Prop} {P : Prop} [Decidable P] (h : Takes r S F)
    (stop : Failure LoadError) :
    Takes (if P then fun _ => .error stop else r) (fun b ws => ¬ P ∧ S b ws)
      fun ws c => P ∧ c = stop ∨ ¬ P ∧ F ws c := by
  split
  · exact (Takes.stop stop).congr (by simp [*]) (by simp [*])
  · exact h.congr (by simp [*]) (by simp [*])

/-! ### Single words -/

/-- Reads one word by a field. -/
def field (f : Field β) : Reader β := do
  match f (← word) with
  | .ok b => pure b
  | .error e => fail e

/-- A value is read by its field. -/
theorem value_eq (parse : String → Option β) (type : String) :
    value parse type = field (Field.value parse type) := by
  refine bind_congr fun w => ?_
  obtain ⟨text, line⟩ := w
  simp only [Field.value]
  cases parse text <;> rfl

/-- A fixed word is read by its field. -/
theorem choice_eq (select : String → Option β) (expected : String) :
    choice select expected = field (Field.choice select expected) := by
  refine bind_congr fun w => ?_
  obtain ⟨text, line⟩ := w
  simp only [Field.choice]
  cases select text <;> rfl

theorem field_ofWords (f : Field β) (w : Word) (ws : List Word) :
    field f (ofWords (w :: ws)) = match f w with
      | .ok b => .ok (b, ofWords ws)
      | .error e => .error (.error e) := by
  show (match f w with | .ok b => Pure.pure b | .error e => fail e : Reader β) (ofWords ws) = _
  cases f w <;> rfl

/-- A name is read as a word whose line is not asked for. -/
theorem name_eq (k : String → Reader γ) : (word >>= fun w => k w.1) = field Field.name >>= k := by
  simp only [field, bind_assoc]
  rfl

namespace Takes

/-- A field takes one word. -/
theorem field (f : Field β) :
    Takes (field f) (fun b ws => ∃ w, ws = [w] ∧ f w = .ok b) (Lacks [f.check]) where
  ok_iff := by
    intro ws b left
    cases ws with
    | nil => exact ⟨(fun h => nomatch h), by rintro ⟨_, _, h, ⟨_, rfl, _⟩, _⟩; cases h⟩
    | cons w ws =>
      rw [field_ofWords]
      constructor
      · intro h
        cases hw : f w with
        | error e => rw [hw] at h; cases h
        | ok b' =>
          rw [hw] at h
          cases h
          exact ⟨[w], ws, rfl, ⟨w, rfl, hw⟩, rfl⟩
      · rintro ⟨_, v, h, ⟨w', rfl, hw⟩, rfl⟩
        cases h
        rw [hw]
        rfl
  error_iff := by
    intro ws c
    cases ws with
    | nil => exact ⟨fun h => by cases h; exact .missing, fun h => by cases h; rfl⟩
    | cons w ws =>
      rw [field_ofWords]
      constructor
      · intro h
        cases hw : f w with
        | ok b' => rw [hw] at h; cases h
        | error e =>
          rw [hw] at h
          cases h
          exact .wrong (Field.check_eq_error.2 hw)
      · intro h
        cases h with
        | wrong h => rw [Field.check_eq_error.1 h]
        | later _ h => cases h

/-- A field and the fields after it. -/
theorem field_bind (f : Field β) {k : β → Reader γ} {S : β → γ → List Word → Prop}
    {fs : List (Field Unit)} (hk : ∀ b, Takes (k b) (S b) (Lacks fs)) :
    Takes (Reader.field f >>= k) (fun x ws => ∃ w b v, ws = w :: v ∧ f w = .ok b ∧ S b x v)
      (Lacks (f.check :: fs)) := by
  refine ((Takes.field f).bind hk).congr (fun x ws => ⟨?_, ?_⟩) fun ws c => ⟨?_, ?_⟩
  · rintro ⟨b, _, v, rfl, ⟨w, rfl, hw⟩, hx⟩
    exact ⟨w, b, v, rfl, hw, hx⟩
  · rintro ⟨w, b, v, rfl, hw, hx⟩
    exact ⟨b, [w], v, rfl, ⟨w, rfl, hw⟩, hx⟩
  · rintro (h | ⟨b, _, v, rfl, ⟨w, rfl, hw⟩, hc⟩)
    · cases h with
      | missing => exact .missing
      | wrong h => exact .wrong h
      | later _ h => cases h
    · exact .later (Field.check_eq_ok.2 ⟨b, hw⟩) hc
  · intro h
    cases h with
    | missing => exact .inl .missing
    | wrong h => exact .inl (.wrong h)
    | @later _ _ w v _ h hc =>
      obtain ⟨b, hw⟩ := Field.check_eq_ok.1 h
      exact .inr ⟨b, [w], v, rfl, ⟨w, rfl, hw⟩, hc⟩

/-- No further fields. -/
theorem done (b : β) : Takes (Pure.pure b) (fun c ws => c = b ∧ ws = []) (Lacks []) :=
  (Takes.pure b).congr (fun _ _ => Iff.rfl) fun _ _ => ⟨False.elim, fun h => nomatch h⟩

end Takes

/-! ### Variables -/

/-- Reads a variable without adding it. -/
def variableEntry : Reader (Variable Float) := do
  let name ← field Field.name
  let kind ← field Field.kind
  let objective ← field Field.number
  let lower ← field Field.number
  let upper ← field Field.number
  pure ⟨name, kind, objective, lower, Number.extend upper⟩

/-- Hands on a problem that was built, or fails with the cause of the refusal. -/
def settle : Except (ProblemError Float) (Problem Float) → Reader (Problem Float)
  | .ok p => pure p
  | .error e => fail (.refused e)

theorem Takes.settle (x : Except (ProblemError Float) (Problem Float)) :
    Takes (settle x) (fun q ws => x = .ok q ∧ ws = [])
      fun _ c => ∃ e, x = .error e ∧ c = .error (.refused e) := by
  cases x with
  | ok p => exact (Takes.pure p).congr (by simp [eq_comm]) (by simp)
  | error e => exact (Takes.stop _).congr (by simp) (by simp)

/-- A variable is read, then added. -/
theorem readVariable_eq (p : Problem Float) :
    readVariable p = variableEntry >>= fun v => settle (v.addTo p) := by
  simp only [readVariable, variableEntry, number, value_eq, choice_eq, bind_assoc, pure_bind]
  rw [← name_eq]
  refine bind_congr fun n => bind_congr fun kind => bind_congr fun c => bind_congr fun l =>
    bind_congr fun u => ?_
  simp only [Variable.addTo]
  cases p.addVariable n.1 kind c l (Number.extend u) <;> rfl

theorem takes_variableEntry : Takes variableEntry Variable.Spelled
    (Lacks [Field.name.check, Field.kind.check, Field.number.check, Field.number.check,
      Field.number.check]) := by
  refine (Takes.field_bind _ fun _ => Takes.field_bind _ fun _ => Takes.field_bind _ fun _ =>
    Takes.field_bind _ fun _ => Takes.field_bind _ fun _ => Takes.done _).congr
      (fun v ws => ⟨?_, ?_⟩) fun _ _ => Iff.rfl
  · rintro ⟨n, _, _, rfl, ⟨⟩, k, kind, _, rfl, hk, c, objective, _, rfl, hc, l, lower, _, rfl, hl,
      u, upper, _, rfl, hu, rfl, rfl⟩
    exact .words hk hc hl hu
  · rintro ⟨hk, hc, hl, hu⟩
    exact ⟨_, _, _, rfl, rfl, _, _, _, rfl, hk, _, _, _, rfl, hc, _, _, _, rfl, hl, _, _, _, rfl,
      hu, rfl, rfl⟩

/-- The reader adds to a problem what the items of a grammar say, and fails as the grammar does. -/
def Follows {ε : Type} (r : Problem Float → Reader (Problem Float)) (g : Grammar ε) : Prop :=
  ∀ p, Takes (r p) (fun q ws => ∃ e, g.Spelled e ws ∧ g.add p e = some q) (g.Fault p)

theorem toOption_eq_some {ε : Type} {x : Except ε β} {b : β} : x.toOption = some b ↔ x = .ok b := by
  cases x <;> simp [Except.toOption]

/-- The reader of a variable follows the format. -/
theorem readVariable_follows : Follows readVariable Grammar.vars := by
  intro p
  rw [readVariable_eq]
  -- what is taken, then the causes, each from the reader to the format and back
  refine (takes_variableEntry.bind fun v => Takes.settle (v.addTo p)).congr
    (fun q ws => ⟨?_, ?_⟩) fun ws c => ⟨?_, ?_⟩
  · rintro ⟨v, u, _, rfl, hu, hq, rfl⟩
    rw [List.append_nil]
    exact ⟨v, hu, toOption_eq_some.2 hq⟩
  · rintro ⟨v, hv, hq⟩
    exact ⟨v, ws, [], (List.append_nil ws).symm, hv, toOption_eq_some.1 hq, rfl⟩
  · rintro (h | ⟨v, u, w, rfl, hu, e, he, rfl⟩)
    · exact .word h
    · exact .refused hu he
  · rintro (h | ⟨hv, he⟩)
    · exact .inl h
    · exact .inr ⟨_, _, _, rfl, hv, _, he, rfl⟩

/-! ### Rows -/

/-- Reads what stands before the terms of a row. -/
def rowHead : Reader RowHead := do
  let name ← field Field.name
  let sense ← field Field.sense
  let rhs ← field Field.number
  let length ← field Field.count
  pure ⟨name, sense, rhs, length⟩

theorem takes_rowHead : Takes rowHead RowHead.Spelled
    (Lacks [Field.name.check, Field.sense.check, Field.number.check, Field.count.check]) := by
  refine (Takes.field_bind _ fun _ => Takes.field_bind _ fun _ => Takes.field_bind _ fun _ =>
    Takes.field_bind _ fun _ => Takes.done _).congr (fun h ws => ⟨?_, ?_⟩) fun _ _ => Iff.rfl
  · rintro ⟨n, _, _, rfl, ⟨⟩, s, sense, _, rfl, hs, b, rhs, _, rfl, hb, k, length, _, rfl, hk,
      rfl, rfl⟩
    exact .words hs hb hk
  · rintro ⟨hs, hb, hk⟩
    exact ⟨_, _, _, rfl, rfl, _, _, _, rfl, hs, _, _, _, rfl, hb, _, _, _, rfl, hk, rfl, rfl⟩

/-- Reads one term of a row. -/
def readTerm (p : Problem Float) : Reader (Var × Float) := do
  let v ← field (Field.declared p)
  let a ← field Field.number
  pure (v, a)

theorem takes_readTerm (p : Problem Float) :
    Takes (readTerm p) (fun t ws => ∃ s, NamedTerm.Spelled s ws ∧ p.resolve? s = some t)
      (Lacks [(Field.declared p).check, Field.number.check]) := by
  refine (Takes.field_bind _ fun _ => Takes.field_bind _ fun _ => Takes.done _).congr
    (fun t ws => ⟨?_, ?_⟩) fun _ _ => Iff.rfl
  · rintro ⟨n, v, _, rfl, hv, a, b, _, rfl, hb, rfl, rfl⟩
    exact ⟨(n.1, b), .words hb, by rw [resolve?, Field.declared_eq_ok.1 hv]; rfl⟩
  · rintro ⟨_, ⟨hb⟩, ht⟩
    obtain ⟨v, hv, rfl⟩ := Option.map_eq_some_iff.1 ht
    exact ⟨_, v, _, rfl, Field.declared_eq_ok.2 hv, _, _, _, rfl, hb, rfl, rfl⟩

/-- The terms of a row are read one after the other. -/
theorem readTerms_succ (p : Problem Float) (n : Nat) :
    readTerms p (n + 1) = readTerm p >>= fun t => readTerms p n >>= fun ts => pure (t :: ts) := by
  simp only [readTerms, readTerm, field, number, value_eq, bind_assoc, pure_bind]
  refine bind_congr fun w => ?_
  obtain ⟨name, line⟩ := w
  simp only [Field.declared]
  cases p.find? name with
  | none => rfl
  | some v => simp only [Option.elim_some, pure_bind]; rfl

theorem foldlM_cons_eq_some {δ : Type} {f : δ → β → Option δ} {b : β} {bs : List β} {d x : δ} :
    (b :: bs).foldlM f d = some x ↔ ∃ d', f d b = some d' ∧ bs.foldlM f d' = some x := by
  rw [List.foldlM_cons]
  exact Option.bind_eq_some_iff

theorem mapM_cons_eq_some {δ : Type} {f : β → Option δ} {b : β} {bs : List β} {ds : List δ} :
    (b :: bs).mapM f = some ds ↔ ∃ d ds', f b = some d ∧ bs.mapM f = some ds' ∧ d :: ds' = ds := by
  rw [List.mapM_cons]
  cases f b <;> cases bs.mapM f <;> simp

/-- The reader of terms takes as many as it is to take, all of variables that are there. -/
theorem takes_readTerms (p : Problem Float) (n : Nat) : Takes (readTerms p n)
    (fun vs ws => ∃ ts : List NamedTerm, ts.length = n ∧ Spells NamedTerm.Spelled ts ws ∧
      ts.mapM p.resolve? = some vs)
    fun ws c => ∃ (ts : List NamedTerm) (vs : List (Var × Float)) (u v : List Word),
      ws = u ++ v ∧ ts.length < n ∧ Spells NamedTerm.Spelled ts u ∧
      ts.mapM p.resolve? = some vs ∧
      Lacks [(Field.declared p).check, Field.number.check] v c := by
  induction n with
  | zero =>
    refine (Takes.pure []).congr (fun vs ws => ⟨?_, ?_⟩) fun ws c => ⟨False.elim, ?_⟩
    · rintro ⟨rfl, rfl⟩
      exact ⟨[], rfl, .nil, rfl⟩
    · rintro ⟨ts, h, hts, hvs⟩
      obtain rfl := List.length_eq_zero_iff.1 h
      cases hts
      cases hvs
      exact ⟨rfl, rfl⟩
    · rintro ⟨ts, _, _, _, _, h, _⟩
      exact absurd h (Nat.not_lt_zero _)
  | succ n ih =>
    rw [readTerms_succ]
    refine ((takes_readTerm p).bind fun t => ih.bind fun ts => Takes.pure (t :: ts)).congr
      (fun vs ws => ⟨?_, ?_⟩) fun ws c => ⟨?_, ?_⟩
    · rintro ⟨t, u, _, rfl, ⟨s, hs, ht⟩, vs, v, _, rfl, ⟨ts, rfl, hts, hvs⟩, rfl, rfl⟩
      rw [List.append_nil]
      exact ⟨s :: ts, rfl, .cons hs hts, mapM_cons_eq_some.2 ⟨t, vs, ht, hvs, rfl⟩⟩
    · rintro ⟨ts, h, hts, hvs⟩
      cases hts with
      | nil => cases h
      | @cons s ts u v hs hts =>
        obtain ⟨t, vs, ht, htail, rfl⟩ := mapM_cons_eq_some.1 hvs
        exact ⟨t, u, v, rfl, ⟨s, hs, ht⟩, vs, v, [], (List.append_nil v).symm,
          ⟨ts, Nat.succ.inj h, hts, htail⟩, rfl, rfl⟩
    · rintro (h | ⟨t, u, _, rfl, ⟨s, hs, ht⟩, ⟨ts, vs, v, w, rfl, h, hts, hvs, hc⟩ |
        ⟨_, _, _, _, _, h⟩⟩)
      · exact ⟨[], [], [], ws, rfl, Nat.succ_pos n, .nil, rfl, h⟩
      · exact ⟨s :: ts, t :: vs, u ++ v, w, (List.append_assoc ..).symm, Nat.succ_lt_succ h,
          .cons hs hts, mapM_cons_eq_some.2 ⟨t, vs, ht, hvs, rfl⟩, hc⟩
      · exact h.elim
    · rintro ⟨ts, vs, u, w, rfl, h, hts, hvs, hc⟩
      cases hts with
      | nil => exact .inl hc
      | @cons s ts u v hs hts =>
        obtain ⟨t, vs, ht, htail, rfl⟩ := mapM_cons_eq_some.1 hvs
        exact .inr ⟨t, u, v ++ w, List.append_assoc .., ⟨s, hs, ht⟩,
          .inl ⟨ts, vs, v, w, rfl, Nat.lt_of_succ_lt_succ h, hts, htail, hc⟩⟩

/-- A row is read as its head and its terms, then added; its length is checked between the two. -/
theorem readConstraint_eq (p : Problem Float) :
    readConstraint p = rowHead >>= fun h =>
      if h.length > termLimit then fun _ => .error (.crash (.message "capacity overflow"))
      else readTerms p h.length >>= fun ts =>
        settle ((·.2) <$> p.addConstraint h.name ts h.sense h.rhs) := by
  simp only [readConstraint, rowHead, number, count, value_eq, choice_eq, bind_assoc, pure_bind]
  rw [← name_eq]
  refine bind_congr fun w => bind_congr fun sense => bind_congr fun rhs => bind_congr fun n => ?_
  split
  · rfl
  · refine bind_congr fun ts => ?_
    cases p.addConstraint w.1 ts sense rhs <;> rfl

theorem withinLimit_some {m n : Nat} : WithinLimit (some m) n ↔ ¬ n > m := by simp [WithinLimit]

theorem addTo?_eq_some {r : NamedRow} {p : Problem Float}
    {x : Except (ProblemError Float) (Problem Float)} : r.addTo? p = some x ↔
      ∃ vs, r.terms.mapM p.resolve? = some vs ∧
        (·.2) <$> p.addConstraint r.name vs r.sense r.rhs = x :=
  Option.map_eq_some_iff

/-- The reader of a row follows the format with its own limit. -/
theorem readConstraint_follows : Follows readConstraint (Grammar.rows (some termLimit)) := by
  intro p
  rw [readConstraint_eq]
  -- again: what is taken, then the causes, each in both directions
  refine (takes_rowHead.bind fun h => ((takes_readTerms p h.length).bind fun ts =>
    Takes.settle _).unless _).congr (fun q ws => ⟨?_, ?_⟩) fun ws c => ⟨?_, ?_⟩
  · rintro ⟨h, u, _, rfl, hu, hl, vs, v, _, rfl, ⟨ts, hlen, hts, hvs⟩, hq, rfl⟩
    rw [List.append_nil]
    exact ⟨⟨h.name, h.sense, h.rhs, ts⟩, .words hu (withinLimit_some.2 hl) hts hlen,
      Option.bind_eq_some_iff.2 ⟨_, addTo?_eq_some.2 ⟨vs, hvs, rfl⟩, toOption_eq_some.2 hq⟩⟩
  · rintro ⟨_, @⟨h, ts, u, v, hu, hl, hts, hlen⟩, hq⟩
    obtain ⟨x, hx, hq⟩ := Option.bind_eq_some_iff.1 hq
    obtain ⟨vs, hvs, rfl⟩ := addTo?_eq_some.1 hx
    exact ⟨h, u, v, rfl, hu, withinLimit_some.1 hl, vs, v, [], (List.append_nil v).symm,
      ⟨ts, hlen, hts, hvs⟩, toOption_eq_some.1 hq, rfl⟩
  · rintro (hc | ⟨h, u, v, rfl, hu, ⟨hl, rfl⟩ | ⟨hl, hc⟩⟩)
    · exact .head hc
    · exact .beyondLimit hu fun h => withinLimit_some.1 h hl
    · obtain ⟨ts, vs, v, w, rfl, hlt, hts, hvs, hc⟩ |
        ⟨vs, v, w, rfl, ⟨ts, hlen, hts, hvs⟩, e, he, rfl⟩ := hc
      · exact .term hu (withinLimit_some.2 hl) hts hvs hlt hc
      · rw [← List.append_assoc]
        exact .refused (r := ⟨h.name, h.sense, h.rhs, ts⟩)
          (.words hu (withinLimit_some.2 hl) hts hlen) (addTo?_eq_some.2 ⟨vs, hvs, he⟩)
  · rintro (hc | @⟨h, u, v, hu, hl⟩ | @⟨h, ts, vs, u, v, w, c, hu, hl, hts, hvs, hlt, hc⟩ |
      @⟨r, u, w, e, hs, hr⟩)
    · exact .inl hc
    · have hl : h.length > termLimit := Decidable.not_not.1 fun h => hl (withinLimit_some.2 h)
      exact .inr ⟨h, u, v, rfl, hu, .inl ⟨hl, rfl⟩⟩
    · exact .inr ⟨h, u, v ++ w, rfl, hu, .inr ⟨withinLimit_some.1 hl,
        .inl ⟨ts, vs, v, w, rfl, hlt, hts, hvs, hc⟩⟩⟩
    · obtain @⟨h, ts, u, v, hu, hl, hts, hlen⟩ := hs
      obtain ⟨vs, hvs, he⟩ := addTo?_eq_some.1 hr
      exact .inr ⟨h, u, v ++ w, List.append_assoc .., hu, .inr ⟨withinLimit_some.1 hl,
        .inr ⟨vs, v, w, rfl, ⟨ts, hlen, hts, hvs⟩, e, he, rfl⟩⟩⟩

/-! ### Sections -/

/-- The reader of a number of items adds them one after the other. -/
theorem Follows.entries {ε : Type} {g : Grammar ε} {r : Problem Float → Reader (Problem Float)}
    (h : Follows r g) (n : Nat) (p : Problem Float) : Takes (readEntries r n p)
      (fun q ws => ∃ es : List ε, es.length = n ∧ Spells g.Spelled es ws ∧
        es.foldlM g.add p = some q)
      fun ws c => ∃ es : List ε, es.length < n ∧ g.FaultAfter es p ws c := by
  induction n generalizing p with
  | zero =>
    refine (Takes.pure p).congr (fun q ws => ⟨?_, ?_⟩) fun ws c => ⟨False.elim, ?_⟩
    · rintro ⟨rfl, rfl⟩
      exact ⟨[], rfl, .nil, rfl⟩
    · rintro ⟨es, hlen, hes, hq⟩
      obtain rfl := List.length_eq_zero_iff.1 hlen
      cases hes
      cases hq
      exact ⟨rfl, rfl⟩
    · rintro ⟨es, hlt, _⟩
      exact absurd hlt (Nat.not_lt_zero _)
  | succ n ih =>
    refine ((h p).bind fun p => ih p).congr (fun q ws => ⟨?_, ?_⟩) fun ws c => ⟨?_, ?_⟩
    · rintro ⟨p', u, v, rfl, ⟨e, he, hp⟩, es, rfl, hes, hq⟩
      exact ⟨e :: es, rfl, .cons he hes, foldlM_cons_eq_some.2 ⟨p', hp, hq⟩⟩
    · rintro ⟨es, hlen, hes, hq⟩
      cases hes with
      | nil => cases hlen
      | @cons e es u v he hes =>
        obtain ⟨p', hp, hq⟩ := foldlM_cons_eq_some.1 hq
        exact ⟨p', u, v, rfl, ⟨e, he, hp⟩, es, Nat.succ.inj hlen, hes, hq⟩
    · rintro (hc | ⟨p', u, _, rfl, ⟨e, he, hp⟩, es, hlt, v, w, q, rfl, hes, hq, hc⟩)
      · exact ⟨[], Nat.succ_pos n, [], ws, p, rfl, .nil, rfl, hc⟩
      · exact ⟨e :: es, Nat.succ_lt_succ hlt, u ++ v, w, q, (List.append_assoc ..).symm,
          .cons he hes, foldlM_cons_eq_some.2 ⟨p', hp, hq⟩, hc⟩
    · rintro ⟨es, hlt, u, w, q, rfl, hes, hq, hc⟩
      cases hes with
      | nil =>
        cases hq
        exact .inl hc
      | @cons e es u v he hes =>
        obtain ⟨p', hp, hq⟩ := foldlM_cons_eq_some.1 hq
        exact .inr ⟨p', u, v ++ w, List.append_assoc .., ⟨e, he, hp⟩, es,
          Nat.lt_of_succ_lt_succ hlt, v, w, q, rfl, hes, hq, hc⟩

/-- So does the reader of items with their number in front. -/
theorem Follows.counted {ε : Type} {g : Grammar ε} {r : Problem Float → Reader (Problem Float)}
    (h : Follows r g) : Follows (fun p => count >>= fun n => readEntries r n p) g.counted := by
  intro p
  rw [count, value_eq]
  refine ((Takes.field Field.count).bind fun n => h.entries n p).congr (fun q ws => ⟨?_, ?_⟩)
    fun ws c => ⟨?_, ?_⟩
  · rintro ⟨_, _, v, rfl, ⟨k, rfl, hk⟩, es, rfl, hes, hq⟩
    exact ⟨es, ⟨k, v, rfl, hk, hes⟩, hq⟩
  · rintro ⟨es, ⟨k, v, rfl, hk, hes⟩, hq⟩
    exact ⟨_, [k], v, rfl, ⟨k, rfl, hk⟩, es, rfl, hes, hq⟩
  · rintro (hc | ⟨n, _, v, rfl, ⟨k, rfl, hk⟩, es, hlt, hc⟩)
    · exact .inl hc
    · exact .inr ⟨k, v, n, es, rfl, hk, hlt, hc⟩
  · rintro (hc | ⟨k, v, n, es, rfl, hk, hlt, hc⟩)
    · exact .inl hc
    · exact .inr ⟨n, [k], v, rfl, ⟨k, rfl, hk⟩, es, hlt, hc⟩

/-- What is read after a keyword. -/
theorem readSection_eq (k : Word) (p : Problem Float) :
    readSection k.1 k.2 p = match Field.keyword k with
      | .ok .title => field Field.name >>= fun name => pure { p with name }
      | .ok (.direction sense) => pure { p with sense }
      | .ok .vars => count >>= fun n => readEntries readVariable n p
      | .ok .rows => count >>= fun n => readEntries readConstraint n p
      | .error e => fail e := by
  obtain ⟨k, line⟩ := k
  simp only [← name_eq, Field.keyword, Field.choice]
  unfold readSection
  split <;> try rfl
  -- no keyword: none of the cases of `Keyword.ofWord?` applies either
  have none : Keyword.ofWord? k = none := by
    unfold Keyword.ofWord?
    split <;> first | rfl | contradiction
  rw [none]
  rfl

/-- The reader of a section after its keyword follows the format. -/
theorem takes_readSection (k : Word) (hk : k.1 ≠ "end") (p : Problem Float) :
    Takes (readSection k.1 k.2 p)
      (fun q ws => ∃ s, TextSection.Spelled (some termLimit) s (k :: ws) ∧
        TextSection.add p s = some q)
      fun ws c => TextSection.Fault (some termLimit) p (k :: ws) c := by
  rw [readSection_eq]
  cases hw : Field.keyword k with
  | error e =>
    refine (Takes.stop _).congr (fun q ws => ⟨False.elim, ?_⟩) fun ws c => ⟨?_, ?_⟩
    · rintro ⟨_, h | h | h | h, _⟩ <;> simp [hw] at h
    · rintro rfl
      exact .keyword hw hk
    · rintro (h | h | h | h) <;> simp_all
  | ok key =>
    cases key with
    | title =>
      refine (Takes.field_bind _ fun _ => Takes.done _).congr (fun q ws => ⟨?_, ?_⟩)
        fun ws c => ⟨.title hw, ?_⟩
      · rintro ⟨n, _, _, rfl, ⟨⟩, rfl, rfl⟩
        exact ⟨_, .title hw, rfl⟩
      · rintro ⟨_, h | h | h | h, hq⟩ <;> simp [hw] at h
        cases hq
        exact ⟨_, _, _, rfl, rfl, rfl, rfl⟩
      · rintro (h | h | h | h) <;> simp_all
    | direction sense =>
      refine (Takes.pure _).congr (fun q ws => ⟨?_, ?_⟩) fun ws c => ⟨False.elim, ?_⟩
      · rintro ⟨rfl, rfl⟩
        exact ⟨_, .direction hw, rfl⟩
      · rintro ⟨_, h | h | h | h, hq⟩ <;> simp [hw] at h
        cases h
        cases hq
        exact ⟨rfl, rfl⟩
      · rintro (h | h | h | h) <;> simp_all
    | vars =>
      refine (readVariable_follows.counted p).congr (fun q ws => ⟨?_, ?_⟩)
        fun ws c => ⟨.vars hw, ?_⟩
      · rintro ⟨vs, hvs, hq⟩
        exact ⟨_, .vars hw hvs, hq⟩
      · rintro ⟨_, h | h | ⟨h, hvs⟩ | h, hq⟩ <;> simp [hw] at h
        exact ⟨_, hvs, hq⟩
      · rintro (h | h | h | h) <;> simp_all
    | rows =>
      refine (readConstraint_follows.counted p).congr (fun q ws => ⟨?_, ?_⟩)
        fun ws c => ⟨.rows hw, ?_⟩
      · rintro ⟨vs, hvs, hq⟩
        exact ⟨_, .rows hw hvs, hq⟩
      · rintro ⟨_, h | h | h | ⟨h, hvs⟩, hq⟩ <;> simp [hw] at h
        exact ⟨_, hvs, hq⟩
      · rintro (h | h | h | h) <;> simp_all

end Problem.Reader
end Milp
