import Milp.Problem.Read
import Milp.Proofs.Problem.Words

/-!
# The format of a problem text

The format is given by what its items are, which words spell them and what they add to a problem,
without a reader. Next to it stands where words depart from it: the first item that is missing,
means nothing or is refused, after items that are all fine.

* `Field` — what one word stands for; `Lacks` — the first word of a row of fields that is missing
  or stands for nothing.
* `Grammar` — a sort of items: `Spelled`, `add` and `Fault`. Variables, rows and sections are
  grammars; `Grammar.counted` is a list of items with their number in front.
* `Format.Describes` — the words of a text describe a problem; `Format.Loads` and
  `Format.Faulty` — what there is to answer: a problem, or the cause of the first fault.

A limit on the terms that a row may announce is a parameter: the format itself has none (`none`),
a reader may have one.
-/

namespace Milp

/-! ### Single words -/

/-- What one word stands for, or the error where it stands for nothing. -/
abbrev Field (β : Type) : Type := Word → Except LoadError β

namespace Field

variable {β : Type}

/-- A name: any word. -/
def name : Field String := fun w => .ok w.1

/-- A word that is read as a value; `type` names what is expected. -/
def value (parse : String → Option β) (type : String) : Field β := fun w =>
  (parse w.1).elim (.error (.unparsable w.2 w.1 type)) .ok

/-- A number. -/
def number : Field Float := value Number.read? "f64"

/-- A number of items. -/
def count : Field Nat := value Number.readCount? "usize"

/-- One of several fixed words. -/
def choice (select : String → Option β) (expected : String) : Field β := fun w =>
  (select w.1).elim (.error (.unexpectedWord w.2 w.1 expected)) .ok

/-- The kind of a variable. -/
def kind : Field VariableKind := choice Problem.kindOfWord? "a variable kind"

/-- The relation of a row. -/
def sense : Field RowSense := choice Problem.senseOfWord? "a constraint sense"

/-- The name of a variable that the problem has. -/
def declared (p : Problem Float) : Field Var := fun w =>
  (p.find? w.1).elim (.error (.unknownVariable w.2 w.1)) .ok

/-- Only whether the word stands for something. -/
def check (f : Field β) : Field Unit := fun w => (f w).map fun _ => ()

end Field

/-- The words do not start with one word for each field: they run out, or one of them stands for
nothing. -/
inductive Lacks : List (Field Unit) → List Word → Failure LoadError → Prop
  | missing {f : Field Unit} {fs : List (Field Unit)} : Lacks (f :: fs) [] (.error .unexpectedEnd)
  | wrong {f : Field Unit} {fs : List (Field Unit)} {w : Word} {ws : List Word} {e : LoadError}
      (h : f w = .error e) : Lacks (f :: fs) (w :: ws) (.error e)
  | later {f : Field Unit} {fs : List (Field Unit)} {w : Word} {ws : List Word}
      {c : Failure LoadError} (h : f w = .ok ()) (rest : Lacks fs ws c) :
      Lacks (f :: fs) (w :: ws) c

/-! ### Items -/

/-- The words spell the items one after the other. -/
inductive Spells {ε : Type} (spelled : ε → List Word → Prop) : List ε → List Word → Prop
  | nil : Spells spelled [] []
  | cons {e : ε} {es : List ε} {u v : List Word} (head : spelled e u)
      (tail : Spells spelled es v) : Spells spelled (e :: es) (u ++ v)

/-- A sort of items: the words that spell an item, what an item adds to a problem that accepts it,
and the causes for which words do not start with an item that the problem accepts. -/
structure Grammar (ε : Type) where
  Spelled : ε → List Word → Prop
  add : Problem Float → ε → Option (Problem Float)
  Fault : Problem Float → List Word → Failure LoadError → Prop

namespace Grammar

variable {ε : Type} (g : Grammar ε)

/-- The words start with the items, the problem accepts these in order, and what follows them is
at fault. -/
def FaultAfter (es : List ε) (p : Problem Float) (ws : List Word) (c : Failure LoadError) : Prop :=
  ∃ u v q, ws = u ++ v ∧ Spells g.Spelled es u ∧ es.foldlM g.add p = some q ∧ g.Fault q v c

/-- Lists of items with their number in front. -/
def counted : Grammar (List ε) where
  Spelled es ws := ∃ n v, ws = n :: v ∧ Field.count n = .ok es.length ∧ Spells g.Spelled es v
  add p es := es.foldlM g.add p
  Fault p ws c :=
    Lacks [Field.count.check] ws c ∨
    ∃ n v m es, ws = n :: v ∧ Field.count n = .ok m ∧ es.length < m ∧ g.FaultAfter es p v c

end Grammar

/-! ### Variables -/

/-- The words of a variable: name, kind, objective and bounds. -/
inductive Variable.Spelled : Variable Float → List Word → Prop
  | words {n k c l u : Word} {kind : VariableKind} {objective lower upper : Float}
      (hk : Field.kind k = .ok kind) (hc : Field.number c = .ok objective)
      (hl : Field.number l = .ok lower) (hu : Field.number u = .ok upper) :
      Spelled ⟨n.1, kind, objective, lower, Number.extend upper⟩ [n, k, c, l, u]

/-- The problem with the variable, or why it is refused. -/
def Variable.addTo (v : Variable Float) (p : Problem Float) :
    Except (ProblemError Float) (Problem Float) :=
  (·.2) <$> p.addVariable v.name v.kind v.objective v.lower v.upper

/-- The problem with the variable, if it accepts that. -/
def Problem.withVariable? (p : Problem Float) (v : Variable Float) : Option (Problem Float) :=
  (v.addTo p).toOption

/-- Why words do not start with a variable that the problem accepts. -/
inductive Variable.Fault (p : Problem Float) : List Word → Failure LoadError → Prop
  | word {ws : List Word} {c : Failure LoadError}
      (h : Lacks [Field.name.check, Field.kind.check, Field.number.check, Field.number.check,
        Field.number.check] ws c) : Fault p ws c
  | refused {v : Variable Float} {us ws : List Word} {e : ProblemError Float}
      (spelled : v.Spelled us) (h : v.addTo p = .error e) :
      Fault p (us ++ ws) (.error (.refused e))

/-- The variables of a text. -/
def Grammar.vars : Grammar (Variable Float) where
  Spelled := Variable.Spelled
  add := Problem.withVariable?
  Fault := Variable.Fault

/-! ### Rows -/

/-- What a row announces before its terms. -/
structure RowHead where
  name : String
  sense : RowSense
  rhs : Float
  length : Nat

/-- The words before the terms of a row: name, relation, right-hand side and number of terms. -/
inductive RowHead.Spelled : RowHead → List Word → Prop
  | words {n s b k : Word} {sense : RowSense} {rhs : Float} {length : Nat}
      (hs : Field.sense s = .ok sense) (hb : Field.number b = .ok rhs)
      (hk : Field.count k = .ok length) : Spelled ⟨n.1, sense, rhs, length⟩ [n, s, b, k]

/-- A term of a row: the name of its variable, and its coefficient. -/
abbrev NamedTerm : Type := String × Float

/-- The words of a term. -/
inductive NamedTerm.Spelled : NamedTerm → List Word → Prop
  | words {n a : Word} {coefficient : Float} (ha : Field.number a = .ok coefficient) :
      Spelled (n.1, coefficient) [n, a]

/-- A term by the position of its variable, if the problem has that. -/
def Problem.resolve? (p : Problem Float) (t : NamedTerm) : Option (Var × Float) :=
  (p.find? t.1).map (·, t.2)

/-- A row as it is written. -/
structure NamedRow where
  name : String
  sense : RowSense
  rhs : Float
  terms : List NamedTerm

/-- The problem with the row, or why it is refused; nothing where the problem does not have all the
variables of the row. -/
def NamedRow.addTo? (r : NamedRow) (p : Problem Float) :
    Option (Except (ProblemError Float) (Problem Float)) :=
  (r.terms.mapM p.resolve?).map fun ts => (·.2) <$> p.addConstraint r.name ts r.sense r.rhs

/-- The problem with the row, if it accepts that. -/
def Problem.withRow? (p : Problem Float) (r : NamedRow) : Option (Problem Float) :=
  (r.addTo? p).bind Except.toOption

variable (limit : Option Nat)

/-- Whether a row may announce so many terms. -/
def WithinLimit (n : Nat) : Prop := ∀ m ∈ limit, n ≤ m

/-- The words of a row: its head and as many terms as that announces. -/
inductive NamedRow.Spelled : NamedRow → List Word → Prop
  | words {h : RowHead} {ts : List NamedTerm} {u v : List Word} (head : h.Spelled u)
      (within : WithinLimit limit h.length) (terms : Spells NamedTerm.Spelled ts v)
      (length : ts.length = h.length) : Spelled ⟨h.name, h.sense, h.rhs, ts⟩ (u ++ v)

/-- Why words do not start with a row that the problem accepts. -/
inductive NamedRow.Fault (p : Problem Float) : List Word → Failure LoadError → Prop
  | head {ws : List Word} {c : Failure LoadError}
      (h : Lacks [Field.name.check, Field.sense.check, Field.number.check, Field.count.check]
        ws c) : Fault p ws c
  | beyondLimit {h : RowHead} {u v : List Word} (head : h.Spelled u)
      (beyond : ¬ WithinLimit limit h.length) :
      Fault p (u ++ v) (.crash (.message "capacity overflow"))
  | term {h : RowHead} {ts : List NamedTerm} {vs : List (Var × Float)} {u v w : List Word}
      {c : Failure LoadError} (head : h.Spelled u) (within : WithinLimit limit h.length)
      (terms : Spells NamedTerm.Spelled ts v) (resolved : ts.mapM p.resolve? = some vs)
      (fewer : ts.length < h.length)
      (lacks : Lacks [(Field.declared p).check, Field.number.check] w c) :
      Fault p (u ++ (v ++ w)) c
  | refused {r : NamedRow} {u v : List Word} {e : ProblemError Float} (spelled : r.Spelled limit u)
      (h : r.addTo? p = some (.error e)) : Fault p (u ++ v) (.error (.refused e))

/-- The rows of a text. -/
def Grammar.rows : Grammar NamedRow where
  Spelled := NamedRow.Spelled limit
  add := Problem.withRow?
  Fault := NamedRow.Fault limit

/-! ### Sections -/

/-- What the first word of a section calls for. -/
inductive Keyword where
  | title
  | direction (sense : Sense)
  | vars
  | rows

/-- The keyword that a word is. -/
def Keyword.ofWord? : String → Option Keyword
  | "problem" => some .title
  | "minimize" | "min" => some (.direction .minimize)
  | "maximize" | "max" => some (.direction .maximize)
  | "variables" => some .vars
  | "constraints" => some .rows
  | _ => none

/-- The first word of a section. -/
def Field.keyword : Field Keyword := choice Keyword.ofWord? "a section keyword"

/-- A section of a text. -/
inductive TextSection where
  | title (name : String)
  | direction (sense : Sense)
  | vars (vs : List (Variable Float))
  | rows (rs : List NamedRow)

namespace TextSection

/-- The words of a section: a keyword and what it calls for. -/
inductive Spelled : TextSection → List Word → Prop
  | title {k n : Word} (hk : Field.keyword k = .ok .title) : Spelled (.title n.1) [k, n]
  | direction {k : Word} {s : Sense} (hk : Field.keyword k = .ok (.direction s)) :
      Spelled (.direction s) [k]
  | vars {k : Word} {vs : List (Variable Float)} {ws : List Word}
      (hk : Field.keyword k = .ok .vars) (list : Grammar.vars.counted.Spelled vs ws) :
      Spelled (.vars vs) (k :: ws)
  | rows {k : Word} {rs : List NamedRow} {ws : List Word} (hk : Field.keyword k = .ok .rows)
      (list : (Grammar.rows limit).counted.Spelled rs ws) : Spelled (.rows rs) (k :: ws)

/-- The problem with what a section says. -/
def add (p : Problem Float) : TextSection → Option (Problem Float)
  | .title name => some { p with name }
  | .direction sense => some { p with sense }
  | .vars vs => vs.foldlM Problem.withVariable? p
  | .rows rs => rs.foldlM Problem.withRow? p

/-- Why words do not start with a section that the problem accepts. -/
inductive Fault (p : Problem Float) : List Word → Failure LoadError → Prop
  | keyword {k : Word} {ws : List Word} {e : LoadError} (hk : Field.keyword k = .error e)
      (he : k.1 ≠ "end") : Fault p (k :: ws) (.error e)
  | title {k : Word} {ws : List Word} {c : Failure LoadError} (hk : Field.keyword k = .ok .title)
      (h : Lacks [Field.name.check] ws c) : Fault p (k :: ws) c
  | vars {k : Word} {ws : List Word} {c : Failure LoadError}
      (hk : Field.keyword k = .ok .vars) (h : Grammar.vars.counted.Fault p ws c) :
      Fault p (k :: ws) c
  | rows {k : Word} {ws : List Word} {c : Failure LoadError} (hk : Field.keyword k = .ok .rows)
      (h : (Grammar.rows limit).counted.Fault p ws c) : Fault p (k :: ws) c

end TextSection

/-- The sections of a text. -/
def Grammar.sections : Grammar TextSection where
  Spelled := TextSection.Spelled limit
  add := TextSection.add
  Fault := TextSection.Fault limit

/-! ### Texts -/

namespace Format

/-- The problem before the first word. -/
def start : Problem Float := { name := "unnamed" }

/-- The words, up to the first `end` in the place of a keyword or to their end, are sections that
make a problem of the one before them. -/
def Describes (p : Problem Float) (ws : List Word) (q : Problem Float) : Prop :=
  ∃ ss u v, ws = u ++ v ∧ Spells (TextSection.Spelled limit) ss u ∧
    ss.foldlM TextSection.add p = some q ∧ ∀ w ∈ v.head?, w.1 = "end"

/-- The words describe the problem, and it has a variable unless it need not have one. -/
def Loads (allowEmpty : Bool) (ws : List Word) (p : Problem Float) : Prop :=
  Describes limit start ws p ∧ (allowEmpty = true ∨ p.vars ≠ #[])

/-- The cause for which words do not load. -/
inductive Faulty (allowEmpty : Bool) (ws : List Word) : Failure LoadError → Prop
  | item {ss : List TextSection} {c : Failure LoadError}
      (h : (Grammar.sections limit).FaultAfter ss start ws c) : Faulty allowEmpty ws c
  | empty {p : Problem Float} (h : Describes limit start ws p) (ha : allowEmpty = false)
      (hp : p.vars = #[]) : Faulty allowEmpty ws (.error .noVariables)

end Format
end Milp
