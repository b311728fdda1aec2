import Mathlib.Data.List.Forall2
import Mathlib.Tactic.SplitIfs
import Milp.Proofs.Problem.Words

/-!
# The scanner finds the words

A scanner works on bytes and byte offsets. This file says what it does in terms of characters and
words, and that no slice it takes cuts a character.

* `linesOf_encode`, `decode?_encode` — the lines of a text in UTF-8 are the lines of the text.
* `Cursor.At` — a cursor stands between two parts of its line; `Cursor.word?_eq`, `Cursor.fill_eq` —
  what is sliced out of the line.
* `Scanner.Left` — what a scanner has still to give; `Scanner.next_of_left` — each call gives the first
  of it.
* `Lexeme.ofBytes_eq`, `Scanner.calls_ofText` — all words of some bytes, and any number of calls on a
  text.
-/

namespace Milp

/-! ### Lines in UTF-8 -/

/-- The bytes of a text in UTF-8. -/
def encode (cs : List Char) : List UInt8 := cs.flatMap String.utf8EncodeChar

theorem newline_eq_ofNat {n : Nat} : (10 : UInt8) = UInt8.ofNat n ↔ n % 256 = 10 := by
  rw [← UInt8.toNat_inj, UInt8.toNat_ofNat', eq_comm]
  rfl

/-- Of all characters, only the newline has the byte 10 in UTF-8. -/
theorem mem_utf8EncodeChar {c : Char} : 10 ∈ String.utf8EncodeChar c ↔ c = '\n' := by
  constructor
  · intro h
    suffices hv : c.val.toNat = 10 from Char.ext (UInt32.toNat_inj.mp hv)
    unfold String.utf8EncodeChar at h
    simp only at h
    split_ifs at h <;>
      simp only [List.mem_cons, List.not_mem_nil, or_false, newline_eq_ofNat] at h <;> omega
  · rintro rfl
    decide

/-- What a text is in UTF-8 is read as that text. -/
theorem decode?_encode (cs : List Char) : decode? (encode cs) = some cs := by
  have valid : ByteArray.IsValidUTF8 ⟨(encode cs).toArray⟩ := ⟨cs, by
    rw [List.utf8Encode]
    apply ByteArray.ext
    simp [encode]⟩
  rw [decode?, String.fromUTF8?, dif_pos valid, Option.map_some]
  congr 1
  apply String.ofList_injective
  rw [String.ofList_toList, ← String.toByteArray_inj]
  apply ByteArray.ext
  simp [encode, String.fromUTF8, List.utf8Encode]

/-- Only what a text is in UTF-8 is read as that text. -/
theorem eq_encode_of_decode? {bytes : List UInt8} {cs : List Char} (h : decode? bytes = some cs) :
    bytes = encode cs := by
  obtain ⟨text, read, rfl⟩ := Option.map_eq_some_iff.mp h
  obtain ⟨valid, rfl⟩ : ∃ valid, String.fromUTF8 ⟨bytes.toArray⟩ valid = text := by
    simpa [String.fromUTF8?] using read
  have same : (String.fromUTF8 ⟨bytes.toArray⟩ valid).toList.utf8Encode = ⟨bytes.toArray⟩ :=
    String.utf8Encode_toList
  simpa [List.utf8Encode, encode] using (congrArg (·.data.toList) same).symm

/-- A character takes at least one byte. -/
theorem length_le_length_encode (cs : List Char) : cs.length ≤ (encode cs).length := by
  induction cs with
  | nil => exact Nat.le_refl 0
  | cons c cs ih =>
    have pos : 0 < c.utf8Size := c.utf8Size_pos
    simp only [encode, List.flatMap_cons, List.length_append, List.length_cons,
      String.length_utf8EncodeChar] at ih ⊢
    omega

/-- The bytes of a text are those of its characters. -/
theorem data_toUTF8 (text : String) : text.toUTF8.data.toList = encode text.toList := by
  rw [String.toUTF8_eq_toByteArray, ← String.utf8Encode_toList, List.utf8Encode]
  simp [encode]

/-- What stands before the first end belongs to the first line. -/
theorem linesOf_append {β : Type} {isEnd : β → Bool} {xs : List β} (nonempty : xs ≠ [])
    (inner : ∀ x ∈ xs, isEnd x = false) (ys : List β) :
    linesOf isEnd (xs ++ ys) = match linesOf isEnd ys with
      | [] => [xs]
      | l :: ls => (xs ++ l) :: ls := by
  induction xs with
  | nil => exact absurd rfl nonempty
  | cons x xs ih =>
    obtain ⟨hx, inner⟩ := List.forall_mem_cons.mp inner
    cases xs with
    | nil => cases h : linesOf isEnd ys <;> simp [linesOf, hx, h]
    | cons x' xs =>
      have tail := ih (by simp) inner
      rw [List.cons_append, linesOf, hx, tail]
      cases linesOf isEnd ys <;> rfl

/-- The lines of a text in UTF-8 are the lines of the text. -/
theorem linesOf_encode (cs : List Char) :
    linesOf (· == 10) (encode cs) = (linesOf (· == '\n') cs).map encode := by
  induction cs with
  | nil => rfl
  | cons c cs ih =>
    have bytes : encode (c :: cs) = String.utf8EncodeChar c ++ encode cs := List.flatMap_cons
    rw [bytes]
    by_cases newline : c = '\n'
    · subst newline
      have one : String.utf8EncodeChar '\n' = [10] := by decide
      rw [one, List.singleton_append, linesOf, linesOf, ih]
      simp [encode, one]
    · have inner : ∀ b ∈ String.utf8EncodeChar c, (b == 10) = false := fun b hb =>
        beq_eq_false_iff_ne.mpr fun eq => newline (mem_utf8EncodeChar.mp (eq ▸ hb))
      rw [linesOf_append String.utf8EncodeChar_ne_nil inner, ih]
      cases h : linesOf (· == '\n') cs <;> simp [linesOf, newline, h, encode]

/-- All that is in a sequence is in its lines. -/
theorem flatten_linesOf {β : Type} (isEnd : β → Bool) (bs : List β) :
    (linesOf isEnd bs).flatten = bs := by
  induction bs with
  | nil => rfl
  | cons b bs ih =>
    rw [linesOf]
    cases isEnd b
    · cases h : linesOf isEnd bs <;> simp_all
    · simp [ih]

/-- The lines of a text are its parts between newlines, each but the last with the newline that ends
it. A part without characters at the end is no line. -/
theorem linesOf_eq (cs : List Char) : ∃ parts extra,
    cs.splitOnP (· == '\n') = parts ++ extra ∧ (extra = [] ∨ extra = [[]]) ∧
      List.Forall₂ (fun l p => l = p ∨ l = p ++ ['\n']) (linesOf (· == '\n') cs) parts := by
  induction cs with
  | nil => exact ⟨[], [[]], rfl, .inr rfl, .nil⟩
  | cons c cs ih =>
    obtain ⟨parts, extra, split, end_, related⟩ := ih
    rw [List.splitOnP_cons_eq_if_modifyHead, split]
    by_cases newline : c = '\n'
    · subst newline
      exact ⟨[] :: parts, extra, rfl, end_, .cons (.inr rfl) related⟩
    · simp only [linesOf, beq_iff_eq, if_neg newline]
      generalize linesOf (· == '\n') cs = lines at related
      cases related with
      | nil =>
        have last : extra = [[]] := end_.resolve_left fun none =>
          List.splitOnP_ne_nil _ _ (by rw [split, none]; rfl)
        exact ⟨[[c]], [], by simp [last], .inl rfl, .cons (.inl rfl) .nil⟩
      | @cons l p ls ps first related =>
        exact ⟨(c :: p) :: ps, extra, rfl, end_,
          .cons (first.imp (congrArg (c :: ·)) (congrArg (c :: ·))) related⟩

/-! ### Slices -/

@[simp] theorem byteLength_nil : byteLength [] = 0 := rfl

@[simp] theorem byteLength_cons (c : Char) (cs : List Char) :
    byteLength (c :: cs) = c.utf8Size + byteLength cs := rfl

@[simp] theorem byteLength_append (xs ys : List Char) :
    byteLength (xs ++ ys) = byteLength xs + byteLength ys := by
  induction xs with
  | nil => simp
  | cons c xs ih => simp [ih, Nat.add_assoc]

/-- The part of a text behind another part. -/
theorem sliceFrom?_append (xs ys : List Char) :
    sliceFrom? (xs ++ ys) (byteLength xs) = some ys := by
  induction xs with
  | nil => cases ys <;> rfl
  | cons c xs ih =>
    have pos : 0 < c.utf8Size := c.utf8Size_pos
    obtain ⟨n, hn⟩ : ∃ n, byteLength (c :: xs) = n + 1 :=
      Nat.exists_eq_add_one.mpr (by simp only [byteLength_cons]; omega)
    rw [hn, List.cons_append, sliceFrom?, ← hn, byteLength_cons, if_pos (Nat.le_add_right _ _),
      Nat.add_sub_cancel_left, ih]

/-- The part of a text before another part. -/
theorem sliceTo?_append (xs ys : List Char) : sliceTo? (xs ++ ys) (byteLength xs) = some xs := by
  induction xs with
  | nil => cases ys <;> rfl
  | cons c xs ih =>
    have pos : 0 < c.utf8Size := c.utf8Size_pos
    obtain ⟨n, hn⟩ : ∃ n, byteLength (c :: xs) = n + 1 :=
      Nat.exists_eq_add_one.mpr (by simp only [byteLength_cons]; omega)
    rw [hn, List.cons_append, sliceTo?, ← hn, byteLength_cons, if_pos (Nat.le_add_right _ _),
      Nat.add_sub_cancel_left, ih, Option.map_some]

/-- A character of a kind is looked for behind those that are not. -/
theorem byteOf?_eq (kind : Char → Bool) (cs : List Char) : byteOf? kind cs =
    if cs.any kind then some (byteLength (cs.takeWhile (!kind ·))) else none := by
  induction cs with
  | nil => rfl
  | cons c cs ih =>
    rw [byteOf?, ih]
    cases hc : kind c
    · by_cases found : cs.any kind <;> simp [hc, found]
    · simp [hc]

/-- Without a character of a kind, nothing ends the run of the others. -/
theorem takeWhile_of_not_any {kind : Char → Bool} {cs : List Char} (h : ¬ cs.any kind = true) :
    cs.takeWhile (!kind ·) = cs := by
  rw [List.takeWhile_eq_self_iff]
  intro c hc
  cases hk : kind c
  · rfl
  · exact absurd (List.any_eq_true.mpr ⟨c, hc, hk⟩) h

/-- The length of the part before the first character of a kind. -/
theorem getD_byteOf? (kind : Char → Bool) (cs : List Char) :
    (byteOf? kind cs).getD (byteLength cs) = byteLength (cs.takeWhile (!kind ·)) := by
  rw [byteOf?_eq]
  split
  next => rfl
  next none => rw [takeWhile_of_not_any none]; rfl

/-! ### A line -/

namespace Cursor

/-- Whether a cursor stands between two parts of its line. -/
structure At (c : Cursor) (before rest : List Char) : Prop where
  buffer_eq : c.buffer = before ++ rest
  offset_eq : c.offset = byteLength before

/-- The next word is the run of other characters behind the blanks; then the cursor stands behind
it. -/
theorem At.word?_eq {c : Cursor} {before rest : List Char} (h : c.At before rest) :
    (rest.dropWhile Lexeme.isBlank = [] ∧ c.word? = .ok none) ∨
    (rest.dropWhile Lexeme.isBlank ≠ [] ∧ ∃ c' before',
      c.word? = .ok (some (String.ofList
        ((rest.dropWhile Lexeme.isBlank).takeWhile (!Lexeme.isBlank ·)), c')) ∧
      c'.line = c.line ∧
      c'.At before' ((rest.dropWhile Lexeme.isBlank).dropWhile (!Lexeme.isBlank ·))) := by
  obtain ⟨buffer_eq, offset_eq⟩ := h
  have rest_eq : sliceFrom? c.buffer c.offset = some rest := by
    rw [buffer_eq, offset_eq, sliceFrom?_append]
  have parts : rest = rest.takeWhile Lexeme.isBlank ++ rest.dropWhile Lexeme.isBlank :=
    List.takeWhile_append_dropWhile.symm
  generalize rest.takeWhile Lexeme.isBlank = blanks at parts
  generalize trimmed_eq : rest.dropWhile Lexeme.isBlank = trimmed at parts
  have parts' : trimmed = trimmed.takeWhile (!Lexeme.isBlank ·) ++
      trimmed.dropWhile (!Lexeme.isBlank ·) := List.takeWhile_append_dropWhile.symm
  by_cases empty : trimmed = []
  · refine .inl ⟨empty, ?_⟩
    simp only [word?, rest_eq, sliced, bind, Except.bind, pure, Except.pure, trimmed_eq, empty,
      List.isEmpty_nil, if_true]
  · refine .inr ⟨empty, ?_⟩
    have length_eq := getD_byteOf? Lexeme.isBlank trimmed
    generalize trimmed.takeWhile (!Lexeme.isBlank ·) = w at parts' length_eq ⊢
    generalize trimmed.dropWhile (!Lexeme.isBlank ·) = after at parts' ⊢
    have start_eq : c.offset + (byteLength rest - byteLength trimmed) =
        byteLength (before ++ blanks) := by
      rw [offset_eq, parts]
      simp
    have slice_eq : (sliceFrom? c.buffer (byteLength (before ++ blanks))).bind
        (sliceTo? · (byteLength w)) = some w := by
      rw [buffer_eq, parts, ← List.append_assoc, sliceFrom?_append, Option.bind_some, parts',
        sliceTo?_append]
    refine ⟨{ c with offset := byteLength (before ++ blanks) + byteLength w },
      before ++ blanks ++ w, ?_, rfl, ?_, ?_⟩
    · have full : trimmed.isEmpty = false := by simpa using empty
      simp only [word?, rest_eq, sliced, trimmed_eq, length_eq, start_eq, slice_eq, bind, Except.bind,
        pure, Except.pure, full, Bool.false_eq_true, if_false]
    · show c.buffer = _
      rw [buffer_eq, parts, parts']
      simp
    · simp [Nat.add_assoc]

/-- A line that is read is kept up to its first `#`, and the cursor stands before it. -/
theorem fill_eq (c : Cursor) (bytes : List UInt8) : c.fill bytes = match decode? bytes with
    | none => .error (.error .notText)
    | some text => .ok { buffer := text.takeWhile (· != '#'), offset := 0, line := c.line + 1 } := by
  rw [fill]
  cases decode? bytes with
  | none => rfl
  | some text =>
    have found := byteOf?_eq (· == '#') text
    by_cases hash : text.any (· == '#') = true
    · have kept : sliceTo? text (byteLength (text.takeWhile (· != '#'))) =
          some (text.takeWhile (· != '#')) := by
        calc sliceTo? text (byteLength (text.takeWhile (· != '#')))
          _ = sliceTo? (text.takeWhile (· != '#') ++ text.dropWhile (· != '#'))
                (byteLength (text.takeWhile (· != '#'))) := by rw [List.takeWhile_append_dropWhile]
          _ = _ := sliceTo?_append ..
      rw [if_pos hash] at found
      change byteOf? (· == '#') text = some (byteLength (text.takeWhile (· != '#'))) at found
      simp only [found, kept]
      rfl
    · have kept : text.takeWhile (· != '#') = text := takeWhile_of_not_any hash
      rw [if_neg hash] at found
      simp only [found, kept]
      rfl

end Cursor

/-! ### The words of lines -/

namespace Word

/-- The words of the lines that are given by their bytes, up to the first line that is not text. -/
def ofLines : Nat → List (List UInt8) → List Word
  | _, [] => []
  | line, bytes :: rest =>
    match decode? bytes with
    | none => []
    | some text => ofLine line text ++ ofLines (line + 1) rest

/-- The words of a text that is given by its bytes, up to the first line that is not text. -/
def ofBytes (bytes : ByteArray) : List Word := ofLines 1 (linesOf (· == 10) bytes.data.toList)

/-- A part of a text has no more words than characters. -/
theorem length_split_le (cs : List Char) : (split cs).length ≤ cs.length := by
  induction cs with
  | nil => exact Nat.le_refl 0
  | cons c cs ih =>
    obtain ⟨v, vs, hv⟩ := List.exists_cons_of_ne_nil (List.splitOnP_ne_nil Lexeme.isBlank cs)
    rw [split, hv] at ih
    rw [split, List.splitOnP_cons_eq_if_modifyHead, hv]
    cases Lexeme.isBlank c <;> cases hw : v.isEmpty <;> simp_all <;> omega

theorem length_ofLine_le (line : Nat) (cs : List Char) : (ofLine line cs).length ≤ cs.length := by
  have kept : (cs.takeWhile (· != '#')).length ≤ cs.length := (List.takeWhile_sublist _).length_le
  have words := length_split_le (cs.takeWhile (· != '#'))
  calc (ofLine line cs).length
    _ = (split (cs.takeWhile (· != '#'))).length := List.length_map _
    _ ≤ cs.length := words.trans kept

/-- Lines have no more words than bytes. -/
theorem length_ofLines_le (line : Nat) (lines : List (List UInt8)) :
    (ofLines line lines).length ≤ lines.flatten.length := by
  induction lines generalizing line with
  | nil => exact Nat.le_refl 0
  | cons bytes rest ih =>
    rw [ofLines]
    cases text : decode? bytes with
    | none => exact Nat.zero_le _
    | some cs =>
      have words := length_ofLine_le line cs
      have chars := length_le_length_encode cs
      have later := ih (line + 1)
      rw [← eq_encode_of_decode? text] at chars
      simp only [List.length_append, List.flatten_cons]
      omega

/-- A blank at the end of a part is no part of a word. -/
theorem split_concat (cs : List Char) {b : Char} (blank : Lexeme.isBlank b = true) :
    split (cs ++ [b]) = split cs := by
  have parts : (cs ++ [b]).splitOnP Lexeme.isBlank = cs.splitOnP Lexeme.isBlank ++ [[]] := by
    induction cs with
    | nil => simp [List.splitOnP_cons_eq_if_modifyHead, blank]
    | cons c cs ih =>
      obtain ⟨v, vs, hv⟩ := List.exists_cons_of_ne_nil (List.splitOnP_ne_nil Lexeme.isBlank cs)
      rw [List.cons_append, List.splitOnP_cons_eq_if_modifyHead, ih,
        List.splitOnP_cons_eq_if_modifyHead, hv]
      split <;> rfl
  simp [split, parts]

/-- A newline at the end of a line is no part of a word. -/
theorem ofLine_concat (line : Nat) (cs : List Char) :
    ofLine line (cs ++ ['\n']) = ofLine line cs := by
  have kept : split ((cs ++ ['\n']).takeWhile (· != '#')) = split (cs.takeWhile (· != '#')) := by
    rw [List.takeWhile_append]
    split
    next all =>
      have whole : cs.takeWhile (· != '#') = cs :=
        (List.takeWhile_sublist _).eq_of_length all
      rw [whole]
      exact split_concat cs (by decide)
    next => rfl
  exact congrArg (List.map fun w => (String.ofList w, line)) kept

/-- The words of the lines of a text are the words of its parts between newlines. -/
theorem ofLines_encode (line : Nat) (cs : List Char) :
    ofLines line ((linesOf (· == '\n') cs).map encode) =
      ((cs.splitOnP (· == '\n')).zipIdx line).flatMap fun l => ofLine l.2 l.1 := by
  obtain ⟨parts, extra, split, last, related⟩ := linesOf_eq cs
  have words : ofLines line ((linesOf (· == '\n') cs).map encode) =
      (parts.zipIdx line).flatMap fun l => ofLine l.2 l.1 := by
    clear split
    generalize linesOf (· == '\n') cs = lines at related
    induction related generalizing line with
    | nil => rfl
    | @cons l p lines parts first related ih =>
      have first : ofLine line l = ofLine line p := by
        obtain rfl | rfl := first
        · rfl
        · exact ofLine_concat line p
      rw [List.map_cons, ofLines, decode?_encode, List.zipIdx_cons, List.flatMap_cons]
      simp only [first, ih]
  rw [words, split, List.zipIdx_append, List.flatMap_append]
  obtain rfl | rfl := last
  · simp
  · simp [ofLine]

/-- The words of a text that is given by its bytes. -/
theorem ofBytes_toUTF8 (text : String) : ofBytes text.toUTF8 = ofText text := by
  rw [ofBytes, data_toUTF8, linesOf_encode, ofLines_encode]
  rfl

end Word

/-- Whether all lines are text. -/
def areText (lines : List (List UInt8)) : Bool := lines.all fun bytes => (decode? bytes).isSome

/-- The lines of a text in UTF-8 are text. -/
theorem areText_encode (lines : List (List Char)) : areText (lines.map encode) = true := by
  simp [areText, decode?_encode]

namespace Lexeme

/-- The mark behind the words of lines, if one of them is not text. -/
def markOf (lines : List (List UInt8)) : List Lexeme :=
  if areText lines then [] else [.broken (.error .notText)]

/-- What is found in the lines that follow a line. -/
def ofLines (line : Nat) (lines : List (List UInt8)) : List Lexeme :=
  ofWords (Word.ofLines line lines) ++ markOf lines

/-- A line that is not text ends the words. -/
theorem ofLines_broken (line : Nat) {bytes : List UInt8} (rest : List (List UInt8))
    (h : decode? bytes = none) : ofLines line (bytes :: rest) = [.broken (.error .notText)] := by
  simp [ofLines, markOf, areText, Word.ofLines, h, ofWords]

/-- The words of a line that is text, and what is found behind it. -/
theorem ofLines_text (line : Nat) {bytes : List UInt8} {text : List Char}
    (rest : List (List UInt8)) (h : decode? bytes = some text) :
    ofLines line (bytes :: rest) =
      ofWords (Word.ofLine line text) ++ ofLines (line + 1) rest := by
  simp [ofLines, markOf, areText, Word.ofLines, h, ofWords_append]

/-- In the bytes of a text, its words are found. -/
theorem ofLines_toUTF8 (text : String) :
    ofLines 1 (linesOf (· == 10) text.toUTF8.data.toList) = ofWords (Word.ofText text) := by
  rw [ofLines, ← Word.ofBytes, Word.ofBytes_toUTF8, data_toUTF8, linesOf_encode, markOf,
    if_pos (areText_encode _), List.append_nil]

/-- In lines, no more is found than their bytes and a mark. -/
theorem length_ofLines_le (line : Nat) (lines : List (List UInt8)) :
    (ofLines line lines).length ≤ lines.flatten.length + 1 := by
  have words := Word.length_ofLines_le line lines
  have mark : (markOf lines).length ≤ 1 := by
    rw [markOf]
    split <;> simp
  calc (ofLines line lines).length
    _ = (Word.ofLines line lines).length + (markOf lines).length := by simp [ofLines]
    _ ≤ lines.flatten.length + 1 := Nat.add_le_add words mark

end Lexeme

/-! ### The scanner -/

/-- What is left for a cursor and the lines behind it. -/
def Cursor.Left (c : Cursor) (lines : List (List UInt8)) (left : List Lexeme) : Prop :=
  ∃ before rest, c.At before rest ∧ left =
    Lexeme.ofWords ((Word.split rest).map fun w => (String.ofList w, c.line)) ++
      Lexeme.ofLines (c.line + 1) lines

/-- The next word of the line is the first of what is left; without one, that is in the lines
behind it. -/
theorem Cursor.Left.word {c : Cursor} {lines : List (List UInt8)} {left : List Lexeme}
    (h : c.Left lines left) :
    (c.word? = .ok none ∧ left = Lexeme.ofLines (c.line + 1) lines) ∨
    ∃ text c' left', c.word? = .ok (some (text, c')) ∧ c'.line = c.line ∧
      left = .word text c.line :: left' ∧ c'.Left lines left' := by
  obtain ⟨before, rest, at_, rfl⟩ := h
  obtain ⟨empty, none⟩ | ⟨full, c', before', found, same, at'⟩ := at_.word?_eq
  · obtain ⟨-, none'⟩ | ⟨full, -⟩ := Word.split_cases rest
    · exact .inl ⟨none, by rw [none']; rfl⟩
    · exact absurd empty full
  · obtain ⟨empty, -⟩ | ⟨-, first⟩ := Word.split_cases rest
    · exact absurd empty full
    · refine .inr ⟨_, c', _, found, same, ?_, before', _, at', rfl⟩
      rw [first, same]
      rfl

namespace Scanner

/-- What a scanner has still to give. -/
def Left (s : Scanner) (left : List Lexeme) : Prop := s.toCursor.Left s.lines left

/-- A call answers with the first of what is left, and leaves the rest. -/
inductive Answers : Attempt LoadError (Option String × Scanner) → List Lexeme → Prop
  | word {text : String} {s : Scanner} {left : List Lexeme} (h : s.Left left) :
    Answers (.ok (some text, s)) (.word text s.line :: left)
  | broken (cause : Failure LoadError) : Answers (.error cause) [.broken cause]
  | done {s : Scanner} (h : s.Left []) : Answers (.ok (none, s)) []

/-- A cursor answers with the first of what is left. -/
theorem nextFrom_of_left {c : Cursor} {lines : List (List UInt8)} {left : List Lexeme}
    (h : c.Left lines left) : Answers (nextFrom c lines) left := by
  -- on the lines, for behind a line without words the next one is read
  induction lines generalizing c left with
  | nil =>
    obtain ⟨none, rfl⟩ | ⟨text, c', left', found, same, rfl, h'⟩ := h.word
    · rw [nextFrom, none]
      exact .done ⟨[], [], ⟨rfl, rfl⟩, rfl⟩
    · rw [nextFrom, found, ← same]
      exact .word h'
  | cons bytes lines ih =>
    obtain ⟨none, rfl⟩ | ⟨text, c', left', found, same, rfl, h'⟩ := h.word
    · rw [nextFrom, none]
      simp only [bind, Except.bind, Cursor.fill_eq]
      cases text : decode? bytes with
      | none =>
        rw [Lexeme.ofLines_broken _ _ text]
        exact .broken _
      | some text' =>
        rw [Lexeme.ofLines_text _ _ text]
        exact ih ⟨[], text'.takeWhile (· != '#'), ⟨rfl, rfl⟩, rfl⟩
    · rw [nextFrom, found, ← same]
      exact .word h'

/-- Each call answers with the first of what is left. -/
theorem next_of_left {s : Scanner} {left : List Lexeme} (h : s.Left left) :
    Answers s.next left :=
  nextFrom_of_left h

/-- The scanner of some bytes has the words of their lines to give. -/
theorem ofBytes_left (bytes : ByteArray) :
    (ofBytes bytes).Left (Lexeme.ofLines 1 (linesOf (· == 10) bytes.data.toList)) :=
  ⟨[], [], ⟨rfl, rfl⟩, rfl⟩

/-- The scanner of a text has its words to give. -/
theorem ofText_left (text : String) : (ofText text).Left (Lexeme.ofWords (Word.ofText text)) := by
  have left := ofBytes_left text.toUTF8
  rwa [Lexeme.ofLines_toUTF8] at left

/-- With enough rounds, all that is left is collected. -/
theorem lexemes_of_left {rounds : Nat} {s : Scanner} {left : List Lexeme} (h : s.Left left)
    (hr : left.length ≤ rounds) : s.lexemes rounds = left := by
  induction rounds generalizing s left with
  | zero => exact (List.length_eq_zero_iff.mp (Nat.le_zero.mp hr)).symm
  | succ rounds ih =>
    have answer := next_of_left h
    rw [lexemes]
    generalize s.next = result at answer
    cases answer with
    | word h' => simp only [ih h' (Nat.le_of_succ_le_succ hr)]
    | broken cause => rfl
    | done h' => rfl

/-- What so many calls answer: words with the lines on which the scanner stands behind them. -/
def calls : Nat → Scanner → List (Attempt LoadError (Option Word))
  | 0, _ => []
  | n + 1, s =>
    match s.next with
    | .error cause => [.error cause]
    | .ok (text?, s) => .ok (text?.map (·, s.line)) :: calls n s

theorem calls_of_left (n : Nat) {s : Scanner} {ws : List Word}
    (h : s.Left (Lexeme.ofWords ws)) : s.calls n = (List.range n).map fun i => .ok ws[i]? := by
  induction n generalizing s ws with
  | zero => rfl
  | succ n ih =>
    have answer := next_of_left h
    rw [calls, List.range_succ_eq_map]
    generalize s.next = result at answer
    cases ws with
    | nil =>
      cases answer with
      | @done s' h' =>
        have later : s'.calls n = (List.range n).map fun i => .ok ([] : List Word)[i]? := ih h'
        simp only [later, List.getElem?_nil, List.map_cons, List.map_map]
        rfl
    | cons w ws =>
      obtain ⟨text, line⟩ := w
      cases answer with
      | word h' =>
        simp only [ih h', List.map_cons, List.map_map]
        rfl

/-- However often the scanner of a text is called, it gives the words of the text, and nothing for ever
after. -/
theorem calls_ofText (n : Nat) (text : String) :
    (ofText text).calls n = (List.range n).map fun i => .ok (Word.ofText text)[i]? :=
  calls_of_left n (ofText_left text)

end Scanner

namespace Lexeme

/-- A round for each byte and one more collect what is found in the lines of some bytes. -/
theorem lexemes_ofBytes {rounds : Nat} {bytes : ByteArray} (h : bytes.size + 1 ≤ rounds) :
    (Scanner.ofBytes bytes).lexemes rounds =
      ofLines 1 (linesOf (· == 10) bytes.data.toList) := by
  refine Scanner.lexemes_of_left (Scanner.ofBytes_left bytes) (Nat.le_trans ?_ h)
  have enough := length_ofLines_le 1 (linesOf (· == 10) bytes.data.toList)
  rwa [flatten_linesOf, Array.length_toList] at enough

/-- The lexemes of some bytes are the words up to the first line that is not text, and a mark if there
is such a line. -/
theorem ofBytes_eq (bytes : ByteArray) : ofBytes bytes =
    ofWords (Word.ofBytes bytes) ++ markOf (linesOf (· == 10) bytes.data.toList) :=
  lexemes_ofBytes (Nat.le_refl _)

/-- The lexemes of a text are its words. -/
theorem ofText_eq (text : String) : ofText text = ofWords (Word.ofText text) := by
  rw [ofText, ofBytes_eq]
  exact ofLines_toUTF8 text

end Lexeme
end Milp
