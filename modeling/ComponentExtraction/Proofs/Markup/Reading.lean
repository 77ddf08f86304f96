import ComponentExtraction.Markup.Nesting
import ComponentExtraction.Proofs.Text.Boundary

/-!
# Reading pieces

What is read from a cursor, and the cursor behind it, as one relation (`Reads`), with
one equation for each kind of piece. Whole pieces are read one after the other
(`Through`), and there is only one way to do so: of two places that are reached by
whole pieces, the later one is reached from the earlier one.
-/

namespace ComponentExtraction

namespace Text

@[simp] theorem stripStart?_append (start text : Text) :
    stripStart? start (start ++ text) = some text := by
  induction start with
  | nil => rw [List.nil_append, stripStart?]
  | cons c start ih => rw [List.cons_append, stripStart?, if_pos rfl, ih]

theorem utf8Size_of_isQuote {c : Char} (quote : isQuote c = true) : c.utf8Size = 1 := by
  simp only [isQuote, Bool.or_eq_true, beq_iff_eq] at quote
  rcases quote with rfl | rfl <;> rfl

theorem not_isSpace_of_isQuote {c : Char} (quote : isQuote c = true) : isSpace c = false := by
  simp only [isQuote, Bool.or_eq_true, beq_iff_eq] at quote
  rcases quote with rfl | rfl <;> decide

theorem toNat_lt_of_isIdentifierPart {c : Char} (part : isIdentifierPart c = true) :
    c.toNat < 128 := by
  have bounded : ∀ last : Char, last.toNat < 128 → c ≤ last → c.toNat < 128 := by
    intro last small before
    have : c.toNat ≤ last.toNat := before
    omega
  simp only [isIdentifierPart, isIdentifierStart, isLetter, isDigit, Bool.or_eq_true,
    Bool.and_eq_true, decide_eq_true_eq, beq_iff_eq] at part
  rcases part with (((⟨-, before⟩ | ⟨-, before⟩) | rfl) | rfl) | ⟨-, before⟩
  · exact bounded 'z' (by decide) before
  · exact bounded 'Z' (by decide) before
  · decide
  · decide
  · exact bounded '9' (by decide) before

/-- Characters of identifiers can stand in names of markup, in upper and in lower
case. -/
theorem of_isIdentifierPart {c : Char} (part : isIdentifierPart c = true) :
    Markup.isNamePart c = true ∧ isIdentifierPart c.toLower = true ∧
      isIdentifierPart c.toUpper = true := by
  have table : ∀ code < 128, isIdentifierPart (Char.ofNat code) = true →
      Markup.isNamePart (Char.ofNat code) = true ∧ isIdentifierPart (Char.ofNat code).toLower = true ∧
        isIdentifierPart (Char.ofNat code).toUpper = true := by decide
  have found := table c.toNat (toNat_lt_of_isIdentifierPart part)
  rw [Char.ofNat_toNat] at found
  exact found part

end Text

namespace Markup

variable {c d e : Cursor} {name value tail : Text}

theorem readValue_quoted (name : Text) {quote : Char} (isQuote : Text.isQuote quote = true)
    (outside : quote ∉ value) (rest_eq : c.rest = quote :: (value ++ quote :: tail)) :
    readValue name c = ⟨value, c.offset + 1, ⟨c.offset + value.byteLength + 2, tail⟩, []⟩ := by
  have size := Text.utf8Size_of_isQuote isQuote
  have run : ∀ other ∈ value, (other != quote) = true := by
    intro other member
    simp only [bne_iff_ne]
    rintro rfl
    exact outside member
  have taken : (value ++ quote :: tail).takeWhile (· != quote) = value :=
    (Cursor.takeWhile_eq run (by simp)).1
  have opened : c.skip 1 = ⟨c.offset + 1, value ++ quote :: tail⟩ := by
    rw [Cursor.skip_one rest_eq, size]
  have closed : (⟨c.offset + 1, value ++ quote :: tail⟩ : Cursor).skip (value.length + 1) =
      ⟨c.offset + value.byteLength + 2, tail⟩ := by
    have skipped : (⟨c.offset + 1, value ++ quote :: tail⟩ : Cursor).skip
        (value ++ [quote]).length = ⟨_, tail⟩ := Cursor.skip_eq (by simp)
    rw [List.length_append, List.length_singleton] at skipped
    rw [skipped, Text.byteLength_append, Text.byteLength_cons, Text.byteLength_nil, size,
      Cursor.mk.injEq]
    exact ⟨by dsimp only; omega, rfl⟩
  unfold readValue
  rw [rest_eq]
  simp only [isQuote, if_true, taken, opened, closed]
  rw [if_pos (by simp)]

/-- What the reading of a tag gives, wherever the reading starts. Unlike
`TagBody` it does not depend on the cursor that the tag was read from. -/
structure TagOutcome where
  attributes : List Node
  selfClosing : Bool
  diagnostics : List Diagnostic
  after : Cursor

def TagBody.outcome (body : TagBody c) : TagOutcome :=
  ⟨body.attributes, body.selfClosing, body.diagnostics, body.after⟩

theorem outcome_readTagBody_end (tag : Text) (start : Nat)
    (rest_eq : (c.skipWhile Text.isSpace).rest = '>' :: tail) :
    (readTagBody tag start c).outcome = ⟨[], false, [], (c.skipWhile Text.isSpace).skip 1⟩ := by
  rw [readTagBody]
  dsimp only
  split
  · next empty => exact absurd (rest_eq.symm.trans empty) (by simp)
  · next first rest cons_eq =>
    cases rest_eq.symm.trans cons_eq
    rfl

theorem outcome_readTagBody_selfClosing (tag : Text) (start : Nat)
    (rest_eq : (c.skipWhile Text.isSpace).rest = '/' :: '>' :: tail) :
    (readTagBody tag start c).outcome = ⟨[], true, [], (c.skipWhile Text.isSpace).skip 2⟩ := by
  rw [readTagBody]
  dsimp only
  split
  · next empty => exact absurd (rest_eq.symm.trans empty) (by simp)
  · next first rest cons_eq =>
    cases rest_eq.symm.trans cons_eq
    rfl

/-- Whatever does not end the tag starts an attribute, slashes and angle brackets
apart. -/
theorem outcome_readTagBody_attribute (tag : Text) (start : Nat) {here : Cursor} {first : Char}
    {rest : Text} (here_eq : c.skipWhile Text.isSpace = here) (rest_eq : here.rest = first :: rest)
    (plain : first ≠ '/' ∧ first ≠ '>' ∧ first ≠ '<') (nonempty : here.rest ≠ []) :
    (readTagBody tag start c).outcome =
      let found := readAttribute here nonempty
      let more := (readTagBody tag start found.after).outcome
      ⟨found.value.toList ++ more.attributes, more.selfClosing,
        found.diagnostics ++ more.diagnostics, more.after⟩ := by
  subst here_eq
  rw [readTagBody]
  dsimp only
  split
  · next empty => exact absurd empty nonempty
  · next other rest' cons_eq =>
    cases rest_eq.symm.trans cons_eq
    simp only [plain, beq_iff_eq, Bool.false_and, Bool.or_self, if_false,
      beq_eq_false_iff_ne.mpr plain.1, beq_eq_false_iff_ne.mpr plain.2.2, Bool.false_eq_true]
    rfl

theorem not_isSpace_of_isNamePart {character : Char} (part : isNamePart character = true) :
    Text.isSpace character = false := by
  simp only [isNamePart, Text.isNameEnd, Bool.not_eq_true', Bool.or_eq_false_iff] at part
  exact part.1.1.1.1.1.1

theorem plain_of_isNamePart {character : Char} (part : isNamePart character = true) :
    character ≠ '/' ∧ character ≠ '>' ∧ character ≠ '<' := by
  refine ⟨?_, ?_, ?_⟩ <;>
  · rintro rfl
    exact absurd part (by decide)

theorem opening?_startTag {rest : Text} (letter : startsTagName rest = true) :
    opening? ('<' :: rest) = some .startTag := by
  cases rest with
  | nil => exact absurd letter (by simp [startsTagName])
  | cons first rest =>
    have plain : first ≠ '!' ∧ first ≠ '/' := by
      constructor <;>
      · rintro rfl
        exact absurd letter (by decide : ¬ Text.isLetter _ = true)
    have no_comment : "<!--".toList.isPrefixOf ('<' :: first :: rest) = false := by
      simp [List.isPrefixOf, plain.1.symm]
    have no_end : "</".toList.isPrefixOf ('<' :: first :: rest) = false := by
      simp [List.isPrefixOf, plain.2.symm]
    unfold opening?
    rw [no_comment, no_end]
    simp [List.isPrefixOf, letter]

theorem opening?_endTag {rest : Text} (letter : startsTagName rest = true) :
    opening? ('<' :: '/' :: rest) = some .endTag := by
  have no_comment : "<!--".toList.isPrefixOf ('<' :: '/' :: rest) = false := by
    simp [List.isPrefixOf]
  unfold opening?
  rw [no_comment]
  simp [List.isPrefixOf, letter]

theorem startsTagName_append {more : Text} (letter : startsTagName name = true) :
    startsTagName (name ++ more) = true := by
  cases name with
  | nil => exact absurd letter (by simp [startsTagName])
  | cons first rest => exact letter

theorem ne_nil_of_opening? {text : Text} {opening : Opening} (opens : opening? text = some opening) :
    text ≠ [] := by
  rintro rfl
  have none_eq : opening? [] = none := by decide
  exact absurd (none_eq.symm.trans opens) (by simp)

/-- A piece is read from a cursor, with the problems met in it; reading goes on at the
second cursor. -/
def Reads (c : Cursor) (entry : Piece × List Diagnostic) (after : Cursor) : Prop :=
  ∃ nonempty : c.rest ≠ [], entry = ((readPiece c nonempty).value,
    (readPiece c nonempty).diagnostics) ∧ after = (readPiece c nonempty).after

namespace Reads

variable {entry entry' : Piece × List Diagnostic}

theorem unique (h : Reads c entry d) (h' : Reads c entry' e) : entry = entry' ∧ d = e := by
  obtain ⟨nonempty, rfl, rfl⟩ := h
  obtain ⟨_, rfl, rfl⟩ := h'
  exact ⟨rfl, rfl⟩

theorem advances (h : Reads c entry d) : c.Advances d := by
  obtain ⟨nonempty, -, rfl⟩ := h
  exact (readPiece c nonempty).advances

theorem piecesFrom_eq (h : Reads c entry d) : piecesFrom c = entry :: piecesFrom d := by
  obtain ⟨nonempty, rfl, rfl⟩ := h
  rw [piecesFrom, dif_neg nonempty]

theorem of_opening? {opening : Opening} (opens : opening? c.rest = some opening)
    (nonempty : c.rest ≠ []) :
    let piece := match opening with
      | .comment => readComment c nonempty
      | .endTag => readEndTag c nonempty
      | .startTag => readStartTag c nonempty
    Reads c (piece.value, piece.diagnostics) piece.after := by
  intro piece
  have piece_eq : readPiece c nonempty = piece := by
    unfold readPiece
    split
    · next other =>
      cases opens.symm.trans other
      rfl
    · next other =>
      cases opens.symm.trans other
      rfl
    · next other =>
      cases opens.symm.trans other
      rfl
    · next other => exact absurd (opens.symm.trans other) (by simp)
  rw [← piece_eq]
  exact ⟨nonempty, rfl, rfl⟩

theorem startTag (opens : opening? c.rest = some .startTag) :
    let name := (c.skip 1).rest.takeWhile isNamePart
    let body := (readTagBody name c.offset ((c.skip 1).skipWhile isNamePart)).outcome
    Reads c (.startTag ⟨c.offset, body.after.offset⟩ name body.attributes body.selfClosing,
      body.diagnostics) body.after :=
  of_opening? opens (ne_nil_of_opening? opens)

/-- An end tag that is ended; blanks may stand behind its name. -/
theorem endTag (blanks : Text) (letter : startsTagName name = true)
    (parts : ∀ character ∈ name, isNamePart character = true)
    (blank : ∀ character ∈ blanks, Text.isSpace character = true)
    (rest_eq : c.rest = '<' :: '/' :: (name ++ (blanks ++ '>' :: tail))) :
    let stop := c.offset + (name.byteLength + blanks.byteLength + 3)
    Reads c (.endTag ⟨c.offset, stop⟩ name, []) ⟨stop, tail⟩ := by
  have opens : opening? c.rest = some .endTag := by
    rw [rest_eq]
    exact opening?_endTag (startsTagName_append letter)
  have name_ends : ∀ character ∈ (blanks ++ '>' :: tail).head?, isNamePart character = false := by
    cases blanks with
    | nil => simp [isNamePart, Text.isNameEnd]
    | cons first blanks =>
      intro character head_eq
      cases head_eq
      simp [isNamePart, Text.isNameEnd, blank first List.mem_cons_self]
  have nameStart : (c.skip 1).skip 1 = ⟨c.offset + 2, name ++ (blanks ++ '>' :: tail)⟩ := by
    rw [Cursor.skip_one rest_eq]
    rfl
  have nameEnd : (⟨c.offset + 2, name ++ (blanks ++ '>' :: tail)⟩ : Cursor).skipWhile isNamePart =
      ⟨c.offset + 2 + name.byteLength, blanks ++ '>' :: tail⟩ :=
    Cursor.skipWhile_eq rfl parts name_ends
  have behind : (⟨c.offset + 2 + name.byteLength, blanks ++ '>' :: tail⟩ : Cursor).skipWhile
      Text.isSpace = ⟨c.offset + 2 + name.byteLength + blanks.byteLength, '>' :: tail⟩ :=
    Cursor.skipWhile_eq rfl blank (by simp [Text.isSpace])
  have after : (⟨c.offset + 2 + name.byteLength + blanks.byteLength, '>' :: tail⟩ : Cursor).skip 1 =
      ⟨c.offset + (name.byteLength + blanks.byteLength + 3), tail⟩ := by
    rw [Cursor.skip_one rfl, Cursor.mk.injEq]
    exact ⟨by rw [show ('>' : Char).utf8Size = 1 from rfl]; dsimp only; omega, rfl⟩
  have read := of_opening? opens (ne_nil_of_opening? opens)
  dsimp only at read
  unfold readEndTag at read
  simp only [nameStart, (Cursor.takeWhile_eq parts name_ends).1, nameEnd, behind, after] at read
  exact read

theorem text (plain : opening? c.rest = none) (nonempty : c.rest ≠ []) :
    let length := textLength c.rest
    let found := interpolations c.offset (c.rest.take length)
    Reads c (.text ⟨c.offset, (c.skip length).offset⟩ found.1, found.2) (c.skip length) := by
  have piece_eq : readPiece c nonempty = readText c nonempty plain := by
    unfold readPiece
    split
    · next other => exact absurd (plain.symm.trans other) (by simp)
    · next other => exact absurd (plain.symm.trans other) (by simp)
    · next other => exact absurd (plain.symm.trans other) (by simp)
    · rfl
  exact ⟨nonempty, by rw [piece_eq]; rfl, by rw [piece_eq]; rfl⟩

end Reads

/-- Whole pieces are read from a cursor up to another one. What is proved
by going through the pieces of a source is proved by induction on this. -/
inductive Through : Cursor → List (Piece × List Diagnostic) → Cursor → Prop
  | refl (c : Cursor) : Through c [] c
  | step {c d e : Cursor} {entry : Piece × List Diagnostic}
      {more : List (Piece × List Diagnostic)} (reads : Reads c entry d)
      (through : Through d more e) : Through c (entry :: more) e

namespace Through

variable {found more : List (Piece × List Diagnostic)}

theorem trans (h : Through c found d) (h' : Through d more e) : Through c (found ++ more) e := by
  induction h with
  | refl => exact h'
  | step reads _ ih => exact .step reads (ih h')

theorem reaches (h : Through c found d) : c.Reaches d := by
  induction h with
  | refl c => exact .refl c
  | step reads _ ih => exact reads.advances.1.trans ih

theorem piecesFrom_eq (h : Through c found d) : piecesFrom c = found ++ piecesFrom d := by
  induction h with
  | refl => rfl
  | step reads _ ih => rw [reads.piecesFrom_eq, ih, List.cons_append]

theorem split (h : Through c found d) (h' : Through c more e) (ordered : d.offset ≤ e.offset) :
    ∃ between, Through d between e := by
  induction h generalizing more with
  | refl => exact ⟨more, h'⟩
  | step reads through ih =>
    cases h' with
    | refl =>
      have := reads.advances.offset_lt
      have := through.reaches.offset_le
      omega
    | step reads' through' =>
      obtain ⟨rfl, rfl⟩ := reads.unique reads'
      exact ih through' ordered

end Through

theorem exists_through (c : Cursor) : ∃ d, Through c (piecesFrom c) d ∧ d.rest = [] := by
  fun_induction piecesFrom c with
  | case1 c done => exact ⟨c, .refl c, done⟩
  | case2 c nonempty piece ih =>
    obtain ⟨d, through, done⟩ := ih
    exact ⟨d, .step ⟨nonempty, rfl, rfl⟩ through, done⟩

end Markup

end ComponentExtraction
