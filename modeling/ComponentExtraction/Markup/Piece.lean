import ComponentExtraction.Text.Cursor
import ComponentExtraction.Expression.Directive
import ComponentExtraction.Markup.Attribute
import ComponentExtraction.Markup.Interpolation

/-!
# Pieces of markup

A source is a sequence of pieces: texts, comments, start tags with their
attributes, and end tags. Reading a piece needs no knowledge of the elements
that are open, so the pieces are read first and nested afterwards. Every piece
starts where the one before it ends.

A NUL character ends names and values without quotes. In a text, and alone between
two attributes, it is passed over like any other character.
-/

namespace ComponentExtraction

namespace Markup

/-- One piece of markup, with the bytes it covers. -/
inductive Piece where
  | text (span : Span) (interpolations : List Node)
  | comment (span : Span)
  | startTag (span : Span) (name : Text) (attributes : List Node) (selfClosing : Bool)
  | endTag (span : Span) (name : Text)
deriving Repr

namespace Piece

def span : Piece → Span
  | text span _ => span
  | comment span => span
  | startTag span _ _ _ => span
  | endTag span _ => span

end Piece

structure Reading (α : Type) (c : Cursor) where
  value : α
  diagnostics : List Diagnostic
  after : Cursor
  advances : c.Advances after

def startsTagName : Text → Bool
  | [] => false
  | c :: _ => Text.isLetter c

/-- What a piece of markup can begin with, texts apart. -/
inductive Opening where
  | comment
  | endTag
  | startTag
deriving DecidableEq, Repr

def opening? (text : Text) : Option Opening :=
  if "<!--".toList.isPrefixOf text then some .comment
  else if "</".toList.isPrefixOf text && startsTagName (text.drop 2) then some .endTag
  else if "<".toList.isPrefixOf text && startsTagName (text.drop 1) then some .startTag
  else none

/-- Number of characters up to the next tag or comment; what stands inside an
interpolation starts none. -/
def textLength (text : Text) : Nat :=
  match text with
  | [] => 0
  | c :: cs =>
    if (opening? (c :: cs)).isSome then 0
    else
      match h : Text.stripStart? interpolationStart (c :: cs) with
      | none => textLength cs + 1
      | some inner =>
        match h' : Text.splitOnce? interpolationEnd inner with
        | none => textLength inner + 2
        | some (expression, after) => textLength after + (expression.length + 4)
termination_by text.length
decreasing_by
  · simp
  · have length_eq := congrArg List.length (Text.eq_append_of_stripStart? h)
    simp only [interpolationStart, List.length_append, List.length_cons] at length_eq
    simp only [List.length_cons, List.length_nil] at *
    omega
  · have length_eq := congrArg List.length (Text.eq_append_of_stripStart? h)
    have after_le := Text.length_snd_of_splitOnce? h'
    simp only [interpolationStart, List.length_append, List.length_cons] at length_eq after_le
    simp only [List.length_cons, List.length_nil] at *
    omega

theorem textLength_pos {text : Text} (nonempty : text ≠ []) (plain : opening? text = none) :
    0 < textLength text := by
  cases text with
  | nil => exact absurd rfl nonempty
  | cons c cs =>
    rw [textLength]
    simp only [plain, Option.isSome_none, Bool.false_eq_true, if_false]
    split
    · omega
    · split <;> omega

def readText (c : Cursor) (nonempty : c.rest ≠ []) (plain : opening? c.rest = none) :
    Reading Piece c :=
  let length := textLength c.rest
  let after := c.skip length
  let found := interpolations c.offset (c.rest.take length)
  ⟨.text ⟨c.offset, after.offset⟩ found.1, found.2, after,
    Cursor.advances_skip (textLength_pos nonempty plain) nonempty⟩

def readComment (c : Cursor) (nonempty : c.rest ≠ []) : Reading Piece c :=
  let inside := (c.skip 1).skip 3
  match Text.splitOnce? "-->".toList inside.rest with
  | some (comment, _) =>
    let after := inside.skip (comment.length + 3)
    ⟨.comment ⟨c.offset, after.offset⟩, [], after,
      .of_skip ((Cursor.reaches_skip _ _).trans (Cursor.reaches_skip _ _)) nonempty⟩
  | none =>
    ⟨.comment ⟨c.offset, inside.finish.offset⟩,
      [⟨⟨c.offset, inside.offset⟩, .unclosedComment⟩], inside.finish,
      .of_skip ((Cursor.reaches_skip _ _).trans (Cursor.reaches_finish _)) nonempty⟩

def isNamePart (c : Char) : Bool :=
  !Text.isNameEnd c

def readEndTag (c : Cursor) (nonempty : c.rest ≠ []) : Reading Piece c :=
  let nameStart := (c.skip 1).skip 1
  let name := nameStart.rest.takeWhile isNamePart
  let nameEnd := nameStart.skipWhile isNamePart
  let behind := nameEnd.skipWhile Text.isSpace
  have reaches : (c.skip 1).Reaches behind :=
    ((Cursor.reaches_skip _ _).trans (Cursor.reaches_skipWhile _ _)).trans
      (Cursor.reaches_skipWhile _ _)
  match behind.rest with
  | '>' :: _ =>
    ⟨.endTag ⟨c.offset, (behind.skip 1).offset⟩ name, [], behind.skip 1,
      .of_skip (reaches.trans (Cursor.reaches_skip _ _)) nonempty⟩
  | _ =>
    ⟨.endTag ⟨c.offset, behind.offset⟩ name,
      [⟨⟨c.offset, behind.offset⟩, .unterminatedEndTag name⟩], behind,
      .of_skip reaches nonempty⟩

/-- The value of an attribute: its text, where the text starts, and the cursor
behind the value. -/
structure Value where
  text : Text
  offset : Nat
  after : Cursor
  diagnostics : List Diagnostic

def unquotedLength : Text → Nat
  | [] => 0
  | c :: cs =>
    if Text.isSpace c || c == '>' || c == '\x00' || (c == '/' && cs.head? == some '>') then 0
    else unquotedLength cs + 1

/-- The value of the attribute `name`. An open quote takes all that is left. -/
def readValue (name : Text) (c : Cursor) : Value :=
  match c.rest with
  | [] => ⟨[], c.offset, c, []⟩
  | first :: rest =>
    if Text.isQuote first then
      let inside := c.skip 1
      let text := rest.takeWhile (· != first)
      if text.length < rest.length then
        ⟨text, inside.offset, inside.skip (text.length + 1), []⟩
      else
        ⟨rest, inside.offset, inside.finish,
          [⟨⟨c.offset, inside.offset⟩, .unterminatedValue name⟩]⟩
    else
      let length := unquotedLength (first :: rest)
      ⟨(first :: rest).take length, c.offset, c.skip length, []⟩

theorem reaches_after_readValue (name : Text) (c : Cursor) :
    c.Reaches (readValue name c).after := by
  unfold readValue
  split
  · exact Cursor.Reaches.refl c
  · split
    · dsimp only
      split
      · exact (Cursor.reaches_skip _ _).trans (Cursor.reaches_skip _ _)
      · exact (Cursor.reaches_skip _ _).trans (Cursor.reaches_finish _)
    · exact Cursor.reaches_skip _ _

def valueNodes (kind : Kind) (form : ValueForm) (value : Value) : List Node × List Diagnostic :=
  let span : Span := ⟨value.offset, value.offset + value.text.byteLength⟩
  match form with
  | .binding =>
    let parsed := Expression.parse .binding value.offset value.text
    ([Node.mk .binding span parsed.1], parsed.2)
  | .action =>
    let parsed := Expression.parse .action value.offset value.text
    ([Node.mk .action span parsed.1], parsed.2)
  | .directive =>
    Expression.Directive.parse (kind.detail?.getD []) value.offset value.text
  | .interpolated => interpolations value.offset value.text
  | .ignored => ([], [])

/-- An attribute with its value, if it has one. A character that starts no name
is passed over. -/
def readAttribute (c : Cursor) (nonempty : c.rest ≠ []) : Reading (Option Node) c :=
  let name := c.rest.takeWhile isNamePart
  let nameEnd := c.skipWhile isNamePart
  let nameSpan : Span := ⟨c.offset, nameEnd.offset⟩
  if h : name = [] then
    ⟨none, [], c.skip 1, .of_skip (Cursor.Reaches.refl _) nonempty⟩
  else
    have advances : c.Advances nameEnd :=
      ⟨Cursor.reaches_skipWhile _ _, by
        have := congrArg List.length
          (List.takeWhile_append_dropWhile (p := isNamePart) (l := c.rest))
        have := List.length_pos_iff.mpr h
        simp only [List.length_append] at *
        simp only [nameEnd, name, Cursor.rest_skipWhile] at *
        omega⟩
    let classified := classify name
    let equals := nameEnd.skipWhile Text.isSpace
    match equals.rest with
    | '=' :: _ =>
      let behind := equals.skip 1
      let value := readValue name (behind.skipWhile Text.isSpace)
      let nodes := valueNodes classified.1 classified.2 value
      ⟨some (Node.mk classified.1 ⟨c.offset, value.after.offset⟩
          (Node.leaf nameSpan :: Node.leaf ⟨equals.offset, behind.offset⟩ :: nodes.1)),
        value.diagnostics ++ nodes.2, value.after,
        ⟨advances.1.trans ((Cursor.reaches_skipWhile _ _).trans ((Cursor.reaches_skip _ _).trans
            ((Cursor.reaches_skipWhile _ _).trans (reaches_after_readValue _ _)))),
          Nat.lt_of_le_of_lt ((Cursor.reaches_skipWhile _ _).trans ((Cursor.reaches_skip _ _).trans
            ((Cursor.reaches_skipWhile _ _).trans (reaches_after_readValue _ _)))).length_le
            advances.2⟩⟩
    | _ =>
      ⟨some (Node.mk classified.1 nameSpan [Node.leaf nameSpan]), [], nameEnd, advances⟩

/-- What stands between the name of a start tag and its end. -/
structure TagBody (c : Cursor) where
  attributes : List Node
  selfClosing : Bool
  diagnostics : List Diagnostic
  after : Cursor
  reaches : c.Reaches after

/-- The attributes of the tag `name`, which starts at byte `start`, up to and
with the end of the tag. -/
def readTagBody (name : Text) (start : Nat) (c : Cursor) : TagBody c :=
  let here := c.skipWhile Text.isSpace
  have reaches : c.Reaches here := Cursor.reaches_skipWhile _ _
  match h : here.rest with
  | [] => ⟨[], false, [⟨⟨start, here.offset⟩, .unclosedStartTag name⟩], here, reaches⟩
  | first :: rest =>
    have nonempty : here.rest ≠ [] := by simp [h]
    if first == '/' && rest.head? == some '>' then
      ⟨[], true, [], here.skip 2, reaches.trans (Cursor.reaches_skip _ _)⟩
    else if first == '>' then
      ⟨[], false, [], here.skip 1, reaches.trans (Cursor.reaches_skip _ _)⟩
    else if first == '/' || first == '<' then
      let more := readTagBody name start (here.skip 1)
      ⟨more.attributes, more.selfClosing,
        ⟨⟨here.offset, (here.skip 1).offset⟩, .strayCharacterInTag name⟩ :: more.diagnostics,
        more.after, (reaches.trans (Cursor.reaches_skip _ _)).trans more.reaches⟩
    else
      let found := readAttribute here nonempty
      let more := readTagBody name start found.after
      ⟨found.value.toList ++ more.attributes, more.selfClosing,
        found.diagnostics ++ more.diagnostics, more.after,
        (reaches.trans found.advances.1).trans more.reaches⟩
termination_by c.rest.length
decreasing_by
  · exact (reaches.advances (.of_skip (Cursor.Reaches.refl _) nonempty)).2
  · exact (reaches.advances found.advances).2

def readStartTag (c : Cursor) (nonempty : c.rest ≠ []) : Reading Piece c :=
  let nameStart := c.skip 1
  let name := nameStart.rest.takeWhile isNamePart
  let body := readTagBody name c.offset (nameStart.skipWhile isNamePart)
  ⟨.startTag ⟨c.offset, body.after.offset⟩ name body.attributes body.selfClosing,
    body.diagnostics, body.after,
    .of_skip ((Cursor.reaches_skipWhile _ _).trans body.reaches) nonempty⟩

def readPiece (c : Cursor) (nonempty : c.rest ≠ []) : Reading Piece c :=
  match h : opening? c.rest with
  | some .comment => readComment c nonempty
  | some .endTag => readEndTag c nonempty
  | some .startTag => readStartTag c nonempty
  | none => readText c nonempty h

/-- All pieces from a cursor on, each with the problems met in it. -/
def piecesFrom (c : Cursor) : List (Piece × List Diagnostic) :=
  if h : c.rest = [] then []
  else
    let piece := readPiece c h
    (piece.value, piece.diagnostics) :: piecesFrom piece.after
termination_by c.rest.length
decreasing_by exact piece.advances.2

/-- All pieces of a source, which cover it from its start to its end, each with the
problems met in it. -/
def pieces (source : Text) : List (Piece × List Diagnostic) :=
  piecesFrom (Cursor.start source)

end Markup

end ComponentExtraction
