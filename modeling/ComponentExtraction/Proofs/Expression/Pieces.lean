import ComponentExtraction.Proofs.Expression.Continuation
import ComponentExtraction.Proofs.Expression.Printing
import ComponentExtraction.Proofs.Expression.Spelling

/-!
# Texts in pieces

A text is divided into the same tokens when a blank and more text follow it, if the
lexer has not rejected its last token: every lexeme that ends in a text ends in front of
a blank, and only a quote that is left open reaches over one. So the tokens of pieces
with blanks between them are the tokens of the pieces (`matched_tokensAt`).
-/

namespace ComponentExtraction

namespace Cursor

theorem skipWhile_of_run {p : Char → Bool} {c : Cursor} {run rest : Text}
    (rest_eq : c.rest = run ++ rest) (all : ∀ a ∈ run, p a = true) :
    c.skipWhile p = (mk (c.offset + run.byteLength) rest).skipWhile p := by
  simp only [skipWhile, rest_eq, List.takeWhile_append_of_pos all,
    List.dropWhile_append_of_pos all, Text.byteLength_append, Nat.add_assoc]

end Cursor

namespace Expression

open Diagnostic

variable {kept cut : Text}

namespace Lexeme

theorem Alike.symm {lexeme other : Lexeme} (alike : lexeme.Alike other) : other.Alike lexeme := by
  cases alike with
  | same => exact .same lexeme
  | errors cause cause' => exact .errors cause' cause

theorem length_takeWhile_le {p : Char → Bool} (parted : Parted cut) (ends : p ' ' = false) :
    ((kept ++ cut).takeWhile p).length ≤ kept.length := by
  have none : cut.takeWhile p = [] := by
    cases cut with
    | nil => rfl
    | cons c cut =>
      cases parted c rfl
      exact List.takeWhile_cons_of_neg (by simp [ends])
  rw [List.takeWhile_append, none]
  split
  · simp
  · exact (List.takeWhile_prefix p).length_le

theorem numberLength_append_le (seen : Bool) (parted : Parted cut) :
    numberLength seen (kept ++ cut) ≤ kept.length := by
  fun_induction numberLength seen kept with
  | case1 seen =>
    cases cut with
    | nil => exact Nat.zero_le _
    | cons c cut =>
      cases parted c rfl
      rw [List.nil_append, numberLength_cons, if_neg (by decide), if_neg (by simp)]
      exact Nat.zero_le _
  | case2 seen c cs digit ih =>
    rw [List.cons_append, numberLength_cons, if_pos digit]
    exact Nat.succ_le_succ ih
  | case3 seen c digit mark =>
    rw [List.cons_append, numberLength_cons, if_neg digit, if_pos mark]
    cases cut with
    | nil => exact Nat.le_refl _
    | cons blank cut =>
      cases parted blank rfl
      dsimp only [List.nil_append]
      rw [if_neg (by decide), numberLength_cons, if_neg (by decide), if_neg (by simp)]
      exact Nat.le_refl _
  | case4 seen c digit mark sign rest signed ih =>
    rw [List.cons_append, List.cons_append, numberLength_cons, if_neg digit, if_pos mark]
    dsimp only
    rw [if_pos signed]
    exact Nat.add_le_add_right ih 2
  | case5 seen c digit mark sign rest signed ih =>
    rw [List.cons_append, List.cons_append, numberLength_cons, if_neg digit, if_pos mark]
    dsimp only
    rw [if_neg signed]
    exact Nat.succ_le_succ ih
  | case6 seen c cs digit mark =>
    rw [List.cons_append, numberLength_cons, if_neg digit, if_neg mark]
    exact Nat.zero_le _

theorem quotedValue?_append {quote : Char} {value : Text × Nat} (cut : Text)
    (found : quotedValue? quote kept = some value) :
    quotedValue? quote (kept ++ cut) = some value := by
  fun_induction quotedValue? quote kept generalizing value with
  | case1 => exact absurd found (by simp)
  | case2 cs =>
    rw [List.cons_append, quotedValue?_cons, if_pos rfl]
    exact found
  | case3 => exact absurd found (by simp)
  | case4 escaped rest other ih =>
    obtain ⟨inner, inner_eq, rfl⟩ := Option.map_eq_some_iff.mp found
    rw [List.cons_append, List.cons_append, quotedValue?_cons, if_neg other, if_pos rfl]
    dsimp only
    rw [ih inner_eq]
    rfl
  | case5 c cs other plain ih =>
    obtain ⟨inner, inner_eq, rfl⟩ := Option.map_eq_some_iff.mp found
    rw [List.cons_append, quotedValue?_cons, if_neg other, if_neg plain, ih inner_eq]
    rfl

theorem read_quote (expression : Text) (column : Nat) {c : Char} (quoted : Text.isQuote c = true)
    (cs : Text) : read expression column c cs = readString expression column c cs := by
  simp only [Text.isQuote, Bool.or_eq_true, beq_iff_eq] at quoted
  rcases quoted with rfl | rfl
  · rfl
  · rfl

/-- A lexeme does not reach over the blank behind a text, unless it is one that reaches to
the end of the text and is rejected there. -/
theorem length_read_le (expression expression' : Text) (column column' : Nat) {c : Char}
    (parted : Parted cut)
    (legible : (read expression column c kept).2 = kept.length →
      ∀ cause, (read expression column c kept).1 ≠ .error cause) :
    (read expression' column' c (kept ++ cut)).2 ≤ kept.length := by
  by_cases quoted : Text.isQuote c = true
  · rw [read_quote _ _ quoted] at legible ⊢
    cases found : quotedValue? c kept with
    | none =>
      have rejected : readString expression column c kept =
          (.error (.unterminatedQuote column expression), kept.length) := by
        rw [readString, found]
      rw [rejected] at legible
      exact absurd rfl (legible rfl _)
    | some value =>
      simp only [readString, quotedValue?_append cut found]
      exact quotedValue?_le found
  · unfold read
    split
    · have inside : ((kept ++ cut).takeWhile Text.isIdentifierPart).length ≤ kept.length :=
        length_takeWhile_le parted (by decide)
      unfold readWord
      dsimp only
      split <;> exact inside
    split
    · exact numberLength_append_le false parted
    split
    · exact Nat.zero_le _
    split
    · exact Nat.zero_le _
    unfold readOperator
    split
    · next operator found =>
      rw [operatorAt?_eq] at found
      have starts : operator.symbol <+: (c :: kept) ++ cut :=
        (beginsWith_iff.mp (List.find?_some found)).1
      have short := length_symbol_le_of_parted parted starts
      rw [List.length_cons] at short
      exact Nat.sub_le_of_le_add short
    · exact Nat.zero_le _

end Lexeme

theorem not_splitsFraction_of_parted (parted : Parted cut) : ¬Lexeme.SplitsFraction kept cut := by
  intro splits
  have digit := splits.digit
  rw [Lexeme.startsWithDigit_of_parted parted] at digit
  exact absurd digit Bool.false_ne_true

namespace LastLegible

variable {token : Token} {tokens rest : List Token}

theorem tail (h : LastLegible (token :: tokens) rest) : LastLegible tokens rest := by
  intro front last tokens_eq
  exact h (token :: front) last (by rw [tokens_eq, List.cons_append])

theorem head (h : LastLegible [token] []) : token.isError = false :=
  h [] token rfl

end LastLegible

theorem Token.ne_error_of_isError {token : Token} (legible : token.isError = false) :
    ∀ cause, token.lexeme ≠ .error cause := by
  intro cause error
  simp [Token.isError, error] at legible

theorem scanFrom_blanks (expression : Text) {blanks rest : Text} {offset : Nat}
    (run : ∀ a ∈ blanks, Text.isSpace a = true) :
    Token.scanFrom expression ⟨offset, blanks ++ rest⟩ =
      Token.scanFrom expression ⟨offset + blanks.byteLength, rest⟩ := by
  have here : (Cursor.mk offset (blanks ++ rest)).skipWhile Text.isSpace = _ :=
    Cursor.skipWhile_of_run rfl run
  rw [← Token.scanFrom_skipWhile, here, Token.scanFrom_skipWhile]

/-- The lexeme in front of a text is the same one when a blank and more text follow, unless
it reaches to the end and is an error. -/
theorem exists_read_append {expression taken rest : Text} (expression' : Text)
    {offset : Nat} (offset' : Nat) {first : Char} {lexeme : Lexeme} (parted : Parted cut)
    (read_eq : Lexeme.read expression offset first (taken ++ rest) = (lexeme, taken.length))
    (closed : rest = [] → ∀ cause, lexeme ≠ .error cause) :
    ∃ lexeme', Lexeme.read expression' offset' first (taken ++ (rest ++ cut)) =
      (lexeme', taken.length) ∧ lexeme.Alike lexeme' := by
  have closed' : taken.length = (taken ++ rest).length → ∀ cause, lexeme ≠ .error cause :=
    fun reaches => closed (List.eq_nil_of_length_eq_zero (by simpa using reaches))
  have inside := Lexeme.length_read_le expression expression' offset offset' parted
    (by rw [read_eq]; exact closed')
  obtain ⟨alike, length_eq⟩ := Lexeme.read_of_cut expression offset
    (not_splitsFraction_of_parted parted) inside
  rw [List.append_assoc] at alike length_eq
  rw [read_eq] at alike length_eq
  exact ⟨_, Prod.ext rfl length_eq.symm, alike.symm⟩

/-- A text is divided into the same tokens, further to the right, when a blank and more
text follow it. -/
theorem exists_scanFrom_append {expression kept : Text} (expression' : Text) {offset : Nat}
    (distance : Nat) (parted : Parted cut)
    (legible : LastLegible (Token.scanFrom expression ⟨offset, kept⟩) []) :
    ∃ front, Token.scanFrom expression' ⟨offset + distance, kept ++ cut⟩ =
        front ++ Token.scanFrom expression' ⟨offset + kept.byteLength + distance, cut⟩ ∧
      Matched ((Token.scanFrom expression ⟨offset, kept⟩).map (Token.shift distance)) front := by
  obtain ⟨blanks, rest, rfl, run, ends⟩ := exists_blanks kept
  cases rest with
  | nil =>
    refine ⟨[], ?_, ?_⟩
    · rw [List.append_nil, scanFrom_blanks expression' run, Nat.add_right_comm, List.nil_append]
    · rw [scanFrom_blanks expression run, Token.scanFrom_of_nil rfl]
      exact .nil
  | cons first more =>
    have starts := ends first rfl
    have within := Lexeme.read_le expression (offset + blanks.byteLength) first more
    generalize read_eq : Lexeme.read expression (offset + blanks.byteLength) first more = read
      at within
    obtain ⟨lexeme, n⟩ := read
    obtain ⟨taken, rest, rfl, rfl⟩ : ∃ taken rest : Text, more = taken ++ rest ∧
        n = taken.length :=
      ⟨_, _, (List.take_append_drop n more).symm, (List.length_take_of_le within).symm⟩
    rw [scanFrom_lexeme run starts read_eq] at legible ⊢
    -- A lexeme that reaches to the end is the last one.
    have closed : rest = [] → ∀ cause, lexeme ≠ .error cause := by
      rintro rfl
      rw [Token.scanFrom_of_nil rfl] at legible
      exact Token.ne_error_of_isError legible.head
    obtain ⟨lexeme', read_eq', alike⟩ := exists_read_append expression'
      (offset + distance + blanks.byteLength) parted read_eq closed
    obtain ⟨front, scan_eq, matched⟩ :=
      exists_scanFrom_append expression' distance parted legible.tail
    have moved := scanFrom_lexeme run starts read_eq'
    rw [Nat.add_right_comm offset distance, Nat.add_right_comm _ distance, scan_eq] at moved
    refine ⟨⟨_, lexeme'⟩ :: front, ?_, .cons ⟨rfl, alike⟩ matched⟩
    simpa [Token.shift, Span.shift, Nat.add_assoc, Nat.add_comm, Nat.add_left_comm] using moved
termination_by kept.length

namespace Token

theorem shift_shift (distance further : Nat) (token : Token) :
    (token.shift distance).shift further = token.shift (distance + further) := by
  simp only [shift, Span.shift, Nat.add_assoc]

end Token

theorem Matched.map_shift {tokens others : List Token} (matched : Matched tokens others)
    (distance : Nat) : Matched (tokens.map (Token.shift distance))
      (others.map (Token.shift distance)) := by
  rw [Matched, List.forall₂_map_left_iff, List.forall₂_map_right_iff]
  refine List.Forall₂.imp (fun token other h => ⟨?_, h.alike⟩) matched
  exact congrArg (Span.shift distance) h.span_eq

/-- Where a text stands does not matter to its last token. -/
theorem lastLegible_scan {offset : Nat} {text : Text}
    (closed : LastLegible (tokensAt offset text) []) : LastLegible (Token.scan text) [] := by
  intro front last tokens_eq
  refine closed (front.map (Token.shift offset)) (last.shift offset) ?_
  rw [tokensAt, tokens_eq, List.map_append, List.map_cons, List.map_nil]

/-- A text whose last token, if there is one, is accepted by the lexer.
Such a text keeps its tokens when a blank and more text follow it. -/
structure Piece where
  text : Text
  closed : LastLegible (Token.scan text) []

namespace Piece

def join (pieces : List Piece) : Text :=
  Text.joinWith [' '] (pieces.map text)

def tokens (offset : Nat) : List Piece → List Token
  | [] => []
  | piece :: pieces =>
    tokensAt offset piece.text ++ tokens (offset + piece.text.byteLength + 1) pieces

theorem tokens_cons (offset : Nat) (piece : Piece) (pieces : List Piece) :
    tokens offset (piece :: pieces) =
      tokensAt offset piece.text ++ tokens (offset + piece.text.byteLength + 1) pieces := rfl

theorem join_cons_cons (first second : Piece) (pieces : List Piece) :
    join (first :: second :: pieces) = first.text ++ ' ' :: join (second :: pieces) := by
  simp [join, Text.joinWith]

theorem byteLength_join_cons_cons (first second : Piece) (pieces : List Piece) :
    (join (first :: second :: pieces)).byteLength =
      first.text.byteLength + 1 + (join (second :: pieces)).byteLength := by
  rw [join_cons_cons, Text.byteLength_append, Text.byteLength_cons, Nat.add_assoc]
  rfl

theorem join_append (first second : Piece) (pieces more : List Piece) :
    join (first :: pieces ++ second :: more) =
      join (first :: pieces) ++ ' ' :: join (second :: more) := by
  induction pieces generalizing first with
  | nil => exact join_cons_cons first second more
  | cons third pieces ih =>
    rw [List.cons_append, List.cons_append, join_cons_cons, ← List.cons_append, ih,
      join_cons_cons, List.append_assoc, List.cons_append]

theorem scan_text {lexeme : Lexeme} (legible : lexeme.Legible) :
    Token.scan lexeme.text = [⟨⟨0, lexeme.text.byteLength⟩, lexeme⟩] := by
  obtain ⟨first, more, text_eq, starts, read_eq⟩ := legible
  have read_eq := read_eq lexeme.text 0 [] (by simp [Parted])
  have noBlank : ∀ a ∈ ([] : Text), Text.isSpace a = true := by simp
  have scan_eq := scanFrom_lexeme noBlank starts read_eq
  have none : Token.scanFrom lexeme.text
      ⟨0 + Text.byteLength [] + Text.byteLength (first :: more), []⟩ = [] :=
    Token.scanFrom_of_nil rfl
  rw [none] at scan_eq
  simpa [Token.scan, Cursor.start, text_eq] using scan_eq

def word (lexeme : Lexeme) (legible : lexeme.Legible)
    (accepted : ∀ cause, lexeme ≠ .error cause) : Piece where
  text := lexeme.text
  closed := by
    intro front last tokens_eq
    rw [scan_text legible] at tokens_eq
    cases front with
    | nil =>
      cases tokens_eq
      exact Token.isError_eq_false rfl accepted
    | cons token front => simp at tokens_eq

theorem scanFrom_blank (expression : Text) (offset : Nat) (rest : Text) :
    Token.scanFrom expression ⟨offset, ' ' :: rest⟩ =
      Token.scanFrom expression ⟨offset + 1, rest⟩ := by
  have blank : ∀ a ∈ [' '], Text.isSpace a = true := List.forall_mem_singleton.mpr (by decide)
  have passed : (Cursor.mk offset (' ' :: rest)).skipWhile Text.isSpace =
      (Cursor.mk (offset + 1) rest).skipWhile Text.isSpace :=
    Cursor.skipWhile_of_run rfl blank
  rw [← Token.scanFrom_skipWhile, passed, Token.scanFrom_skipWhile]

theorem matched_scanFrom (expression : Text) (base offset : Nat) (pieces : List Piece) :
    Matched (tokens (offset + base) pieces)
      ((Token.scanFrom expression ⟨offset, join pieces⟩).map (Token.shift base)) := by
  induction pieces generalizing offset with
  | nil =>
    rw [Token.scanFrom_of_nil rfl]
    exact .nil
  | cons piece pieces ih =>
    -- What follows the first piece is nothing, or a blank and the other pieces.
    obtain ⟨cut, join_eq, parted, later⟩ : ∃ cut : Text, join (piece :: pieces) = piece.text ++ cut ∧
        Parted cut ∧ Matched (tokens (offset + piece.text.byteLength + 1 + base) pieces)
          ((Token.scanFrom expression ⟨offset + piece.text.byteLength, cut⟩).map
            (Token.shift base)) := by
      cases pieces with
      | nil =>
        refine ⟨[], (List.append_nil _).symm, by simp [Parted], ?_⟩
        rw [Token.scanFrom_of_nil rfl]
        exact .nil
      | cons second pieces =>
        refine ⟨' ' :: join (second :: pieces), join_cons_cons piece second pieces,
          by simp [Parted], ?_⟩
        rw [scanFrom_blank]
        exact ih _
    obtain ⟨front, scan_eq, matched⟩ :=
      exists_scanFrom_append expression offset parted piece.closed
    rw [Nat.zero_add, Nat.zero_add, Nat.add_comm _ offset, ← join_eq] at scan_eq
    rw [scan_eq, List.map_append, tokens_cons]
    refine List.rel_append ?_ ?_
    · have moved := Matched.map_shift matched base
      rw [List.map_map] at moved
      have shift_eq : Token.shift base ∘ Token.shift offset = Token.shift (offset + base) :=
        funext (Token.shift_shift offset base)
      rw [shift_eq] at moved
      exact moved
    · have moved : offset + base + piece.text.byteLength + 1 =
          offset + piece.text.byteLength + 1 + base := by omega
      rw [moved]
      exact later

/-- The tokens of pieces with blanks between them are the tokens of the pieces. -/
theorem matched_tokensAt (offset : Nat) (pieces : List Piece) :
    Matched (tokens offset pieces) (tokensAt offset (join pieces)) := by
  have matched := matched_scanFrom (join pieces) offset 0 pieces
  rw [Nat.zero_add] at matched
  exact matched

theorem tokens_append {offset : Nat} (first : Piece) (pieces more : List Piece) :
    tokens offset (first :: pieces ++ more) = tokens offset (first :: pieces) ++
      tokens (offset + (join (first :: pieces)).byteLength + 1) more := by
  induction pieces generalizing first offset with
  | nil =>
    rw [List.cons_append, List.nil_append, tokens_cons, tokens_cons, tokens, List.append_nil]
    rfl
  | cons second pieces ih =>
    rw [List.cons_append, tokens_cons, ih, tokens_cons offset first, List.append_assoc,
      byteLength_join_cons_cons, ← Nat.add_assoc, ← Nat.add_assoc]

theorem exists_word {offset : Nat} {lexeme : Lexeme} {legible : lexeme.Legible}
    {accepted : ∀ cause, lexeme ≠ .error cause} {pieces : List Piece} {taken : List Token}
    (matched : Matched (tokens offset (word lexeme legible accepted :: pieces)) taken) :
    ∃ token rest, taken = token :: rest ∧ token.lexeme = lexeme ∧
      Matched (tokens (offset + lexeme.text.byteLength + 1) pieces) rest := by
  have alone : tokensAt offset lexeme.text =
      [Token.shift offset ⟨⟨0, lexeme.text.byteLength⟩, lexeme⟩] := by
    rw [tokensAt, scan_text legible, List.map_singleton]
  have text_eq : (word lexeme legible accepted).text = lexeme.text := rfl
  rw [tokens_cons, text_eq, alone] at matched
  obtain ⟨token, rest, ⟨-, alike⟩, later, rfl⟩ := List.forall₂_cons_left_iff.mp matched
  refine ⟨token, rest, rfl, ?_, later⟩
  exact alike.eq_of_accepted accepted

end Piece

end Expression

end ComponentExtraction
