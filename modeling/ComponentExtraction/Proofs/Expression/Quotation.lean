import ComponentExtraction.Proofs.Expression.Pieces
import ComponentExtraction.Proofs.Markup.Reading

/-!
# Quoted texts

Between quotes a character stands for itself or behind a backslash (`Spells`), so every value
has a spelling (`Text.escape`), and what is read is the value of a spelling. A quote is closed
where the quote occurs and is not escaped (`Text.OccursUnescaped`); which quotes are escaped
is decided from the left, since a backslash may itself be escaped. `scan_quoted` says what
both directions mean for the tokens of a text that starts with a quote.
-/

namespace ComponentExtraction

namespace Text

/-- No escape of the text is cut off at its end. An escape is a backslash together with the
character after it. -/
inductive Complete : Text → Prop
  | nil : Complete []
  | plain {c : Char} {rest : Text} (other : c ≠ '\x5c') (later : Complete rest) :
      Complete (c :: rest)
  | escape (c : Char) {rest : Text} (later : Complete rest) : Complete ('\x5c' :: c :: rest)

/-- A character occurs in a text, and not as what an escape stands for. -/
def OccursUnescaped (c : Char) (text : Text) : Prop :=
  ∃ front back, text = front ++ c :: back ∧ Complete front

/-- A value with a backslash before every quote and every backslash. -/
def escape (quote : Char) (value : Text) : Text :=
  value.flatMap fun c => if c = quote ∨ c = '\x5c' then ['\x5c', c] else [c]

def quoted (quote : Char) (value : Text) : Text :=
  quote :: escape quote value ++ [quote]

theorem escape_cons (quote c : Char) (value : Text) : escape quote (c :: value) =
    (if c = quote ∨ c = '\x5c' then ['\x5c', c] else [c]) ++ escape quote value :=
  List.flatMap_cons

theorem ne_backslash_of_isQuote {c : Char} (quote : isQuote c = true) : c ≠ '\x5c' := by
  rintro rfl
  cases quote

end Text

namespace Expression

/-- A text between quotes spells a value: a character stands for itself, or it is escaped,
which the quote and the backslash have to be. -/
inductive Spells (quote : Char) : Text → Text → Prop
  | nil : Spells quote [] []
  | plain {c : Char} {spelled value : Text} (other : c ≠ quote) (unescaped : c ≠ '\x5c')
      (later : Spells quote spelled value) : Spells quote (c :: spelled) (c :: value)
  | escape (c : Char) {spelled value : Text} (later : Spells quote spelled value) :
      Spells quote ('\x5c' :: c :: spelled) (c :: value)

variable {quote : Char} {spelled value text front : Text}

theorem spells_escape (quote : Char) (value : Text) :
    Spells quote (Text.escape quote value) value := by
  induction value with
  | nil => exact .nil
  | cons c value ih =>
    rw [Text.escape_cons]
    split
    · exact .escape c ih
    · next plain =>
      rw [not_or] at plain
      exact .plain plain.1 plain.2 ih

theorem Spells.complete (h : Spells quote spelled value) : spelled.Complete := by
  induction h with
  | nil => exact .nil
  | plain _ unescaped _ ih => exact .plain unescaped ih
  | escape c _ ih => exact .escape c ih

namespace Lexeme

theorem quotedValue?_of_spells (h : Spells quote spelled value) (proper : quote ≠ '\x5c')
    (rest : Text) :
    quotedValue? quote (spelled ++ quote :: rest) = some (value, spelled.length + 1) := by
  induction h with
  | nil => rw [List.nil_append, quotedValue?_cons, if_pos rfl, List.length_nil]
  | plain other unescaped _ ih =>
    rw [List.cons_append, quotedValue?_cons, if_neg other, if_neg unescaped, ih]
    rfl
  | escape c _ ih =>
    rw [List.cons_append, List.cons_append, quotedValue?_cons, if_neg proper.symm, if_pos rfl]
    dsimp only
    rw [ih]
    rfl

theorem exists_spells {found : Text × Nat} (found_eq : quotedValue? quote text = some found) :
    ∃ spelled rest, text = spelled ++ quote :: rest ∧ Spells quote spelled found.1 := by
  fun_induction quotedValue? quote text generalizing found with
  | case1 => exact absurd found_eq (by simp)
  | case2 cs =>
    cases found_eq
    exact ⟨[], cs, rfl, .nil⟩
  | case3 => exact absurd found_eq (by simp)
  | case4 escaped rest _ ih =>
    obtain ⟨inner, inner_eq, rfl⟩ := Option.map_eq_some_iff.mp found_eq
    obtain ⟨spelled, behind, rfl, spells⟩ := ih inner_eq
    exact ⟨'\x5c' :: escaped :: spelled, behind, rfl, .escape escaped spells⟩
  | case5 c cs other plain ih =>
    obtain ⟨inner, inner_eq, rfl⟩ := Option.map_eq_some_iff.mp found_eq
    obtain ⟨spelled, behind, rfl, spells⟩ := ih inner_eq
    exact ⟨c :: spelled, behind, rfl, .plain other plain spells⟩

/-- A quote that is not escaped closes the text before it, if no earlier one does. -/
theorem exists_quotedValue?_of_complete (h : front.Complete) (back : Text) :
    ∃ found, quotedValue? quote (front ++ quote :: back) = some found := by
  induction h with
  | nil => exact ⟨_, by rw [List.nil_append, quotedValue?_cons, if_pos rfl]⟩
  | @plain c rest other _ ih =>
    obtain ⟨found, found_eq⟩ := ih
    rw [List.cons_append, quotedValue?_cons, if_neg other, found_eq]
    split <;> exact ⟨_, rfl⟩
  | @escape c rest _ ih =>
    obtain ⟨found, found_eq⟩ := ih
    rw [List.cons_append, List.cons_append, quotedValue?_cons, if_pos rfl]
    dsimp only
    rw [found_eq]
    split <;> exact ⟨_, rfl⟩

/-- A quote is left open exactly if it does not occur again without being escaped. -/
theorem quotedValue?_eq_none_iff :
    quotedValue? quote text = none ↔ ¬Text.OccursUnescaped quote text := by
  rw [← not_iff_not, not_not, ← ne_eq, Option.ne_none_iff_exists']
  constructor
  · rintro ⟨found, found_eq⟩
    obtain ⟨spelled, rest, text_eq, spells⟩ := exists_spells found_eq
    exact ⟨spelled, rest, text_eq, spells.complete⟩
  · rintro ⟨front, back, rfl, complete⟩
    exact exists_quotedValue?_of_complete complete back

end Lexeme

namespace Token

@[simp] theorem scanFrom_end (expression : Text) (offset : Nat) :
    scanFrom expression ⟨offset, []⟩ = [] :=
  scanFrom_of_nil rfl

/-- A spelling in quotes is the first token, whatever follows it. -/
theorem scan_of_spells (isQuote : Text.isQuote quote = true) (h : Spells quote spelled value)
    (rest : Text) : scan (quote :: (spelled ++ quote :: rest)) =
      ⟨⟨0, Text.byteLength (quote :: (spelled ++ [quote]))⟩, .string value⟩ ::
        scanFrom (quote :: (spelled ++ quote :: rest))
          ⟨Text.byteLength (quote :: (spelled ++ [quote])), rest⟩ := by
  have proper := Text.ne_backslash_of_isQuote isQuote
  have read_eq : Lexeme.read (quote :: (spelled ++ quote :: rest)) (0 + Text.byteLength []) quote
      ((spelled ++ [quote]) ++ rest) = (.string value, (spelled ++ [quote]).length) := by
    rw [Lexeme.read_quote _ _ isQuote, Lexeme.readString, List.append_assoc, List.singleton_append,
      Lexeme.quotedValue?_of_spells h proper]
    exact congrArg (Prod.mk _) (by rw [List.length_append, List.length_singleton])
  have scanned := scanFrom_lexeme (by simp) (Text.not_isSpace_of_isQuote isQuote) read_eq
  rw [List.append_assoc, List.singleton_append, List.nil_append, Text.byteLength_nil,
    Nat.zero_add, Nat.zero_add] at scanned
  exact scanned

/-- A quote that is left open is an error up to the end of the text. -/
theorem scan_of_open (isQuote : Text.isQuote quote = true)
    (unclosed : ¬Text.OccursUnescaped quote text) : scan (quote :: text) =
      [⟨⟨0, Text.byteLength (quote :: text)⟩, .error (.unterminatedQuote 0 (quote :: text))⟩] := by
  have read_eq : Lexeme.read (quote :: text) (0 + Text.byteLength []) quote (text ++ []) =
      (.error (.unterminatedQuote 0 (quote :: text)), text.length) := by
    rw [Lexeme.read_quote _ _ isQuote, Lexeme.readString, List.append_nil,
      Lexeme.quotedValue?_eq_none_iff.mpr unclosed]
    rfl
  have scanned := scanFrom_lexeme (by simp) (Text.not_isSpace_of_isQuote isQuote) read_eq
  rw [List.append_nil, List.nil_append, Text.byteLength_nil, Nat.zero_add, Nat.zero_add,
    scanFrom_end] at scanned
  exact scanned

/-- A value in quotes is read as one string with this value. The first token of any text that
starts with a quote is an error, which then is all of the text, exactly if the quote does not
occur again without being escaped; if it does, the token is a string whose value is spelled
in front of the quote that closes it. -/
theorem scan_quoted (isQuote : Text.isQuote quote = true) :
    (∀ value, scan (Text.quoted quote value) =
      [⟨⟨0, (Text.quoted quote value).byteLength⟩, .string value⟩]) ∧
    ∀ text, ∃ first tokens, scan (quote :: text) = first :: tokens ∧
      ((∃ cause, first.lexeme = .error cause) ↔ ¬Text.OccursUnescaped quote text) ∧
      (∀ cause, first.lexeme = .error cause →
        first.span = ⟨0, Text.byteLength (quote :: text)⟩ ∧ tokens = []) ∧
      (Text.OccursUnescaped quote text → ∃ spelled value rest,
        text = spelled ++ quote :: rest ∧ Spells quote spelled value ∧
        first = ⟨⟨0, Text.byteLength (quote :: (spelled ++ [quote]))⟩, .string value⟩) := by
  refine ⟨fun value => ?_, fun text => ?_⟩
  · rw [Text.quoted, List.cons_append, scan_of_spells isQuote (spells_escape quote value),
      scanFrom_end]
  cases found_eq : Lexeme.quotedValue? quote text with
  | none =>
    have unclosed := Lexeme.quotedValue?_eq_none_iff.mp found_eq
    exact ⟨_, _, scan_of_open isQuote unclosed, ⟨fun _ => unclosed, fun _ => ⟨_, rfl⟩⟩,
      fun _ _ => ⟨rfl, rfl⟩, fun closed => absurd closed unclosed⟩
  | some found =>
    obtain ⟨spelled, rest, rfl, spells⟩ := Lexeme.exists_spells found_eq
    have closed : Text.OccursUnescaped quote (spelled ++ quote :: rest) :=
      ⟨spelled, rest, rfl, spells.complete⟩
    have accepted : ∀ cause, Lexeme.string found.1 ≠ .error cause := fun _ => nofun
    exact ⟨_, _, scan_of_spells isQuote spells rest,
      ⟨fun ⟨cause, error⟩ => absurd error (accepted cause), fun unclosed => absurd closed unclosed⟩,
      fun cause error => absurd error (accepted cause),
      fun _ => ⟨spelled, found.1, rest, rfl, spells, rfl⟩⟩

/-- A value that ends in a backslash, and a quote whose closing quote is escaped. -/
theorem scan_quoted_backslash : Text.isQuote '\x27' = true ∧
    scan "'it\\'s \\\\'".toList = [⟨⟨0, 10⟩, .string "it's \\".toList⟩] ∧
    ∃ first tokens, scan "'a\\'".toList = first :: tokens ∧
      (∃ cause, first.lexeme = .error cause) ∧ first.span = ⟨0, 4⟩ ∧ tokens = [] := by
  obtain ⟨values, texts⟩ := scan_quoted (show Text.isQuote '\x27' = true from rfl)
  refine ⟨rfl, ?_, ?_⟩
  · have spelled : Text.quoted '\x27' "it's \\".toList = "'it\\'s \\\\'".toList := by decide
    rw [← spelled, values]
    decide
  · have unclosed : ¬Text.OccursUnescaped '\x27' "a\\'".toList :=
      Lexeme.quotedValue?_eq_none_iff.mp (by decide)
    obtain ⟨first, tokens, scanned, rejected, reaches, -⟩ := texts "a\\'".toList
    obtain ⟨cause, error⟩ := rejected.mpr unclosed
    exact ⟨first, tokens, scanned, ⟨cause, error⟩, reaches cause error⟩

end Token

end Expression

end ComponentExtraction
