import ComponentExtraction.Text.Classes
import ComponentExtraction.Text.Cursor
import ComponentExtraction.Source.Span
import ComponentExtraction.Expression.Lexeme

/-!
# Tokens

`Token.scan` divides the text of an expression into tokens and the blanks
between them. Each class of lexeme has a small reader of its own; a reader is
given the first character and says how many further characters belong to the
lexeme.
-/

namespace ComponentExtraction

namespace Expression

/-- A lexeme and the bytes it covers. -/
structure Token where
  span : Span
  lexeme : Lexeme
deriving DecidableEq, Repr

namespace Lexeme

/-- Number of characters that continue a number: digits, dots and underscores,
and one exponent mark with an optional sign. -/
def numberLength (exponentSeen : Bool) : Text → Nat
  | [] => 0
  | c :: cs =>
    if Text.isDigit c || c == '.' || c == '_' then numberLength exponentSeen cs + 1
    else if (c == 'e' || c == 'E') && !exponentSeen then
      match cs with
      | [] => 1
      | sign :: rest =>
        if sign == '+' || sign == '-' then numberLength true rest + 2
        else numberLength true (sign :: rest) + 1
    else 0

theorem numberLength_le (seen : Bool) (text : Text) : numberLength seen text ≤ text.length := by
  fun_induction numberLength seen text with
  | case1 => exact Nat.le_refl 0
  | case2 seen c cs digit ih => exact Nat.succ_le_succ ih
  | case3 => exact Nat.le_refl 1
  | case4 seen c digit mark sign rest signed ih => exact Nat.add_le_add_right ih 2
  | case5 seen c digit mark sign rest signed ih => exact Nat.succ_le_succ ih
  | case6 => exact Nat.zero_le _

theorem numberLength_cons (seen : Bool) (c : Char) (cs : Text) : numberLength seen (c :: cs) =
    if Text.isDigit c || c == '.' || c == '_' then numberLength seen cs + 1
    else if (c == 'e' || c == 'E') && !seen then
      match cs with
      | [] => 1
      | sign :: rest =>
        if sign == '+' || sign == '-' then numberLength true rest + 2
        else numberLength true (sign :: rest) + 1
    else 0 := by
  rw [numberLength.eq_def]
  rfl

/-- The value of a quoted text, given what follows the opening quote, and the
number of characters up to and with the closing quote. A backslash stands for
the character after it. There is no value when the quote is not closed. -/
def quotedValue? (quote : Char) : Text → Option (Text × Nat)
  | [] => none
  | c :: cs =>
    if c = quote then some ([], 1)
    else if c = '\x5c' then
      match cs with
      | [] => none
      | escaped :: rest =>
        (quotedValue? quote rest).map fun value => (escaped :: value.1, value.2 + 2)
    else (quotedValue? quote cs).map fun value => (c :: value.1, value.2 + 1)

theorem quotedValue?_le {quote : Char} {text : Text} {value : Text × Nat}
    (found : quotedValue? quote text = some value) : value.2 ≤ text.length := by
  fun_induction quotedValue? quote text generalizing value with
  | case1 => exact absurd found (by simp)
  | case2 cs =>
    cases found
    exact Nat.succ_le_succ (Nat.zero_le _)
  | case3 => exact absurd found (by simp)
  | case4 escaped rest _ ih =>
    obtain ⟨inner, inner_eq, rfl⟩ := Option.map_eq_some_iff.mp found
    exact Nat.add_le_add_right (ih inner_eq) 2
  | case5 c cs _ _ ih =>
    obtain ⟨inner, inner_eq, rfl⟩ := Option.map_eq_some_iff.mp found
    exact Nat.succ_le_succ (ih inner_eq)

theorem quotedValue?_cons (quote c : Char) (cs : Text) : quotedValue? quote (c :: cs) =
    if c = quote then some ([], 1)
    else if c = '\x5c' then
      match cs with
      | [] => none
      | escaped :: rest =>
        (quotedValue? quote rest).map fun value => (escaped :: value.1, value.2 + 2)
    else (quotedValue? quote cs).map fun value => (c :: value.1, value.2 + 1) := by
  rw [quotedValue?.eq_def]
  rfl

theorem quotedValue?_pos {quote : Char} {text : Text} {value : Text × Nat}
    (found : quotedValue? quote text = some value) : 0 < value.2 := by
  fun_induction quotedValue? quote text generalizing value with
  | case1 => exact absurd found (by simp)
  | case2 cs =>
    cases found
    exact Nat.succ_pos 0
  | case3 => exact absurd found (by simp)
  | case4 escaped rest _ ih =>
    obtain ⟨inner, inner_eq, rfl⟩ := Option.map_eq_some_iff.mp found
    exact Nat.succ_pos _
  | case5 c cs _ _ ih =>
    obtain ⟨inner, inner_eq, rfl⟩ := Option.map_eq_some_iff.mp found
    exact Nat.succ_pos _

def isPunctuation (c : Char) : Bool :=
  c == '(' || c == ')' || c == '[' || c == ']' || c == '\x7b' || c == '\x7d' || c == ',' ||
    c == ':' || c == ';'

def startsWithDigit : Text → Bool
  | [] => false
  | c :: _ => Text.isDigit c

/-- The longest operator that a text begins with. The mark of a conditional
before a decimal fraction is no safe access. -/
def operatorAt? (text : Text) : Option Operator :=
  Operator.all.find? fun operator =>
    operator.symbol.isPrefixOf text &&
      !(operator == .safeAccess && startsWithDigit (text.drop 2))

def readWord (c : Char) (cs : Text) : Lexeme × Nat :=
  let more := cs.takeWhile Text.isIdentifierPart
  match Keyword.ofWord? (c :: more) with
  | some k => (.keyword k, more.length)
  | none => (.identifier (c :: more), more.length)

def readNumber (c : Char) (cs : Text) : Lexeme × Nat :=
  let more := numberLength false cs
  (.number (c :: cs.take more), more)

/-- A quoted text; without a closing quote all the rest is an error. -/
def readString (expression : Text) (column : Nat) (quote : Char) (cs : Text) : Lexeme × Nat :=
  match quotedValue? quote cs with
  | some (value, more) => (.string value, more)
  | none => (.error (.unterminatedQuote column expression), cs.length)

def readOperator (expression : Text) (column : Nat) (c : Char) (cs : Text) : Lexeme × Nat :=
  match operatorAt? (c :: cs) with
  | some o => (.operator o, o.symbol.length - 1)
  | none => (.error (.unexpectedCharacter c column expression), 0)

/-- The lexeme that starts with character `c` at byte `column` of an expression,
and how many of the characters after `c` belong to it. -/
def read (expression : Text) (column : Nat) (c : Char) (cs : Text) : Lexeme × Nat :=
  if Text.isIdentifierStart c then readWord c cs
  else if Text.isDigit c || (c == '.' && startsWithDigit cs) then readNumber c cs
  else if c == '.' && !"..".toList.isPrefixOf cs then (.punctuation c, 0)
  else if isPunctuation c then (.punctuation c, 0)
  else if Text.isQuote c then readString expression column c cs
  else readOperator expression column c cs

end Lexeme

namespace Token

def scanFrom (expression : Text) (c : Cursor) : List Token :=
  match h : (c.skipWhile Text.isSpace).rest with
  | [] => []
  | first :: rest =>
    let here := c.skipWhile Text.isSpace
    let read := Lexeme.read expression here.offset first rest
    ⟨⟨here.offset, (here.skip (read.2 + 1)).offset⟩, read.1⟩ ::
      scanFrom expression (here.skip (read.2 + 1))
termination_by c.rest.length
decreasing_by
  have shorter := Cursor.length_rest_skipWhile_le Text.isSpace c
  rw [h] at shorter
  have step : (c.skipWhile Text.isSpace).rest = first :: rest := h
  simp only [Cursor.rest_skip, step, List.drop_succ_cons, List.length_drop]
  simp only [List.length_cons] at shorter
  omega

/-- The tokens of an expression, at offsets relative to its text. -/
def scan (expression : Text) : List Token :=
  scanFrom expression (Cursor.start expression)

def shift (distance : Nat) (t : Token) : Token :=
  { t with span := t.span.shift distance }

def isPunctuation (t : Token) (c : Char) : Bool :=
  t.lexeme == .punctuation c

def isOperator (t : Token) (operator : Operator) : Bool :=
  t.lexeme == .operator operator

def isKeyword (t : Token) (keyword : Keyword) : Bool :=
  t.lexeme == .keyword keyword

end Token

end Expression

end ComponentExtraction
