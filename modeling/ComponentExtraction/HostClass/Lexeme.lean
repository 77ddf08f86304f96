import ComponentExtraction.Text.Letters

/-!
# Lexemes of TypeScript

The words, numbers, quoted texts and signs of TypeScript, and what may stand
between them. Each reader is given the text at which a lexeme starts and says
how many characters belong to it.

Two lexemes depend on what is being read: a slash is a sign unless an operand
is due, and what follows the closing brace of an embedded expression goes on
with a template. They have readers of their own. A closing angle bracket is
always one sign, so that closing several argument lists needs no care.
-/

namespace ComponentExtraction

namespace HostClass

inductive Lexeme where
  | word (text : Text)
  | privateName
  | numeral (isBig : Bool)
  | string (value : Text)
  /-- A template, either all of it or up to its first embedded expression. -/
  | template (isOpen : Bool)
  /-- A part of a template behind an embedded expression, up to the next one or
  to the end. -/
  | templateRest (isOpen : Bool)
  | pattern
  | sign (text : Text)
  | invalid
  | finish
deriving DecidableEq, Repr

def isLineBreak (c : Char) : Bool :=
  c == '\n' || c == '\r' || c == '\u2028' || c == '\u2029'

def isLineBlank (c : Char) : Bool :=
  c == ' ' || c == '\t' || c == '\x0b' || c == '\x0c' || c == '\u0085' || c == '\u00a0' ||
    c == '\ufeff' || c == '\u1680' || ('\u2000' ≤ c && c ≤ '\u200b') || c == '\u202f' ||
    c == '\u205f' || c == '\u3000'

inductive BlankPlace where
  | between
  | lineComment
  | blockComment
deriving DecidableEq, Repr

/-- Number of characters up to the next lexeme, and whether a line break is among
them. A comment that is not closed goes on to the end of the source. -/
def blanks : BlankPlace → Text → Nat × Bool
  | _, [] => (0, false)
  | .between, c :: cs =>
    if isLineBreak c then ((blanks .between cs).1 + 1, true)
    else if isLineBlank c then
      let more := blanks .between cs
      (more.1 + 1, more.2)
    else
      match cs with
      | [] => (0, false)
      | d :: rest =>
        if c = '/' && d = '/' then
          let more := blanks .lineComment rest
          (more.1 + 2, more.2)
        else if c = '/' && d = '*' then
          let more := blanks .blockComment rest
          (more.1 + 2, more.2)
        else (0, false)
  | .lineComment, c :: cs =>
    if isLineBreak c then ((blanks .between cs).1 + 1, true)
    else
      let more := blanks .lineComment cs
      (more.1 + 1, more.2)
  | .blockComment, c :: cs =>
    match cs with
    | [] => (1, false)
    | d :: rest =>
      if c = '*' && d = '/' then
        let more := blanks .between rest
        (more.1 + 2, more.2)
      else
        let more := blanks .blockComment (d :: rest)
        (more.1 + 1, more.2 || isLineBreak c)

def hexDigit? (c : Char) : Option Nat :=
  if '0' ≤ c && c ≤ '9' then some (c.toNat - '0'.toNat)
  else if 'a' ≤ c && c ≤ 'f' then some (c.toNat - 'a'.toNat + 10)
  else if 'A' ≤ c && c ≤ 'F' then some (c.toNat - 'A'.toNat + 10)
  else none

def hexNumber? (digits : Text) : Option Nat :=
  digits.foldl (fun value c => value.bind fun n => (hexDigit? c).map fun d => n * 16 + d) (some 0)

def characterOf? (code : Nat) : Option Char :=
  if code.isValidChar then some (Char.ofNat code) else none

/-- A character given by its code point, behind the backslash: four digits, or
any number of them in braces. -/
def unicodeEscape? : Text → Option (Char × Nat)
  | 'u' :: '\x7b' :: rest =>
    let digits := rest.takeWhile fun c => (hexDigit? c).isSome
    if digits.isEmpty || (rest.drop digits.length).head? ≠ some '\x7d' then none
    else ((hexNumber? digits).bind characterOf?).map fun c => (c, digits.length + 3)
  | 'u' :: a :: b :: c :: d :: _ =>
    ((hexNumber? [a, b, c, d]).bind characterOf?).map fun c => (c, 5)
  | _ => none

/-- The characters that continue a word, and how many characters they are
written with. The first argument bounds their number. -/
def wordParts : Nat → Text → Text × Nat
  | 0, _ => ([], 0)
  | _, [] => ([], 0)
  | bound + 1, c :: cs =>
    if Text.isNamePart c then
      let more := wordParts bound cs
      (c :: more.1, more.2 + 1)
    else if c = '\x5c' then
      match unicodeEscape? cs with
      | some (escaped, length) =>
        if Text.isNamePart escaped then
          let more := wordParts bound (cs.drop length)
          (escaped :: more.1, more.2 + length + 1)
        else ([], 0)
      | none => ([], 0)
    else ([], 0)

def word? (text : Text) : Option (Text × Nat) :=
  let parts := wordParts text.length text
  match parts.1 with
  | [] => none
  | c :: _ => if Text.isNameStart c then some parts else none

/-- Number of characters of digits that go on, each with an underscore before it
or not. An underscore has to have a digit behind it. -/
def moreDigits? (isDigit : Char → Bool) : Text → Option Nat
  | [] => some 0
  | c :: cs =>
    if c = '_' then
      match cs with
      | [] => none
      | d :: rest => if isDigit d then (moreDigits? isDigit rest).map (· + 2) else none
    else if isDigit c then (moreDigits? isDigit cs).map (· + 1)
    else some 0

def digits? (isDigit : Char → Bool) : Text → Option Nat
  | [] => none
  | c :: cs => if isDigit c then (moreDigits? isDigit cs).map (· + 1) else none

def fraction? : Text → Option Nat
  | '.' :: rest =>
    if rest.head?.any Text.isDigit then (digits? Text.isDigit rest).map (· + 1) else some 1
  | _ => some 0

def exponent? : Text → Option Nat
  | mark :: rest =>
    if mark == 'e' || mark == 'E' then
      match rest with
      | sign :: digits =>
        if sign == '+' || sign == '-' then (digits? Text.isDigit digits).map (· + 2)
        else (digits? Text.isDigit rest).map (· + 1)
      | [] => none
    else some 0
  | [] => some 0

def fractionAndExponent? (text : Text) : Option Nat :=
  (fraction? text).bind fun fraction =>
    (exponent? (text.drop fraction)).map fun exponent => fraction + exponent

def baseDigit? (letter : Char) : Option (Char → Bool) :=
  if letter == 'x' || letter == 'X' then some fun c => (hexDigit? c).isSome
  else if letter == 'o' || letter == 'O' then some fun c => '0' ≤ c && c ≤ '7'
  else if letter == 'b' || letter == 'B' then some fun c => c == '0' || c == '1'
  else none

/-- The length of a number without the mark of big integers, and whether such a
mark may follow. A number in old octal digits has no fraction. -/
def numeralBody? (text : Text) : Option (Nat × Bool) :=
  match text with
  | '0' :: next :: rest =>
    match baseDigit? next with
    | some isDigit => (digits? isDigit rest).map fun length => (length + 2, true)
    | none =>
      if Text.isDigit next then
        let digits := text.takeWhile Text.isDigit
        if digits.any fun c => c == '8' || c == '9' then
          (fractionAndExponent? (text.drop digits.length)).map fun more =>
            (digits.length + more, false)
        else some (digits.length, false)
      else if next = '_' then none
      else (fractionAndExponent? (next :: rest)).map fun more => (more + 1, more = 0)
  | '.' :: _ => (fractionAndExponent? text).map fun more => (more, false)
  | _ =>
    (digits? Text.isDigit text).bind fun whole =>
      (fractionAndExponent? (text.drop whole)).map fun more => (whole + more, more = 0)

def endsNumeral (text : Text) : Bool :=
  text.head?.all fun c => !Text.isNamePart c && c != '\x5c'

def numeral? (text : Text) : Option (Lexeme × Nat) :=
  (numeralBody? text).bind fun body =>
    match text.drop body.1 with
    | 'n' :: rest =>
      if body.2 && endsNumeral rest then some (.numeral true, body.1 + 1) else none
    | rest => if endsNumeral rest then some (.numeral false, body.1) else none

/-- Number of characters of a quoted text, behind its opening quote, up to and
with the closing one. A line may go on behind a backslash. -/
def quotedLength? (quote : Char) : Text → Option Nat
  | [] => none
  | '\x5c' :: '\r' :: '\n' :: rest => (quotedLength? quote rest).map (· + 3)
  | '\x5c' :: _ :: rest => (quotedLength? quote rest).map (· + 2)
  | c :: cs =>
    if c = quote then some 1
    else if c = '\n' || c = '\r' then none
    else (quotedLength? quote cs).map (· + 1)

def letterEscape (c : Char) : Char :=
  match c with
  | 'n' => '\n'
  | 't' => '\t'
  | 'r' => '\r'
  | 'b' => '\x08'
  | 'v' => '\x0b'
  | 'f' => '\x0c'
  | '0' => '\x00'
  | c => c

/-- What an escape stands for, behind the backslash, and its number of
characters. -/
def escape : Text → Text × Nat
  | [] => ([], 0)
  | '\r' :: '\n' :: _ => ([], 2)
  | 'x' :: a :: b :: _ =>
    match (hexNumber? [a, b]).bind characterOf? with
    | some c => ([c], 3)
    | none => (['x'], 1)
  | 'u' :: rest =>
    match unicodeEscape? ('u' :: rest) with
    | some (c, length) => ([c], length)
    | none => (['u'], 1)
  | c :: _ => if isLineBreak c then ([], 1) else ([letterEscape c], 1)

/-- The value of what stands between quotes. The first argument bounds the number
of steps. -/
def unescaped : Nat → Text → Text
  | 0, _ => []
  | _, [] => []
  | bound + 1, c :: cs =>
    if c = '\x5c' then
      let found := escape cs
      found.1 ++ unescaped bound (cs.drop found.2)
    else c :: unescaped bound cs

def quoted? (quote : Char) (text : Text) : Option (Lexeme × Nat) :=
  (quotedLength? quote text).map fun length =>
    (.string (unescaped length (text.take (length - 1))), length + 1)

/-- Number of characters of a template up to and with its end, or the opening of
an embedded expression, and whether it is the latter. -/
def templatePart? : Text → Option (Nat × Bool)
  | [] => none
  | '\x60' :: _ => some (1, false)
  | '\x5c' :: _ :: rest => (templatePart? rest).map fun more => (more.1 + 2, more.2)
  | '$' :: '\x7b' :: _ => some (2, true)
  | _ :: rest => (templatePart? rest).map fun more => (more.1 + 1, more.2)

/-- Number of characters of a regular expression, behind its opening slash, up
to and with the closing one; a slash in brackets closes nothing. -/
def patternLength? (inBrackets : Bool) : Text → Option Nat
  | [] => none
  | c :: cs =>
    if isLineBreak c then none
    else if c = '\x5c' then
      match cs with
      | [] => none
      | d :: rest => if isLineBreak d then none else (patternLength? inBrackets rest).map (· + 2)
    else if c = '/' && !inBrackets then some 1
    else
      (patternLength? (if c = '[' then true else if c = ']' then false else inBrackets) cs).map
        (· + 1)

def patternFlags : Text :=
  "dgimsuvy".toList

/-- A regular expression with its flags, at its opening slash. No flag is given
twice. -/
def pattern? : Text → Option (Lexeme × Nat)
  | '/' :: cs =>
    (patternLength? false cs).bind fun length =>
      let flags := (cs.drop length).takeWhile Text.isIdentifierPart
      if flags.all patternFlags.contains && flags.Nodup then
        some (.pattern, length + 1 + flags.length)
      else none
  | _ => none

/-- Punctuation of several characters, longer signs first. -/
def longSigns : List String :=
  ["...", "===", "!==", "**=", "<<=", "&&=", "||=", "??=",
   "=>", "==", "!=", "<=", "++", "--", "+=", "-=", "*=", "/=", "%=", "&=", "|=", "^=",
   "<<", "&&", "||", "??", "?.", "**"]

def shortSigns : List Char :=
  ['\x7b', '\x7d', '(', ')', '[', ']', ';', ',', '<', '>', '+', '-', '*', '/', '%', '&', '|', '^',
   '!', '~', '?', ':', '=', '.', '@']

/-- The punctuation at the front of a text. The mark of a conditional before a
fraction is no optional access. -/
def sign? (text : Text) : Option Text :=
  match longSigns.find? fun sign => sign.toList.isPrefixOf text &&
      !(sign == "?." && ((text.drop 2).head?.any Text.isDigit)) with
  | some sign => some sign.toList
  | none => text.head?.bind fun c => if shortSigns.contains c then some [c] else none

def angleSigns : List String :=
  [">>>=", ">>>", ">>=", ">>", ">=", ">"]

def angleSign? (text : Text) : Option Text :=
  (angleSigns.find? fun sign => sign.toList.isPrefixOf text).map String.toList

/-- The lexeme at the front of a text and its number of characters, where a slash
is a sign. -/
def lexeme? (text : Text) : Option (Lexeme × Nat) :=
  match text with
  | [] => none
  | c :: cs =>
    if Text.isNameStart c || c == '\x5c' then
      (word? text).map fun found => (.word found.1, found.2)
    else if c == '#' then (word? cs).map fun found => (.privateName, found.2 + 1)
    else if Text.isDigit c || (c == '.' && cs.head?.any Text.isDigit) then numeral? text
    else if Text.isQuote c then quoted? c cs
    else if c == '\x60' then
      (templatePart? cs).map fun found => (.template found.2, found.1 + 1)
    else (sign? text).map fun sign => (.sign sign, sign.length)

end HostClass

end ComponentExtraction
