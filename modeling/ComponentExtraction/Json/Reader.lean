import ComponentExtraction.Json.Basic

/-!
# Reading JSON

A text is read as exactly one value, with blanks around its parts. Reading
descends along the text: every part that is read leaves less of it.
-/

namespace ComponentExtraction

namespace Json

structure Found (α : Type) (text : Text) where
  value : α
  rest : Text
  shorter : rest.length < text.length

namespace Found

/-- A value read from the front of a text, provided that less of it is left. -/
def of? {α : Type} (value : α) (rest text : Text) : Option (Found α text) :=
  if h : rest.length < text.length then some ⟨value, rest, h⟩ else none

end Found

def isSpace (c : Char) : Bool :=
  c == ' ' || c == '\n' || c == '\t' || c == '\r'

def isDigit (c : Char) : Bool :=
  '0' ≤ c && c ≤ '9'

def hexValue? (c : Char) : Option Nat :=
  if '0' ≤ c && c ≤ '9' then some (c.toNat - '0'.toNat)
  else if 'a' ≤ c && c ≤ 'f' then some (c.toNat - 'a'.toNat + 10)
  else if 'A' ≤ c && c ≤ 'F' then some (c.toNat - 'A'.toNat + 10)
  else none

def hexValue4? (a b c d : Char) : Option Nat :=
  (hexValue? a).bind fun a => (hexValue? b).bind fun b => (hexValue? c).bind fun c =>
    (hexValue? d).map fun d => ((a * 16 + b) * 16 + c) * 16 + d

inductive StringUnit where
  | character (c : Char)
  | code (unit : Nat)
deriving Repr

def escaped? (c : Char) : Option Char :=
  match c with
  | '\x22' => some '\x22'
  | '\x5c' => some '\x5c'
  | '/' => some '/'
  | 'b' => some '\x08'
  | 'f' => some '\x0c'
  | 'n' => some '\n'
  | 'r' => some '\r'
  | 't' => some '\t'
  | _ => none

/-- The units of a string up to its closing quote, and what is left. Control
characters must be escaped. -/
def stringUnits? : Text → Option (List StringUnit × Text)
  | [] => none
  | '\x22' :: rest => some ([], rest)
  | '\x5c' :: 'u' :: a :: b :: c :: d :: rest =>
    (hexValue4? a b c d).bind fun unit =>
      (stringUnits? rest).map fun more => (.code unit :: more.1, more.2)
  | '\x5c' :: c :: rest =>
    (escaped? c).bind fun character =>
      (stringUnits? rest).map fun more => (.character character :: more.1, more.2)
  | c :: rest =>
    if c < ' ' then none
    else (stringUnits? rest).map fun more => (.character c :: more.1, more.2)

/-- The text that units denote, if every surrogate has its partner. -/
def textOfUnits? : List StringUnit → Option Text
  | [] => some []
  | .character c :: units => (textOfUnits? units).map (c :: ·)
  | .code high :: .code low :: units =>
    if 0xd800 ≤ high && high < 0xdc00 && 0xdc00 ≤ low && low < 0xe000 then
      (textOfUnits? units).map
        (Char.ofNat (0x10000 + (high - 0xd800) * 0x400 + (low - 0xdc00)) :: ·)
    else if 0xd800 ≤ high && high < 0xe000 then none
    else (textOfUnits? (.code low :: units)).map (Char.ofNat high :: ·)
  | .code unit :: units =>
    if 0xd800 ≤ unit && unit < 0xe000 then none
    else (textOfUnits? units).map (Char.ofNat unit :: ·)

def digits? (text : Text) : Option (Text × Text) :=
  let digits := text.takeWhile isDigit
  if digits.isEmpty then none else some (digits, text.dropWhile isDigit)

/-- The integral part of a number: zero, or digits that do not start with zero. -/
def integral? (text : Text) : Option (Text × Text) :=
  match text with
  | '0' :: rest => some (['0'], rest)
  | _ => digits? text

def fraction? (text : Text) : Option (Text × Text) :=
  match text with
  | '.' :: rest => (digits? rest).map fun found => ('.' :: found.1, found.2)
  | _ => some ([], text)

def exponent? (text : Text) : Option (Text × Text) :=
  match text with
  | c :: rest =>
    if c == 'e' || c == 'E' then
      match rest with
      | [] => none
      | sign :: rest' =>
        if sign == '+' || sign == '-' then
          (digits? rest').map fun found => (c :: sign :: found.1, found.2)
        else (digits? (sign :: rest')).map fun found => (c :: found.1, found.2)
    else some ([], text)
  | [] => some ([], [])

def unsigned? (text : Text) : Option (Text × Text) :=
  (integral? text).bind fun whole =>
    (fraction? whole.2).bind fun part =>
      (exponent? part.2).map fun power => (whole.1 ++ part.1 ++ power.1, power.2)

def number? (text : Text) : Option (Text × Text) :=
  match text with
  | '-' :: rest => (unsigned? rest).map fun found => ('-' :: found.1, found.2)
  | _ => unsigned? text

def ofUnits (units : List StringUnit) : Json :=
  match textOfUnits? units with
  | some text => .string text
  | none => .unpaired

private theorem length_lt_of_dropWhile {text : Text} {c : Char} {rest : Text}
    (h : text.dropWhile isSpace = c :: rest) : rest.length < text.length := by
  have := (List.dropWhile_sublist isSpace (l := text)).length_le
  rw [h, List.length_cons] at this
  exact this

mutual

def readValue? (text : Text) : Option (Found Json text) :=
  match _h : text.dropWhile isSpace with
  | [] => none
  | c :: rest =>
    if c == '\x22' then
      (stringUnits? rest).bind fun found => Found.of? (ofUnits found.1) found.2 text
    else if c == '[' then
      match rest.dropWhile isSpace with
      | ']' :: after => Found.of? (.array []) after text
      | _ => (readItems? rest).bind fun found => Found.of? (.array found.value) found.rest text
    else if c == '\x7b' then
      match rest.dropWhile isSpace with
      | '\x7d' :: after => Found.of? (.object []) after text
      | _ => (readMembers? rest).bind fun found => Found.of? (.object found.value) found.rest text
    else
      match Text.stripStart? "null".toList (c :: rest), Text.stripStart? "true".toList (c :: rest),
        Text.stripStart? "false".toList (c :: rest) with
      | some after, _, _ => Found.of? .null after text
      | _, some after, _ => Found.of? (.bool true) after text
      | _, _, some after => Found.of? (.bool false) after text
      | none, none, none =>
        (number? (c :: rest)).bind fun found => Found.of? (.number found.1) found.2 text
termination_by text.length * 2
decreasing_by
  · have := length_lt_of_dropWhile _h; omega
  · have := length_lt_of_dropWhile _h; omega

def readItems? (text : Text) : Option (Found (List Json) text) :=
  (readValue? text).bind fun first =>
    match _h : first.rest.dropWhile isSpace with
    | ',' :: rest =>
      (readItems? rest).bind fun more => Found.of? (first.value :: more.value) more.rest text
    | ']' :: rest => Found.of? [first.value] rest text
    | _ => none
termination_by text.length * 2 + 1
decreasing_by
  · omega
  · have := length_lt_of_dropWhile _h
    have := first.shorter
    omega

def readMembers? (text : Text) : Option (Found (List (Text × Json)) text) :=
  match text.dropWhile isSpace with
  | '\x22' :: rest =>
    (stringUnits? rest).bind fun key =>
      (textOfUnits? key.1).bind fun name =>
        match key.2.dropWhile isSpace with
        | ':' :: after =>
          if _shorter : after.length < text.length then
            (readValue? after).bind fun member =>
              match _h : member.rest.dropWhile isSpace with
              | ',' :: rest =>
                (readMembers? rest).bind fun more =>
                  Found.of? ((name, member.value) :: more.value) more.rest text
              | '\x7d' :: rest => Found.of? [(name, member.value)] rest text
              | _ => none
          else none
        | _ => none
  | _ => none
termination_by text.length * 2 + 1
decreasing_by
  · omega
  · have := length_lt_of_dropWhile _h
    have := member.shorter
    omega

end

def parse? (text : Text) : Option Json :=
  (readValue? text).bind fun found =>
    if found.rest.all isSpace then some found.value else none

end Json

end ComponentExtraction
