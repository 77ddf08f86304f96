import ComponentExtraction.Json.Basic

/-!
# Writing JSON

The compact form has no blanks; the indented form puts every item and member on
a line of its own. Strings escape quotes, backslashes and control characters
only.
-/

namespace ComponentExtraction

namespace Json

def hexDigit (n : Nat) : Char :=
  if n < 10 then Char.ofNat ('0'.toNat + n) else Char.ofNat ('a'.toNat + (n - 10))

def escape (c : Char) : Text :=
  match c with
  | '\x22' => ['\x5c', '\x22']
  | '\x5c' => ['\x5c', '\x5c']
  | '\x08' => ['\x5c', 'b']
  | '\x0c' => ['\x5c', 'f']
  | '\n' => ['\x5c', 'n']
  | '\r' => ['\x5c', 'r']
  | '\t' => ['\x5c', 't']
  | _ =>
    if c < ' ' then
      ['\x5c', 'u', '0', '0', hexDigit (c.toNat / 16), hexDigit (c.toNat % 16)]
    else [c]

def quote (text : Text) : Text :=
  '\x22' :: text.flatMap escape ++ ['\x22']

def bracketed (opening closing : Char) (parts : List Text) : Text :=
  opening :: Text.joinWith [','] parts ++ [closing]

def bracketedLines (opening closing : Char) (depth : Nat) (parts : List Text) : Text :=
  let indent (n : Nat) : Text := '\n' :: List.replicate (2 * n) ' '
  if parts.isEmpty then [opening, closing]
  else
    opening :: Text.joinWith [','] (parts.map fun part => indent (depth + 1) ++ part)
      ++ indent depth ++ [closing]

mutual

def compact : Json → Text
  | .null => "null".toList
  | .bool value => if value then "true".toList else "false".toList
  | .number literal => literal
  | .string value => quote value
  | .unpaired => quote []
  | .array items => bracketed '[' ']' (compactItems items)
  | .object members => bracketed '\x7b' '\x7d' (compactMembers members)

def compactItems : List Json → List Text
  | [] => []
  | item :: items => item.compact :: compactItems items

def compactMembers : List (Text × Json) → List Text
  | [] => []
  | (name, value) :: members => (quote name ++ ':' :: value.compact) :: compactMembers members

end

mutual

/-- The value with two blanks of indentation for each level of nesting. -/
def indented (depth : Nat) : Json → Text
  | .null => "null".toList
  | .bool value => if value then "true".toList else "false".toList
  | .number literal => literal
  | .string value => quote value
  | .unpaired => quote []
  | .array items => bracketedLines '[' ']' depth (indentedItems (depth + 1) items)
  | .object members =>
    bracketedLines '\x7b' '\x7d' depth (indentedMembers (depth + 1) members)

def indentedItems (depth : Nat) : List Json → List Text
  | [] => []
  | item :: items => item.indented depth :: indentedItems depth items

def indentedMembers (depth : Nat) : List (Text × Json) → List Text
  | [] => []
  | (name, value) :: members =>
    (quote name ++ ": ".toList ++ value.indented depth) :: indentedMembers depth members

end

end Json

end ComponentExtraction
