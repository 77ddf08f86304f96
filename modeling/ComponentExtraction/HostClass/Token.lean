import ComponentExtraction.HostClass.Lexeme
import ComponentExtraction.Text.Cursor

/-!
# Tokens of TypeScript

A token is a lexeme in its place. It can be read once more as another lexeme,
where what is being read asks for one.
-/

namespace ComponentExtraction

namespace HostClass

/-- A lexeme, whether a line break stands before it, and the cursors at its start
and behind it. -/
structure Token where
  lexeme : Lexeme
  afterBreak : Bool
  here : Cursor
  after : Cursor
deriving DecidableEq, Repr

namespace Token

def read (c : Cursor) : Token :=
  let (length, broken) := blanks .between c.rest
  let here := c.skip length
  match here.rest with
  | [] => ⟨.finish, broken, here, here⟩
  | text =>
    match lexeme? text with
    | some (lexeme, length) => ⟨lexeme, broken, here, here.skip length⟩
    | none => ⟨.invalid, broken, here, here.skip 1⟩

def following (t : Token) : Token :=
  read t.after

def become (t : Token) (lexeme : Lexeme) (length : Nat) : Token :=
  { t with lexeme := lexeme, after := t.here.skip length }

def start (t : Token) : Nat :=
  t.here.offset

def stop (t : Token) : Nat :=
  t.after.offset

def isSign (t : Token) (sign : String) : Bool :=
  t.lexeme == .sign sign.toList

def isAnySign (t : Token) (signs : List String) : Bool :=
  signs.any fun sign => t.isSign sign

def isWord (t : Token) (word : String) : Bool :=
  t.lexeme == .word word.toList

def isAnyWord (t : Token) (words : List String) : Bool :=
  words.any fun word => t.isWord word

def word? (t : Token) : Option Text :=
  match t.lexeme with
  | .word text => some text
  | _ => none

def reservedWords : List String :=
  ["break", "case", "catch", "class", "const", "continue", "debugger", "default", "delete", "do",
   "else", "enum", "export", "extends", "false", "finally", "for", "function", "if", "import",
   "in", "instanceof", "new", "null", "return", "super", "switch", "this", "throw", "true", "try",
   "typeof", "var", "void", "while", "with"]

def isName (t : Token) : Bool :=
  t.word?.isSome && !t.isAnyWord reservedWords

def isString (t : Token) : Bool :=
  match t.lexeme with
  | .string _ => true
  | _ => false

def isNumeral (t : Token) : Bool :=
  match t.lexeme with
  | .numeral _ => true
  | _ => false

def isTemplate (t : Token) : Bool :=
  match t.lexeme with
  | .template _ => true
  | _ => false

def isPrivateName (t : Token) : Bool :=
  t.lexeme == .privateName

/-- A sign that starts with an opening angle bracket as that bracket alone. -/
def splitAngle (t : Token) : Token :=
  if t.isAnySign ["<<", "<=", "<<="] then t.become (.sign ['<']) 1 else t

/-- A closing angle bracket together with the signs that directly follow it. -/
def joinAngles (t : Token) : Token :=
  if t.isSign ">" then
    match angleSign? t.here.rest with
    | some sign => t.become (.sign sign) sign.length
    | none => t
  else t

def asPattern (t : Token) : Token :=
  match pattern? t.here.rest with
  | some (lexeme, length) => t.become lexeme length
  | none => t.become .invalid 1

/-- A closing brace as the end of an expression embedded in a template. -/
def asTemplateRest (t : Token) : Token :=
  match templatePart? (t.here.rest.drop 1) with
  | some (length, isOpen) => t.become (.templateRest isOpen) (length + 1)
  | none => t.become .invalid 1

end Token

/-- The cursor behind the first line when that line names an interpreter. -/
def afterInterpreter (c : Cursor) : Cursor :=
  if c.startsWith "#!".toList then c.skipWhile fun ch => !isLineBreak ch else c

end HostClass

end ComponentExtraction
