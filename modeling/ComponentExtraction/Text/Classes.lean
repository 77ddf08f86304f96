import ComponentExtraction.Text.Basic

/-!
# Character classes of templates

The classes that markup and expressions are made of. Identifiers are ASCII;
a name in markup is anything up to a blank, a quote or a delimiter of tags.
-/

namespace ComponentExtraction

namespace Text

/-- Control characters, the space and the no-break space; never NUL. -/
def isSpace (c : Char) : Bool :=
  (c != '\x00' && c ≤ ' ') || c == '\u00a0'

def isDigit (c : Char) : Bool :=
  '0' ≤ c && c ≤ '9'

def isLetter (c : Char) : Bool :=
  ('a' ≤ c && c ≤ 'z') || ('A' ≤ c && c ≤ 'Z')

def isIdentifierStart (c : Char) : Bool :=
  isLetter c || c == '_' || c == '$'

def isIdentifierPart (c : Char) : Bool :=
  isIdentifierStart c || isDigit c

def isQuote (c : Char) : Bool :=
  c == '\x27' || c == '\x22'

/-- Characters that end the name of a tag or of an attribute. Brackets and
parentheses do not, so that a two-way binding is one name. -/
def isNameEnd (c : Char) : Bool :=
  isSpace c || c == '\x00' || c == '<' || c == '>' || c == '/' || c == '=' || isQuote c

end Text

end ComponentExtraction
