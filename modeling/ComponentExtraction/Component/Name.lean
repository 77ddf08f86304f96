import ComponentExtraction.Text.Blank
import ComponentExtraction.Text.Classes
import ComponentExtraction.Text.Uppercase

/-!
# Names of components

The class of a component is named in upper camel case, its files and its
selector in lower case with hyphens.
-/

namespace ComponentExtraction

namespace Component

inductive NameProblem where
  | empty
  | badStart
  | badCharacter (character : Char)
deriving DecidableEq, Repr

namespace NameProblem

def message : NameProblem → Text
  | empty => "name is empty".toList
  | badStart => "must start with a letter, '_' or '$'".toList
  | badCharacter character => "unexpected character '".toList ++ character :: "'".toList

end NameProblem

/-- The name without surrounding blanks and with an upper case first letter, if
it is an identifier. -/
def normalizeName (name : Text) : Except NameProblem Text :=
  match Text.trim name with
  | [] => .error .empty
  | first :: rest =>
    if Text.isIdentifierStart first then
      match rest.find? fun c => !Text.isIdentifierPart c with
      | some bad => .error (.badCharacter bad)
      | none => .ok (Text.capitalize (first :: rest))
    else .error .badStart

def isCapital (c : Char) : Bool :=
  'A' ≤ c && c ≤ 'Z'

/-- A name in lower case with a hyphen before every word but the first; every
upper case letter starts a word. -/
def kebab : Text → Text
  | [] => []
  | first :: rest =>
    first.toLower :: rest.flatMap fun c => if isCapital c then ['-', c.toLower] else [c]

end Component

end ComponentExtraction
