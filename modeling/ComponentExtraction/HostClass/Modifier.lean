import ComponentExtraction.HostClass.Grammar

/-!
# Modifiers and names of members

What stands in front of a member, a property or a parameter: decorators, words
that modify it, and its name. Every modifier is a name as well, so what follows a
word decides whether it modifies.
-/

namespace ComponentExtraction

namespace HostClass

open Reader

/-- Where modifiers stand, which decides about two of their words. -/
inductive ModifierPlace where
  /-- Before a member of a class, where `static` may open a block. -/
  | classMember
  | typeParameter
  /-- Before anything else, where `const` is no modifier. -/
  | elsewhere
deriving DecidableEq, Repr

def modifierWords : List String :=
  ["public", "private", "protected", "static", "abstract", "override", "readonly", "declare",
   "async", "accessor", "export", "const", "in", "out"]

def fieldModifiers : List String :=
  ["public", "private", "protected", "readonly"]

/-- Whether a token can be what a word before it modifies. -/
def canFollowModifier (token : Token) : Bool :=
  token.word?.isSome || token.isString || token.isNumeral || token.isPrivateName ||
    token.isAnySign ["[", "\x7b", "*", "..."]

/-- Whether the next word modifies what follows. That has to stand in the same
line, except behind `static` and `export`; only the first `static` counts. -/
def modifierAhead (place : ModifierPlace) (seen : List Text) : Reader Bool := do
  let token ← peek
  if token.isWord "static" then
    if "static".toList ∈ seen then return false
    else if place == .classMember && (← secondIs (Token.isSign · "\x7b")) then return false
    else secondIs canFollowModifier
  else if token.isWord "const" && place == .elsewhere then return false
  else if token.isWord "export" then
    secondIs fun second => canFollowModifier second && !second.isAnySign ["*", "\x7b"] &&
      !second.isWord "as"
  else if token.isAnyWord modifierWords then secondInLineIs canFollowModifier
  else return false

def modifiers (place : ModifierPlace) : Reader (List Text) :=
  iterate (fun seen => do
    if ← modifierAhead place seen then return some (seen ++ [← anyWord]) else return none) []

def hasModifier (words : List String) (seen : List Text) : Bool :=
  words.any fun word => word.toList ∈ seen

def accessorAhead (word : String) : Reader Bool := do
  if ← atWord word then secondIs canFollowModifier else return false

/-- Read decorators. A bracket behind one belongs to what is decorated. -/
def decorators (self : Rules) : Reader Unit :=
  repeatWhile do
    if ← sign "@" then
      let _ ← within (fun c => { c with isDecorator := true }) (self .leftHand)
      return true
    else return false

/-- Read the name of a property and answer it if it is plain: neither quoted, nor
a number, nor computed. -/
def propertyName (self : Rules) : Reader (Option Text) := do
  let token ← next
  match token.lexeme with
  | .word text => return some text
  | .string _ => return none
  | .numeral _ => return none
  | _ =>
    if token.isSign "[" then
      let _ ← inside self.value
      requireSign "]"
      return none
    else failure

def memberName (self : Rules) : Reader (Option Text) := do
  if ← accept Token.isPrivateName then return none else propertyName self

def signatureAhead : Reader Bool :=
  atAnySign ["(", "<"]

/-- Whether an index signature comes next rather than a computed name. -/
def indexSignatureAhead : Reader Bool :=
  lookahead do
    requireSign "["
    if ← atAnySign ["...", "]"] then return true
    else
      if ← nextIs (Token.isAnyWord · modifierWords) then
        let _ ← next
        if ← nextIs Token.isName then return true
      else require Token.isName
      if ← anySign [":", ","] then return true
      else
        requireSign "?"
        atAnySign [":", ",", "]"]

end HostClass

end ComponentExtraction
