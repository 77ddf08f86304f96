import ComponentExtraction.HostClass.Type

/-!
# Classes

The members that a class declares.
-/

namespace ComponentExtraction

namespace HostClass

open Reader

def constructorAhead : Reader Bool := do
  let token ← peek
  if token.isWord "constructor" then secondIs (Token.isAnySign · ["(", "<"])
  else if token.lexeme == .string "constructor".toList then secondIs (Token.isSign · "(")
  else return false

def fieldRest (self : Rules) : Reader TypeSource := do
  let _ ← sign "!"
  let type ← self.annotation?
  let value ← if ← sign "=" then
      let form ← within (fun _ => {}) self.value
      pure (TypeSource.value form)
    else pure TypeSource.missing
  semicolon
  match type with
  | some span => return .written span
  | none => return value

def methodOrField (self : Rules) (isAsync : Bool) : Reader Member := do
  let isGenerator ← sign "*"
  let name ← memberName self
  let _ ← sign "?"
  if isGenerator || (← signatureAhead) then
    let _ ← callable self isGenerator isAsync
    return .named name .method
  else
    let type ← fieldRest self
    return .named name fun text => .field text type

def memberBehind (self : Rules) (seen : List Text) : Reader Member := do
  if ← accessorAhead "get" then
    let _ ← next
    let name ← memberName self
    let found ← callable self false false
    return .named name fun text => .field text found.result
  else if ← accessorAhead "set" then
    let _ ← next
    let name ← memberName self
    let found ← callable self false false
    return .named name fun text => .field text found.firstType
  else if !hasModifier ["static"] seen && (← constructorAhead) then
    let _ ← next
    let found ← callable self false false
    return .constructor found.parameters
  else if ← indexSignatureAhead then
    indexSignature self
    return .hidden
  else methodOrField self (hasModifier ["async"] seen)

def classMember (self : Rules) : Reader Member := do
  decorators self
  let seen ← modifiers .classMember
  if (← atWord "static") && (← secondIs (Token.isSign · "\x7b")) then
    let _ ← next
    within (fun _ => Context.ofFunction false true) self.block
    return .hidden
  else
    let member ← memberBehind self seen
    if hasModifier ["static", "accessor"] seen then return .hidden else return member

def heritage (self : Rules) : Reader Unit :=
  repeatWhile do
    if ← word "extends" then
      let _ ← commaList do
        let _ ← self .leftHand
        if ← atSign "<" then typeArguments self
      return true
    else if ← word "implements" then
      let _ ← commaList (namedType self)
      return true
    else return false

def classRest (self : Rules) : Reader (List Member) := do
  let _ ← accept fun token => token.isName && !token.isWord "implements"
  typeParameters self
  heritage self
  requireSign "\x7b"
  itemsUntil "\x7d" do
    if ← sign ";" then return .hidden else classMember self

end HostClass

end ComponentExtraction
