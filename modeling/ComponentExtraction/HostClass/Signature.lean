import ComponentExtraction.HostClass.Modifier

/-!
# Signatures

The parts of a function in front of its body: type parameters, parameters and
the type of its result. Function types and methods of interfaces share them with
functions.
-/

namespace ComponentExtraction

namespace HostClass

open Reader

def typeParameter (self : Rules) : Reader Unit := do
  let _ ← modifiers .typeParameter
  let _ ← name
  if ← word "extends" then self .type
  if ← sign "=" then self .type

def typeParameters (self : Rules) : Reader Unit := do
  if ← sign "<" then
    let _ ← listUntil ">" (typeParameter self)

def typeArguments (self : Rules) : Reader Unit := do
  exchange Token.splitAngle
  requireSign "<"
  let _ ← listUntil ">" (self .type)

def typeArgumentsInLine (self : Rules) : Reader Unit := do
  if ← nextIs fun token => !token.afterBreak && token.splitAngle.isSign "<" then
    typeArguments self

def dottedNames : Reader Unit :=
  repeatWhile do
    if ← sign "." then
      let _ ← anyWord
      return true
    else return false

def namedType (self : Rules) : Reader Unit := do
  let _ ← anyWord
  dottedNames
  typeArgumentsInLine self

def initializer (self : Rules) : Reader Bool := do
  if ← sign "=" then
    let _ ← inside self.value
    return true
  else return false

def bindingElement (self : Rules) : Reader Unit := do
  let _ ← self .binding
  let _ ← sign "?"
  let _ ← self.annotation?
  let _ ← initializer self

def restBinding (self : Rules) : Reader Unit := do
  requireSign "..."
  let _ ← self .binding
  let _ ← sign "?"
  let _ ← self.annotation?

def arrayBinding (self : Rules) : Reader Unit := do
  if ← atSign "," then return ()
  else if ← atSign "..." then restBinding self
  else bindingElement self

/-- Read a property of an object pattern. A name alone is bound itself. -/
def objectBinding (self : Rules) : Reader Unit := do
  if ← atSign "..." then restBinding self
  else
    let isPlain ← nextIs Token.isName
    let _ ← propertyName self
    if isPlain && !(← atSign ":") then
      let _ ← initializer self
    else
      requireSign ":"
      bindingElement self

/-- Read a name or a pattern that is bound, and answer the name. -/
def binding (self : Rules) : Reader (Option Text) := do
  if ← sign "[" then
    let _ ← inside (listUntil "]" (arrayBinding self))
    return none
  else if ← sign "\x7b" then
    let _ ← inside (listUntil "\x7d" (objectBinding self))
    return none
  else return some (← name)

/-- Read one parameter. What is left over by the others is none that counts. -/
def parameter (self : Rules) : Reader (List Parameter) := do
  if ← atSign "..." then
    restBinding self
    return []
  else
    decorators self
    let seen ← modifiers .elsewhere
    let name ← self .binding
    let _ ← sign "?"
    let type ← self.annotation?
    if ← initializer self then return [⟨none, .missing, false⟩]
    else return [⟨name, .ofSpan type, hasModifier fieldModifiers seen⟩]

/-- Read parameters in parentheses. The type of `this` may stand before them and
is none of them. -/
def parameters (self : Rules) : Reader (List Parameter) := do
  requireSign "("
  if ← word "this" then
    let _ ← self.annotation?
    if !(← atSign ")") then requireSign ","
  return (← inside (listUntil ")" (parameter self))).flatten

def resultType (self : Rules) : Reader Unit := do
  if (← nextIs Token.isName) && (← secondInLineIs (Token.isWord · "is")) then
    let _ ← next
    let _ ← next
  self .type

def result? (self : Rules) : Reader (Option Span) := do
  if ← sign ":" then return some (← spanOf (resultType self)) else return none

def signature (self : Rules) : Reader Signature := do
  typeParameters self
  let parameters ← parameters self
  return ⟨parameters, .ofSpan (← result? self)⟩

/-- Read a function behind its name: the signature and the body, or the end of the
statement in its place. -/
def callable (self : Rules) (isGenerator isAsync : Bool) : Reader Signature :=
  within (fun _ => Context.ofFunction isGenerator isAsync) do
    let found ← signature self
    if ← atSign "\x7b" then self.block else semicolon
    return found

def function (self : Rules) (isAsync : Bool) : Reader Unit := do
  let isGenerator ← sign "*"
  let _ ← accept Token.isName
  let _ ← callable self isGenerator isAsync

end HostClass

end ComponentExtraction
