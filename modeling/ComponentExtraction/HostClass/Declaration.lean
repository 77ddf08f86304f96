import ComponentExtraction.HostClass.Expression

/-!
# Declarations

Variables, functions, classes, interfaces, named types, enumerations and
namespaces. Only a class tells what it declares.
-/

namespace ComponentExtraction

namespace HostClass

open Reader

def declarator (self : Rules) : Reader Unit := do
  let _ ← self .binding
  let _ ← accept fun token => !token.afterBreak && token.isSign "!"
  let _ ← sign "?"
  let _ ← self.annotation?
  if ← sign "=" then
    let _ ← self.value

def declarators (self : Rules) : Reader Unit := do
  let _ ← commaList (declarator self)

def interfaceRest (self : Rules) : Reader Unit := do
  let _ ← name
  typeParameters self
  heritage self
  typeMembers self

def typeAliasRest (self : Rules) : Reader Unit := do
  let _ ← name
  typeParameters self
  requireSign "="
  self .type
  semicolon

def enumerationMember (self : Rules) : Reader Unit := do
  let _ ← propertyName self
  let _ ← initializer self

def enumerationRest (self : Rules) : Reader Unit := do
  let _ ← name
  requireSign "\x7b"
  let _ ← inside (listUntil "\x7d" (enumerationMember self))

def namespaceRest (self : Rules) : Reader Unit := do
  if ← accept Token.isString then
    if ← atSign "\x7b" then self.block else semicolon
  else
    let _ ← name
    repeatWhile do
      if ← sign "." then
        let _ ← name
        return true
      else return false
    self.block

def importEquation : Reader Unit := do
  requireSign "="
  if (← atWord "require") && (← secondIs (Token.isSign · "(")) then
    let _ ← next
    let _ ← next
    require Token.isString
    requireSign ")"
  else
    let _ ← anyWord
    dottedNames
  semicolon

/-- The words that may stand before the keyword of a declaration, in its line. -/
def declarationModifiers : List String :=
  ["abstract", "accessor", "async", "declare", "private", "protected", "public", "readonly"]

/-- Whether the keyword of a declaration comes next. Most of them are names as
well, so what follows decides. -/
def declarationKeywordAhead : Reader Bool := do
  let token ← peek
  if token.isAnyWord ["var", "let", "const", "function", "class", "enum"] then return true
  else if token.isAnyWord ["interface", "type"] then secondInLineIs Token.isName
  else if token.isAnyWord ["module", "namespace"] then
    secondInLineIs fun second => second.isName || second.isString
  else if token.isWord "global" then
    secondIs fun second => second.isSign "\x7b" || second.isName || second.isWord "export"
  else if token.isWord "import" then
    secondIs fun second =>
      second.isString || second.isAnySign ["*", "\x7b"] || second.word?.isSome
  else return false

def declarationAhead : Reader Bool :=
  lookahead do
    repeatWhile do
      if ← word "static" then return true
      else if ← accept (Token.isAnyWord · declarationModifiers) then
        if ← nextIs Token.afterBreak then failure else return true
      else return false
    declarationKeywordAhead

def declarationBehind (self : Rules) (isAsync : Bool) : Reader Declared := do
  if ← word "class" then return some (← classRest self)
  else
    if ← word "function" then function self isAsync
    else if ← word "enum" then enumerationRest self
    else if ← word "const" then
      if ← word "enum" then enumerationRest self
      else
        declarators self
        semicolon
    else if ← accept (Token.isAnyWord · ["var", "let", "using"]) then
      declarators self
      semicolon
    else if ← word "interface" then interfaceRest self
    else if ← word "type" then typeAliasRest self
    else if ← accept (Token.isAnyWord · ["module", "namespace"]) then namespaceRest self
    else if ← word "global" then self.block
    else
      requireWord "import"
      let _ ← name
      importEquation
    return none

def declaration (self : Rules) : Reader Declared := do
  let seen ← iterate (fun seen => do
    if (← nextIs (Token.isAnyWord · ("static" :: declarationModifiers))) then
      return some (seen ++ [← anyWord])
    else return none) []
  declarationBehind self ("async".toList ∈ seen)

end HostClass

end ComponentExtraction
