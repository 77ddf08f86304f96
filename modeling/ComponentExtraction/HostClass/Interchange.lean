import ComponentExtraction.HostClass.Declaration

/-!
# Imports and exports

The statements by which a module takes names from others and gives its own to
them. What is exported may be a class that the statement declares.
-/

namespace ComponentExtraction

namespace HostClass

open Reader

def importAttribute : Reader Unit := do
  require fun token => token.word?.isSome || token.isString
  requireSign ":"
  require Token.isString

def importAttributes : Reader Unit := do
  if ← accept fun token => token.isWord "with" || !token.afterBreak && token.isWord "assert" then
    requireSign "\x7b"
    let _ ← listUntil "\x7d" importAttribute

def moduleName : Reader Unit := do
  require Token.isString
  importAttributes
  semicolon

def fromModule : Reader Unit := do
  requireWord "from"
  moduleName

def isOuterName (token : Token) : Bool :=
  token.word?.isSome || token.isString

/-- Read what is taken or given under one name: the name, another name behind `as`,
and `type` in front of them. Each of the two words is a name as well, so the
number of words decides. -/
def specifier : Reader Unit := do
  let tokens ← collect do
    if ← nextIs isOuterName then return some (← next) else return none
  match tokens with
  | [_] => return ()
  | [kind, _] => if kind.isWord "type" then return () else failure
  | [_, middle, _] => if middle.isWord "as" then return () else failure
  | [kind, _, middle, _] =>
    if kind.isWord "type" && middle.isWord "as" then return () else failure
  | _ => failure

def specifiers : Reader Unit := do
  requireSign "\x7b"
  let _ ← listUntil "\x7d" specifier

/-- Read what is imported behind a possible default: a whole module under a name, or
specifiers. -/
def importedNames : Reader Unit := do
  if ← sign "*" then
    requireWord "as"
    let _ ← name
  else specifiers

/-- Whether the word just read is no name but says how to import what comes next:
only types, or only one phase of a module. -/
def importKindAhead (kind : Text) : Reader Bool := do
  let namesFollow := do
    if ← atWord "from" then secondIs fun token => token.isWord "from" || token.isSign "="
    else nextIs Token.isName
  if kind = "type".toList then
    if ← namesFollow then return true else atAnySign ["*", "\x7b"]
  else if kind = "source".toList then namesFollow
  else if kind = "defer".toList then atSign "*"
  else return false

/-- Read the name that an import starts with, if it does, behind the word for the
kind of import; answer whether there is a name. -/
def importedName : Reader Bool := do
  if ← nextIs Token.isName then
    let first ← name
    if ← importKindAhead first then accept Token.isName else return true
  else return false

def importRest : Reader Unit := do
  if ← nextIs Token.isString then moduleName
  else if ← importedName then
    if ← atSign "=" then importEquation
    else
      if ← sign "," then importedNames
      fromModule
  else
    importedNames
    fromModule

def exportedNames : Reader Unit := do
  if ← sign "*" then
    if ← word "as" then require isOuterName
    fromModule
  else
    specifiers
    if ← atWord "from" then fromModule else semicolon

def abstractClassAhead : Reader Bool := do
  if ← atWord "abstract" then secondInLineIs (Token.isWord · "class") else return false

def defaultExport (self : Rules) : Reader Declared := do
  if ← atSign "@" then
    decorators self
    let _ ← word "abstract"
    requireWord "class"
    return some (← classRest self)
  else if ← abstractClassAhead then
    let _ ← next
    let _ ← next
    return some (← classRest self)
  else if ← word "class" then return some (← classRest self)
  else
    if ← word "function" then function self false
    else if (← atWord "async") && (← secondInLineIs (Token.isWord · "function")) then
      let _ ← next
      let _ ← next
      function self true
    else if (← atWord "interface") && (← secondInLineIs Token.isName) then
      let _ ← next
      interfaceRest self
    else
      let _ ← self.value
      semicolon
    return none

def exportRest (self : Rules) : Reader Declared := do
  if ← sign "=" then
    let _ ← self.value
    semicolon
    return none
  else if ← atAnySign ["*", "\x7b"] then
    exportedNames
    return none
  else if (← atWord "type") && (← secondIs (Token.isAnySign · ["*", "\x7b"])) then
    let _ ← next
    exportedNames
    return none
  else if ← word "default" then defaultExport self
  else if ← word "import" then
    let _ ← importedName
    importEquation
    return none
  else if (← atWord "as") && (← secondIs (Token.isWord · "namespace")) then
    let _ ← next
    let _ ← next
    let _ ← name
    semicolon
    return none
  else
    decorators self
    declaration self

end HostClass

end ComponentExtraction
