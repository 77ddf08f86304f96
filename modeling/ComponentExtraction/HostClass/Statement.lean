import ComponentExtraction.HostClass.Interchange

/-!
# Statements

The statements of modules and functions, and which of them declare a class.
-/

namespace ComponentExtraction

namespace HostClass

open Reader

def condition (self : Rules) : Reader Unit := do
  requireSign "("
  let _ ← inside self.expression
  requireSign ")"

def body (self : Rules) : Reader Unit := do
  let _ ← self .statement

def loopVariableAhead : Reader Bool := do
  let token ← peek
  if token.isAnyWord ["var", "const"] then return true
  else if token.isWord "let" then
    secondIs fun second =>
      second.word?.isSome && !second.isWord "in" || second.isAnySign ["[", "\x7b"]
  else if token.isWord "using" then
    secondInLineIs fun second => second.isName && !second.isWord "of"
  else return false

def awaitedVariableAhead : Reader Bool :=
  lookahead do
    requireWord "await"
    require fun token => !token.afterBreak && token.isWord "using"
    nextIs fun token => !token.afterBreak && token.isName

/-- Read the rest of the head of a loop behind what is set in each round, or
behind what is done before the first one. -/
def loopHeadRest (self : Rules) (isTarget : Bool) : Reader Unit := do
  if ← word "in" then
    let _ ← self.expression
    if !isTarget then failure
  else if ← word "of" then
    let _ ← self.value
    if !isTarget then failure
  else
    requireSign ";"
    if !(← atSign ";") then
      let _ ← self.expression
    requireSign ";"
    if !(← atSign ")") then
      let _ ← self.expression

def loopHead (self : Rules) : Reader Unit := do
  requireSign "("
  inside do
    if ← atSign ";" then loopHeadRest self false
    else if ← awaitedVariableAhead then
      let _ ← next
      let _ ← next
      within (Context.withIn false) (declarators self)
      loopHeadRest self true
    else if ← loopVariableAhead then
      let _ ← next
      within (Context.withIn false) (declarators self)
      loopHeadRest self true
    else
      let value ← within (Context.withIn false) self.expression
      loopHeadRest self value.isTarget
  requireSign ")"

def choiceCase (self : Rules) : Reader Unit := do
  if ← word "case" then
    let _ ← self.expression
  else requireWord "default"
  requireSign ":"
  repeatWhile do
    if ← nextIs fun token => token.isAnyWord ["case", "default"] || token.isSign "\x7d" then
      return false
    else
      body self
      return true

def choiceCases (self : Rules) : Reader Unit :=
  inside do
    requireSign "\x7b"
    let _ ← itemsUntil "\x7d" (choiceCase self)

def guarded (self : Rules) : Reader Unit := do
  self.block
  if ← word "catch" then
    if ← sign "(" then
      let _ ← self .binding
      let _ ← self.annotation?
      requireSign ")"
    self.block
  if ← word "finally" then self.block

def jumpEnd : Reader Unit := do
  if !(← nextIs fun token => token.afterBreak || token.isAnySign [";", "\x7d"] ||
      token.lexeme == .finish) then
    let _ ← name
  semicolon

def returnEnd (self : Rules) : Reader Unit := do
  if !(← nextIs fun token => token.afterBreak || token.isAnySign [";", "\x7d"] ||
      token.lexeme == .finish) then
    let _ ← self.expression
  semicolon

/-- Read a statement that starts with a keyword and declares nothing, if one comes
next. -/
def control? (self : Rules) : Reader Bool := do
  if ← word "if" then
    condition self
    body self
    if ← word "else" then body self
  else if ← accept (Token.isAnyWord · ["while", "with"]) then
    condition self
    body self
  else if ← word "for" then
    let _ ← word "await"
    loopHead self
    body self
  else if ← word "do" then
    body self
    requireWord "while"
    condition self
    let _ ← sign ";"
  else if ← word "switch" then
    condition self
    choiceCases self
  else if ← word "try" then guarded self
  else if ← word "throw" then
    let _ ← self.expression
    semicolon
  else if ← word "return" then returnEnd self
  else if ← accept (Token.isAnyWord · ["break", "continue"]) then jumpEnd
  else if ← word "debugger" then semicolon
  else return false
  return true

def letAhead : Reader Bool := do
  if ← atWord "let" then
    secondIs fun token =>
      !(token.isAnySign (";" :: "." :: "(" :: "=" :: operatorSigns ++ updateSigns) ||
        token.isAnyWord ["in", "instanceof"])
  else return false

/-- Whether a declaration that starts with a reserved word or with a word of its own
comes next. -/
def plainDeclarationAhead : Reader Bool := do
  if ← nextIs (Token.isAnyWord · ["class", "function", "const", "var"]) then return true
  else if ← atWord "using" then secondInLineIs Token.isName
  else if ← atWord "async" then secondInLineIs (Token.isWord · "function")
  else letAhead

/-- The words that only start a declaration if what follows them does. -/
def declarationWords : List String :=
  ["interface", "type", "module", "namespace", "declare", "enum", "private", "protected", "public",
   "abstract", "accessor", "static", "readonly", "global"]

def declarationStatementAhead : Reader Bool := do
  if ← plainDeclarationAhead then return true
  else if ← nextIs (Token.isAnyWord · declarationWords) then declarationAhead
  else return false

/-- Read an expression as a statement. A name alone may be a label. -/
def expressionStatement (self : Rules) : Reader Unit := do
  let value ← self.expression
  if ← accept fun token => value == .name && token.isSign ":" then body self else semicolon

def statement (self : Rules) : Reader Declared := do
  if ← sign ";" then return none
  else if ← atSign "\x7b" then
    self.block
    return none
  else if ← control? self then return none
  else if ← atSign "@" then
    decorators self
    if ← word "export" then exportRest self
    else
      let _ ← modifiers .elsewhere
      requireWord "class"
      return some (← classRest self)
  else if ← word "export" then exportRest self
  else if (← atWord "import") && !(← secondIs (Token.isAnySign · ["(", "."])) then
    let _ ← next
    importRest
    return none
  else if ← awaitedVariableAhead then
    let _ ← next
    let _ ← next
    declarators self
    semicolon
    return none
  else if ← declarationStatementAhead then declaration self
  else
    expressionStatement self
    return none

end HostClass

end ComponentExtraction
