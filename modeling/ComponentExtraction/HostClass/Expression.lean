import ComponentExtraction.HostClass.Operand

/-!
# Expressions

Operators, arrow functions, conditionals and assignments. The precedence of
operators does not matter to where an expression ends, so operands are read one
after the other.
-/

namespace ComponentExtraction

namespace HostClass

open Reader

/-- Whether the next word is an operator on what follows it, given whether it
always is one here. -/
def operatorWordAhead (word : String) (isOperator : Bool) : Reader Bool := do
  if ← atWord word then
    if isOperator then return true
    else secondInLineIs fun token =>
      token.word?.isSome || token.isString || token.isNumeral
  else return false

def counted (self : Rules) : Reader Value := do
  if ← anySign ["++", "--"] then
    if (← self .unary).isPlace then return .other else failure
  else
    let value ← leftHand self
    if ← accept fun token => !token.afterBreak && token.isAnySign ["++", "--"] then
      if value.isPlace then return .other else failure
    else return value

def unary (self : Rules) : Reader Value := do
  if ← anySign ["+", "-"] then return (← self .unary).withSign
  else if ← accept fun token =>
      token.isAnySign ["!", "~"] || token.isAnyWord ["typeof", "void", "delete"] then
    let _ ← self .unary
    return .other
  else if ← sign "<" then
    self .type
    requireSign ">"
    return (← self .unary).enclosed
  else if ← operatorWordAhead "await" (← read).awaits then
    let _ ← next
    let _ ← within (fun c => { c with awaits := true }) (self .unary)
    return .other
  else counted self

def operatorSigns : List String :=
  ["+", "-", "*", "/", "%", "**", "<", ">", "<=", ">=", "==", "!=", "===", "!==", "&", "|", "^",
   "<<", ">>", ">>>", "&&", "||", "??"]

/-- Read an operand. A private name alone is one before `in`. -/
def operand (self : Rules) : Reader Value := do
  if ← accept Token.isPrivateName then
    if ← atWord "in" then return .other else failure
  else unary self

/-- Read an operator with the operand behind it, or the type that a value is said
to have, if one comes next. -/
def operation? (self : Rules) (value : Value) : Reader (Option Value) := do
  exchange Token.joinAngles
  let allowsIn := (← read).allowsIn
  if ← accept fun token => token.isAnySign operatorSigns || token.isWord "instanceof" ||
      allowsIn && token.isWord "in" then
    let _ ← operand self
    return some .other
  else if ← accept fun token =>
      !token.afterBreak && token.isAnyWord ["as", "satisfies"] then
    self .type
    return some value.enclosed
  else return none

def operation (self : Rules) : Reader Value := do
  iterate (operation? self) (← operand self)

/-- How sure it is that parentheses are the parameters of an arrow function. -/
inductive Certainty where
  | excluded
  | possible
  | sure
deriving DecidableEq, Repr

/-- Judge parentheses by what stands in front of them and in them, which is
read. -/
def judgeParentheses : Reader Certainty := do
  if ← sign "<" then
    if ← nextIs fun token => token.isName || token.isWord "const" then return .possible
    else return .excluded
  else
    requireSign "("
    if ← sign ")" then
      if ← atAnySign ["=>", ":", "\x7b"] then return .sure else return .excluded
    else if ← atAnySign ["[", "\x7b"] then return .possible
    else if ← atSign "..." then return .sure
    else if (← nextIs fun token => token.isAnyWord modifierWords && !token.isWord "async") &&
        (← secondIs Token.isName) then
      if ← secondIs (Token.isWord · "as") then return .excluded else return .sure
    else if ← accept fun token => token.isName || token.isWord "this" then
      if ← sign ":" then return .sure
      else if ← sign "?" then
        if ← atAnySign [":", ",", "=", ")"] then return .sure else return .excluded
      else if ← atAnySign [",", "=", ")"] then return .possible
      else return .excluded
    else return .excluded

def arrowAhead : Reader Certainty := do
  let found ← ahead do
    if ← word "async" then
      if ← nextIs Token.afterBreak then failure
    judgeParentheses
  return found.getD .excluded

def arrowBody (self : Rules) (isAsync allowsResult : Bool) : Reader Unit :=
  within (fun c => { c with yields := false, awaits := c.awaits || isAsync }) do
    if ← atSign "\x7b" then self.block
    else
      let _ ← self (.assignment allowsResult)

/-- Read an arrow function with parentheses. Where a result is not allowed, it is
only taken for one if another colon follows. -/
def arrowFunction (self : Rules) (allowsResult : Bool) : Reader Unit := do
  let isAsync ← word "async"
  typeParameters self
  let _ ← parameters self
  let result ← result? self
  requireSign "=>"
  arrowBody self isAsync allowsResult
  if result.isSome && !allowsResult then
    if !(← atSign ":") then failure

/-- Read an arrow function, if one comes next that does not start with its only
parameter. -/
def arrowFunction? (self : Rules) (allowsResult : Bool) : Reader Bool := do
  if (← atWord "async") && (← secondInLineIs Token.isName) &&
      (← lookahead do let _ ← next; let _ ← next; atSign "=>") then
    let _ ← next
    let _ ← next
    requireSign "=>"
    arrowBody self true allowsResult
    return true
  else
    match ← arrowAhead with
    | .excluded => return false
    | .possible => return (← attempt (arrowFunction self allowsResult)).isSome
    | .sure =>
      arrowFunction self true
      return true

def yielded (self : Rules) : Reader Unit := do
  if ← nextIs Token.afterBreak then return ()
  else if ← sign "*" then
    let _ ← self.value
  else if ← nextIs fun token => token.isAnySign [")", "]", "\x7d", ":", ";", ","] ||
      token.isWord "in" || token.lexeme == .finish then return ()
  else
    let _ ← self.value

def updateSigns : List String :=
  ["+=", "-=", "*=", "/=", "%=", "**=", "<<=", ">>=", ">>>=", "&=", "|=", "^=", "&&=", "||=", "??="]

def assignmentRest (self : Rules) (allowsResult : Bool) (value : Value) : Reader Value := do
  if ← accept fun token => value == .name && token.isSign "=>" then
    arrowBody self false allowsResult
    return .other
  else if ← sign "=" then
    if value.isTarget then
      let _ ← self (.assignment allowsResult)
      return .assignment
    else failure
  else if ← anySign updateSigns then
    if value.isPlace then
      let _ ← self (.assignment allowsResult)
      return .assignment
    else failure
  else if ← sign "?" then
    let _ ← within (Context.withIn true) (self (.assignment false))
    requireSign ":"
    let _ ← self (.assignment allowsResult)
    return .other
  else return value

def assignment (self : Rules) (allowsResult : Bool) : Reader Value := do
  if ← operatorWordAhead "yield" (← read).yields then
    let _ ← next
    yielded self
    return .other
  else if ← arrowFunction? self allowsResult then return .other
  else assignmentRest self allowsResult (← operation self)

end HostClass

end ComponentExtraction
