import ComponentExtraction.HostClass.Class

/-!
# Operands

Expressions without operators: names, literals, arrays, objects, functions,
classes and constructions, with the member accesses and calls behind them.
-/

namespace ComponentExtraction

namespace HostClass

open Reader

def spreadOrValue (self : Rules) : Reader Item := do
  if ← sign "..." then return .ofSpread (← self.value) else return .ofValue (← self.value)

def arrayElement (self : Rules) : Reader Item := do
  if ← atSign "," then return .free else spreadOrValue self

def arrayRest (self : Rules) : Reader Value := do
  return .array (Item.areTargets (← inside (listUntil "]" (arrayElement self))))

/-- Read a property of an object behind its modifiers. A name alone is its own
value; a default behind it belongs to a target. -/
def propertyBehind (self : Rules) (isAsync : Bool) : Reader Item := do
  if (← accessorAhead "get") || (← accessorAhead "set") then
    let _ ← next
    let _ ← propertyName self
    let _ ← callable self false false
    return .fixed
  else
    let isGenerator ← sign "*"
    let isPlain ← nextIs Token.isName
    let _ ← propertyName self
    if isGenerator || (← signatureAhead) then
      let _ ← callable self isGenerator isAsync
      return .fixed
    else if isPlain && !(← atSign ":") then
      let _ ← initializer self
      return .free
    else
      requireSign ":"
      return .ofValue (← self.value)

def property (self : Rules) : Reader Item := do
  if ← atSign "..." then spreadOrValue self
  else
    let seen ← modifiers .elsewhere
    propertyBehind self (hasModifier ["async"] seen)

def objectRest (self : Rules) : Reader Value := do
  return .object (Item.areTargets (← inside (listUntil "\x7d" (property self))))

def arguments (self : Rules) : Reader Unit := do
  requireSign "("
  let _ ← inside (listUntil ")" (spreadOrValue self))

def constructionRest (self : Rules) : Reader Value := do
  if ← sign "." then
    requireWord "target"
    return .other
  else
    return .construction (← spanOf do
      let _ ← self .callee
      if ← atSign "(" then arguments self)

def importArguments (self : Rules) : Reader Value := do
  requireSign "("
  let _ ← inside self.value
  if ← sign "," then
    if !(← atSign ")") then
      let _ ← inside self.value
      let _ ← sign ","
  requireSign ")"
  return .other

/-- Read an operand behind `import`: a module that is imported, perhaps in one of
its phases, or what is known about the module itself. -/
def importOperand (self : Rules) : Reader Value := do
  if ← sign "." then
    if ← word "meta" then return .other
    else
      require (Token.isAnyWord · ["source", "defer"])
      importArguments self
  else importArguments self

def groupRest (self : Rules) : Reader Value := do
  let value ← inside self.expression
  requireSign ")"
  return value.enclosed

def wordOperand (self : Rules) : Reader Value := do
  let token ← peek
  if token.isWord "async" && (← secondInLineIs (Token.isWord · "function")) then
    let _ ← next
    let _ ← next
    function self true
    return .other
  else
    let _ ← next
    if token.isAnyWord ["true", "false"] then return .boolean
    else if token.isAnyWord ["this", "null", "super"] then return .other
    else if token.isWord "function" then
      function self false
      return .other
    else if token.isWord "class" then
      let _ ← classRest self
      return .other
    else if token.isWord "new" then constructionRest self
    else if token.isWord "import" then importOperand self
    else if token.isName then return .name
    else failure

/-- Read an operand that starts with a sign. A slash opens a regular expression
here. -/
def signOperand (self : Rules) : Reader Value := do
  if ← sign "(" then groupRest self
  else if ← sign "[" then arrayRest self
  else if ← sign "\x7b" then objectRest self
  else if ← atSign "@" then
    decorators self
    requireWord "class"
    let _ ← classRest self
    return .other
  else if ← atAnySign ["/", "/="] then
    exchange Token.asPattern
    require fun token => token.lexeme == .pattern
    return .other
  else failure

def primary (self : Rules) : Reader Value := do
  match (← peek).lexeme with
  | .word _ => wordOperand self
  | .template _ =>
    template do
      let _ ← self.expression
    return .string
  | .string _ =>
    let _ ← next
    return .string
  | .numeral isBig =>
    let _ ← next
    return if isBig then .other else .numeral
  | _ => signOperand self

structure Chain where
  value : Value
  isOptional : Bool
deriving DecidableEq, Repr

namespace Chain

def goOn (chain : Chain) (value : Value) : Chain :=
  { chain with value := value }

end Chain

/-- Whether what follows type arguments lets them be that: otherwise the angle
brackets compare values. -/
def canFollowArguments (token : Token) : Bool :=
  if token.isTemplate || token.isSign "(" then true
  else if token.isAnySign ["<", ">", "+", "-"] then false
  else if token.afterBreak then true
  else if token.isAnySign ["/", "*", "**", "%", "&", "|", "^", "<<", "<=", "==", "!=", "===",
      "!==", "&&", "||", "??"] || token.isAnyWord ["in", "instanceof", "as", "satisfies"] then true
  else
    !(token.isName || token.isString || token.isNumeral || token.isPrivateName ||
      token.isAnyWord ["this", "super", "null", "true", "false", "function", "class", "new",
        "import", "typeof", "void", "delete"] ||
      token.isAnySign ["[", "\x7b", "~", "!", "++", "--", "@", "/="])

/-- Read type arguments in an expression, or fail. An equals sign directly behind
them makes a comparison of the closing bracket. -/
def expressionTypeArguments (self : Rules) : Reader Unit := do
  typeArguments self
  let stop ← stopHere
  let token ← peek
  if token.start == stop && token.isAnySign ["=", "==", "===", "=>"] then failure
  else if !canFollowArguments token then failure

def accessedName : Reader Unit :=
  require fun token => token.word?.isSome || token.isPrivateName

def computedAccess (self : Rules) : Reader Unit := do
  let _ ← inside self.expression
  requireSign "]"

def taggedTemplate (self : Rules) : Reader Unit :=
  template do
    let _ ← self.expression

def access? (self : Rules) (value : Value) : Reader (Option Value) := do
  let inDecorator := (← read).isDecorator
  if ← sign "." then
    accessedName
    return some .place
  else if ← accept fun token => !inDecorator && token.isSign "[" then
    computedAccess self
    return some .place
  else if ← nextIs Token.isTemplate then
    taggedTemplate self
    return some .other
  else if ← accept fun token => !token.afterBreak && token.isSign "!" then
    return some value.enclosed
  else if ← atAnySign ["<", "<<"] then
    return (← attempt (expressionTypeArguments self)).map fun _ => .other
  else return none

def optionalAccess (self : Rules) : Reader Unit := do
  if ← nextIs fun token => token.word?.isSome || token.isPrivateName then accessedName
  else if ← sign "[" then computedAccess self
  else if ← nextIs Token.isTemplate then taggedTemplate self
  else
    let _ ← attempt (expressionTypeArguments self)
    if ← nextIs Token.isTemplate then taggedTemplate self else arguments self

def link? (self : Rules) (chain : Chain) : Reader (Option Chain) := do
  match ← access? self chain.value with
  | some value => return some (chain.goOn value)
  | none =>
    if ← sign "?." then
      optionalAccess self
      return some ⟨.other, true⟩
    else if ← atSign "(" then
      arguments self
      return some (chain.goOn .other)
    else return none

/-- Read an operand with the accesses and calls behind it. Nothing can be assigned
to it if one of them is optional. -/
def leftHand (self : Rules) : Reader Value := do
  let chain ← iterate (link? self) ⟨← primary self, false⟩
  return if chain.isOptional then .other else chain.value

/-- Read the class of a construction, whose parentheses are not a call of it. -/
def callee (self : Rules) : Reader Value := do
  iterate (access? self) (← primary self)

end HostClass

end ComponentExtraction
