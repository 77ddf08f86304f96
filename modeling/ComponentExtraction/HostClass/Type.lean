import ComponentExtraction.HostClass.Signature

/-!
# Types

The types that may be written for a field, a parameter or a result. A type tells
nothing but where it ends.
-/

namespace ComponentExtraction

namespace HostClass

open Reader

def typeMemberEnd : Reader Unit := do
  if ← sign "," then return () else semicolon

def indexSignature (self : Rules) : Reader Unit := do
  requireSign "["
  let _ ← listUntil "]" do
    let _ ← name
    requireSign ":"
    self .type
  requireSign ":"
  self .type
  typeMemberEnd

def typeMember (self : Rules) : Reader Unit := do
  if ← signatureAhead then
    let _ ← signature self
    typeMemberEnd
  else if (← atWord "new") && (← secondIs (Token.isAnySign · ["(", "<"])) then
    let _ ← next
    let _ ← signature self
    typeMemberEnd
  else
    let _ ← modifiers .elsewhere
    if ← indexSignatureAhead then indexSignature self
    else
      if (← accessorAhead "get") || (← accessorAhead "set") then
        let _ ← next
      let _ ← propertyName self
      let _ ← sign "?"
      if ← signatureAhead then
        let _ ← signature self
      else
        let _ ← self.annotation?
      typeMemberEnd

def typeMembers (self : Rules) : Reader Unit := do
  requireSign "\x7b"
  let _ ← itemsUntil "\x7d" (typeMember self)

def mappedTypeAhead : Reader Bool :=
  lookahead do
    requireSign "\x7b"
    if ← anySign ["+", "-"] then atWord "readonly"
    else
      let _ ← word "readonly"
      requireSign "["
      require Token.isName
      atWord "in"

def mappedType (self : Rules) : Reader Unit := do
  requireSign "\x7b"
  if ← anySign ["+", "-"] then requireWord "readonly"
  else
    let _ ← word "readonly"
  requireSign "["
  let _ ← name
  requireWord "in"
  self .type
  if ← word "as" then self .type
  requireSign "]"
  if ← anySign ["+", "-"] then requireSign "?"
  else
    let _ ← sign "?"
  let _ ← self.annotation?
  let _ ← sign ";"
  requireSign "\x7d"

def elementNameAhead : Reader Bool :=
  lookahead do
    let _ ← sign "..."
    let _ ← anyWord
    let _ ← sign "?"
    atSign ":"

def tupleElement (self : Rules) : Reader Unit := do
  let isNamed ← elementNameAhead
  let _ ← sign "..."
  if isNamed then
    let _ ← next
    let _ ← sign "?"
    requireSign ":"
    let _ ← sign "..."
  self .type

def importedType (self : Rules) : Reader Unit := do
  requireWord "import"
  requireSign "("
  self .type
  if ← sign "," then
    if !(← atSign ")") then
      let _ ← inside self.value
      let _ ← sign ","
  requireSign ")"
  dottedNames
  typeArgumentsInLine self

/-- The words that are types of their own, unless a dot follows them. -/
def typeWords : List String :=
  ["any", "unknown", "string", "number", "bigint", "symbol", "boolean", "undefined", "never",
   "object", "void", "null", "true", "false"]

def wordType (self : Rules) : Reader Unit := do
  let token ← peek
  if token.isAnyWord typeWords && !(← secondIs (Token.isSign · ".")) then
    let _ ← next
  else if ← word "this" then
    if ← accept fun token => !token.afterBreak && token.isWord "is" then self .type
  else if ← word "typeof" then
    if ← atWord "import" then importedType self else namedType self
  else if token.isWord "import" then importedType self
  else if token.isWord "asserts" && (← secondInLineIs fun second => second.word?.isSome) then
    let _ ← next
    let _ ← next
    if ← word "is" then self .type
  else namedType self

def plainType (self : Rules) : Reader Unit := do
  repeatWhile (sign "!")
  let token ← peek
  match token.lexeme with
  | .word _ => wordType self
  | .template _ => template (self .type)
  | .string _ =>
    let _ ← next
  | .numeral _ =>
    let _ ← next
  | _ =>
    if ← sign "-" then require Token.isNumeral
    else if ← sign "?" then self .type
    else if ← sign "(" then
      self .type
      requireSign ")"
    else if ← sign "[" then
      let _ ← listUntil "]" (tupleElement self)
    else if ← mappedTypeAhead then mappedType self
    else typeMembers self

def typeAhead : Reader Bool := do
  let token ← peek
  if token.isSign "-" then secondIs Token.isNumeral
  else
    return token.isName || token.isString || token.isNumeral || token.isTemplate ||
      token.isAnyWord ["void", "null", "this", "typeof", "new", "true", "false", "import",
        "function"] ||
      token.isAnySign ["\x7b", "[", "(", "<", "|", "&", "*", "?", "!", "..."]

/-- Read a type with brackets and marks behind it in the same line. A question mark
before another type belongs to a conditional type. -/
def postfixType (self : Rules) : Reader Unit := do
  plainType self
  repeatWhile do
    if ← nextIs Token.afterBreak then return false
    else if ← sign "!" then return true
    else if ← atSign "?" then
      if ← lookahead do requireSign "?"; typeAhead then return false
      else sign "?"
    else if ← sign "[" then
      if ← typeAhead then self .type
      requireSign "]"
      return true
    else return false

/-- Read the constraint of an inferred type, if it has one: what could be the
condition of a conditional type is none. -/
def inferredConstraint (self : Rules) : Reader Unit := do
  let _ ← attempt do
    requireWord "extends"
    within (Context.withConditional false) (self .type)
    if (← read).allowsConditional && (← atSign "?") then failure

def operatorType (self : Rules) : Reader Unit := do
  repeatWhile (accept (Token.isAnyWord · ["keyof", "unique", "readonly"]))
  if ← word "infer" then
    let _ ← name
    inferredConstraint self
  else within (Context.withConditional true) (postfixType self)

/-- Whether parentheses that come next are the parameters of a function type. -/
def parametersAhead (self : Rules) : Reader Bool :=
  lookahead do
    requireSign "("
    if ← atAnySign [")", "..."] then return true
    else
      let _ ← modifiers .elsewhere
      if ← atAnySign ["[", "\x7b"] then
        let _ ← self .binding
      else require fun token => token.isName || token.isWord "this"
      if ← sign ")" then atSign "=>" else atAnySign [":", ",", "?", "="]

def functionTypeAhead (self : Rules) : Reader Bool := do
  if ← atSign "<" then return true
  else if ← atWord "new" then return true
  else if ← atWord "abstract" then secondIs (Token.isWord · "new")
  else parametersAhead self

def functionType (self : Rules) : Reader Unit := do
  let _ ← word "abstract"
  let _ ← word "new"
  typeParameters self
  let _ ← parameters self
  requireSign "=>"
  resultType self

/-- Read types joined by an operator, which may also stand before the first. -/
def joinedTypes (self : Rules) (operator : String) (part : Reader Unit) : Reader Unit := do
  let item : Reader Unit := do
    if ← functionTypeAhead self then functionType self else part
  let _ ← sign operator
  item
  repeatWhile do
    if ← sign operator then
      item
      return true
    else return false

def type (self : Rules) : Reader Unit := do
  if ← functionTypeAhead self then functionType self
  else
    joinedTypes self "|" (joinedTypes self "&" (operatorType self))
    if (← read).allowsConditional then
      if ← accept fun token => !token.afterBreak && token.isWord "extends" then
        within (Context.withConditional false) (self .type)
        requireSign "?"
        self .type
        requireSign ":"
        self .type

end HostClass

end ComponentExtraction
