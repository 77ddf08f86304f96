import ComponentExtraction.HostClass.Token
import ComponentExtraction.Source.Span

/-!
# Reading tokens

A reader takes tokens from the front of a source, or fails. One token is always
known beforehand, and it can be exchanged for another reading of the same
characters.
-/

namespace ComponentExtraction

namespace HostClass

/-- What the surroundings of an expression or a type decide about its words. -/
structure Context where
  allowsIn : Bool := true
  yields : Bool := false
  awaits : Bool := false
  allowsConditional : Bool := true
  /-- Whether a decorator is read, to which a bracket does not belong. -/
  isDecorator : Bool := false
deriving DecidableEq, Repr

namespace Context

def inner (c : Context) : Context :=
  { c with allowsIn := true, allowsConditional := true, isDecorator := false }

def ofFunction (isGenerator isAsync : Bool) : Context :=
  { yields := isGenerator, awaits := isAsync }

def withIn (allowed : Bool) (c : Context) : Context :=
  { c with allowsIn := allowed }

def withConditional (allowed : Bool) (c : Context) : Context :=
  { c with allowsConditional := allowed }

end Context

/-- The next token, and the end of the last one read. -/
structure Input where
  token : Token
  stop : Nat

namespace Input

def start (source : Text) : Input :=
  ⟨Token.read (afterInterpreter (Cursor.start source)), 0⟩

end Input

abbrev Reader (α : Type) := ReaderT Context (StateT Input Option) α

namespace Reader

variable {α : Type}

def peek : Reader Token := do
  return (← get).token

def peekSecond : Reader Token := do
  return (← get).token.following

def next : Reader Token := do
  let token := (← get).token
  set (Input.mk token.following token.stop)
  return token

/-- Exchange the next token for another reading of it. -/
def exchange (reading : Token → Token) : Reader Unit :=
  modify fun input => { input with token := reading input.token }

def startHere : Reader Nat := do
  return (← peek).start

def stopHere : Reader Nat := do
  return (← get).stop

def nextIs (test : Token → Bool) : Reader Bool := do
  return test (← peek)

def secondIs (test : Token → Bool) : Reader Bool := do
  return test (← peekSecond)

/-- Whether the token after the next stands in the same line and is as
described. -/
def secondInLineIs (test : Token → Bool) : Reader Bool :=
  secondIs fun token => !token.afterBreak && test token

def atSign (text : String) : Reader Bool :=
  nextIs (Token.isSign · text)

def atAnySign (signs : List String) : Reader Bool :=
  nextIs (Token.isAnySign · signs)

def atWord (text : String) : Reader Bool :=
  nextIs (Token.isWord · text)

def accept (test : Token → Bool) : Reader Bool := do
  if ← nextIs test then
    let _ ← next
    return true
  else return false

def require (test : Token → Bool) : Reader Unit := do
  if ← accept test then return () else failure

def sign (text : String) : Reader Bool :=
  accept (Token.isSign · text)

def anySign (signs : List String) : Reader Bool :=
  accept (Token.isAnySign · signs)

def word (text : String) : Reader Bool :=
  accept (Token.isWord · text)

def requireSign (text : String) : Reader Unit :=
  require (Token.isSign · text)

def requireWord (text : String) : Reader Unit :=
  require (Token.isWord · text)

def anyWord : Reader Text := do
  match (← next).word? with
  | some text => return text
  | none => failure

def name : Reader Text := do
  let token ← next
  match token.word? with
  | some text => if token.isName then return text else failure
  | none => failure

/-- The end of a statement: a semicolon, or else a line break, a closing brace or
the end of the source. -/
def semicolon : Reader Unit := do
  if ← sign ";" then return ()
  else if ← nextIs fun token =>
      token.afterBreak || token.isSign "\x7d" || token.lexeme == .finish then return ()
  else failure

def attempt (reader : Reader α) : Reader (Option α) :=
  (some <$> reader) <|> return none

/-- What a reader would read, if it did not fail. Nothing is read. -/
def ahead (reader : Reader α) : Reader (Option α) := do
  let saved ← get
  let answer ← attempt reader
  set saved
  return answer

/-- The answer of a reader that reads nothing; one that fails answers no. -/
def lookahead (reader : Reader Bool) : Reader Bool := do
  return (← ahead reader) == some true

def within (change : Context → Context) (reader : Reader α) : Reader α :=
  withReader change reader

def inside (reader : Reader α) : Reader α :=
  within Context.inner reader

def spanOf (reader : Reader Unit) : Reader Span := do
  let start ← startHere
  reader
  return ⟨start, ← stopHere⟩

/-- Repeat a step as long as it answers yes, at most a number of times. -/
def repeatAtMost (step : Reader Bool) : Nat → Reader Unit
  | 0 => failure
  | bound + 1 => do
    if ← step then repeatAtMost step bound

/-- Repeat a step as long as it answers yes. Since each step reads something, the
characters that are left bound their number. -/
def repeatWhile (step : Reader Bool) : Reader Unit := do
  repeatAtMost step ((← peek).here.rest.length + 1)

/-- Let a step go on with a value as long as it answers one, at most a number of
times. -/
def iterateAtMost (step : α → Reader (Option α)) : Nat → α → Reader α
  | 0, _ => failure
  | bound + 1, value => do
    match ← step value with
    | some changed => iterateAtMost step bound changed
    | none => return value

def iterate (step : α → Reader (Option α)) (value : α) : Reader α := do
  iterateAtMost step ((← peek).here.rest.length + 1) value

def collectAtMost (step : Reader (Option α)) : Nat → Reader (List α)
  | 0 => failure
  | bound + 1 => do
    match ← step with
    | some item => return item :: (← collectAtMost step bound)
    | none => return []

def collect (step : Reader (Option α)) : Reader (List α) := do
  collectAtMost step ((← peek).here.rest.length + 1)

def itemsUntil (closing : String) (item : Reader α) : Reader (List α) :=
  collect do
    if ← sign closing then return none
    else return some (← item)

/-- Items divided by commas up to a closing sign, which is read too. A comma may
stand behind the last one. -/
def listUntil (closing : String) (item : Reader α) : Reader (List α) :=
  itemsUntil closing do
    let value ← item
    if ← atSign closing then return value
    else
      requireSign ","
      return value

def commaList (item : Reader α) : Reader (List α) := do
  let first ← item
  let more ← collect do
    if ← sign "," then return some (← item)
    else return none
  return first :: more

def template (embedded : Reader Unit) : Reader Unit := do
  match (← next).lexeme with
  | .template isOpen =>
    if isOpen then
      repeatWhile do
        inside embedded
        if ← atSign "\x7d" then
          exchange Token.asTemplateRest
          match (← next).lexeme with
          | .templateRest isOpen => return isOpen
          | _ => failure
        else failure
  | _ => failure

end Reader

end HostClass

end ComponentExtraction
