import ComponentExtraction.HostClass.Member
import ComponentExtraction.HostClass.Reader

/-!
# The grammar of a module

Types, expressions, bindings and statements contain each other. Each reader of
one of them is given the readers of all of them for what is nested in it, so
that it can be understood without the others; they are tied together where a
whole module is read.
-/

namespace ComponentExtraction

namespace HostClass

/-- What can be nested in something else. Readers are given the rules for
what is nested in them, as they cannot call each other in circles. -/
inductive Rule where
  | type
  /-- An expression without a comma. In the first part of a conditional, a colon
  behind parentheses ends them rather than giving the result of a function. -/
  | assignment (allowsResult : Bool)
  | unary
  | leftHand
  /-- The class that is constructed: member accesses without calls. -/
  | callee
  | binding
  | statement
deriving DecidableEq, Repr

abbrev Rule.Result : Rule → Type
  | .type => Unit
  | .assignment _ => Value
  | .unary => Value
  | .leftHand => Value
  | .callee => Value
  | .binding => Option Text
  | .statement => Declared

abbrev Rules := (rule : Rule) → Reader rule.Result

namespace Rules

open Reader

def value (self : Rules) : Reader Value :=
  self (.assignment true)

/-- Expressions divided by commas; only a single one tells anything. -/
def expression (self : Rules) : Reader Value := do
  match ← commaList self.value with
  | [value] => return value
  | _ => return .other

def annotation? (self : Rules) : Reader (Option Span) := do
  if ← sign ":" then return some (← spanOf (self .type)) else return none

def block (self : Rules) : Reader Unit :=
  inside do
    requireSign "\x7b"
    let _ ← itemsUntil "\x7d" (self .statement)

end Rules

end HostClass

end ComponentExtraction
