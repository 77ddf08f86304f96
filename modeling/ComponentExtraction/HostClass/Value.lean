import ComponentExtraction.Source.Span

/-!
# What an expression tells

Of an expression, no more is kept than what can be told from its form: whether
something can be assigned to it, and, for the value of a field, of which type it
is.
-/

namespace ComponentExtraction

namespace HostClass

/-- An expression by its form. -/
inductive Value where
  | name
  /-- Something other than a name to which one value can be assigned: a member of
  an object, or a name or member in parentheses or with an assertion. -/
  | place
  | array (isTarget : Bool)
  | object (isTarget : Bool)
  /-- An assignment, which in an array or an object is a target with a default. -/
  | assignment
  | string
  | boolean
  | numeral
  | signed
  /-- A construction, with the bytes from the constructed class to the end. -/
  | construction (span : Span)
  | other
deriving DecidableEq, Repr

namespace Value

def isPlace : Value → Bool
  | name => true
  | place => true
  | _ => false

/-- Whether a value can be assigned to the expression, as a whole or in parts. -/
def isTarget : Value → Bool
  | array isTarget => isTarget
  | object isTarget => isTarget
  | value => value.isPlace

def enclosed (value : Value) : Value :=
  if value.isPlace then place else other

def withSign : Value → Value
  | numeral => signed
  | _ => other

end Value

structure Item where
  isSpread : Bool
  isTarget : Bool
deriving DecidableEq, Repr

namespace Item

def ofValue (value : Value) : Item :=
  ⟨false, value.isTarget || value == .assignment⟩

def ofSpread (value : Value) : Item :=
  ⟨true, value.isTarget⟩

/-- An item that is always a target: a hole, or a name that is its own value. -/
def free : Item :=
  ⟨false, true⟩

def fixed : Item :=
  ⟨false, false⟩

/-- Whether items can be assigned to one by one. Only the last of them takes what
the others leave. -/
def areTargets (items : List Item) : Bool :=
  items.all Item.isTarget && items.dropLast.all fun item => !item.isSpread

end Item

end HostClass

end ComponentExtraction
