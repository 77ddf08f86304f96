import ComponentExtraction.HostClass.Value
import ComponentExtraction.Text.Basic

/-!
# Members of a class

What a class declares as far as a template sees it: fields, accessors, methods,
and the parameters of its constructor that are fields too.
-/

namespace ComponentExtraction

namespace HostClass

inductive TypeSource where
  | missing
  | written (span : Span)
  | value (form : Value)
deriving DecidableEq, Repr

namespace TypeSource

def ofSpan : Option Span → TypeSource
  | none => missing
  | some span => written span

end TypeSource

structure Parameter where
  /-- The name, unless the parameter is a pattern or has a default. -/
  name : Option Text
  type : TypeSource
  isField : Bool
deriving DecidableEq, Repr

/-- The declared parts of a function: its parameters and its result. -/
structure Signature where
  parameters : List Parameter
  result : TypeSource
deriving DecidableEq, Repr

namespace Signature

def firstType (signature : Signature) : TypeSource :=
  match signature.parameters with
  | [] => .missing
  | first :: _ => first.type

end Signature

/-- A member of a class as far as a template sees it. -/
inductive Member where
  | field (name : Text) (type : TypeSource)
  | method (name : Text)
  | constructor (parameters : List Parameter)
  /-- A member that no template sees: static, private, or without a plain name. -/
  | hidden
deriving DecidableEq, Repr

namespace Member

def named (name : Option Text) (member : Text → Member) : Member :=
  match name with
  | some text => member text
  | none => .hidden

end Member

/-- What a statement declares: the members of a class, or nothing that counts. -/
abbrev Declared := Option (List Member)

end HostClass

end ComponentExtraction
