import ComponentExtraction.Fragment.Reference
import ComponentExtraction.Symbols.Table

/-!
# Bindings

A binding is one expression of a fragment with the inputs that a new component
needs to evaluate it.
-/

namespace ComponentExtraction

namespace Fragment

/-- An input of the new component. Its body is what the host
passes in, which need not be the name of the input. -/
structure InputField where
  name : Text
  type : Option Text
  body : Text
  isTwoWay : Bool
deriving DecidableEq, Repr

/-- One expression of a fragment, with what has to be known of
it to move it into a component. -/
structure Binding where
  owner : Occurrence
  bananaBox : Option Occurrence
  references : List Occurrence
  calls : List Occurrence
  fields : List InputField

def query? (t : Template) (reference : Occurrence) : Option Symbols.Query :=
  reference.kind.referenceName?.map fun name =>
    ⟨name, reference.node.qualifier?.map fun receiver => t.textAt receiver.span, t.text reference⟩

/-- The input for what a query asks about. Members of the host become inputs; so
do unknown names without a receiver. -/
def queryField? (scope : Symbols.Scope) (isTwoWay : Bool) (q : Symbols.Query) :
    Option InputField :=
  match scope.resolve q with
  | some (.field name type) => some ⟨name, type, q.text, isTwoWay⟩
  | some _ => none
  | none =>
    if q.qualifier.isNone then
      some ⟨q.name, (scope.inferType q).map Symbols.normalizeType, q.text, isTwoWay⟩
    else none

def referenceField? (t : Template) (scope : Symbols.Scope) (isTwoWay : Bool)
    (reference : Occurrence) : Option InputField :=
  (query? t reference).bind (queryField? scope isTwoWay)

/-- The input that holds the value of a call. Types of calls are not known. -/
def callField? (t : Template) (call : Occurrence) : Option InputField :=
  call.node.calleeName?.map fun name => ⟨name, none, t.text call, false⟩

namespace Binding

def isTwoWay (b : Binding) : Bool :=
  b.bananaBox.isSome

/-- The binding of an expression. The inputs of references come before those of
calls, and of several inputs of one name the first one is kept. -/
def build (t : Template) (scope : Symbols.Scope) (owner : Occurrence)
    (bananaBox : Option Occurrence) : Binding :=
  let calls := topLevelCalls t owner
  let references := topLevelReferences t owner
  { owner
    bananaBox
    references
    calls
    fields := Sequence.distinctBy InputField.name
      (references.filterMap (referenceField? t scope bananaBox.isSome) ++
        calls.filterMap (callField? t)) }

/-- The input that a binding in both directions is named after: its first one,
whether a reference or a call asks for it. -/
def exposedField (t : Template) (b : Binding) : Except ExtractionError InputField :=
  match b.fields with
  | field :: _ => .ok field
  | [] => .error (.twoWayBindingWithoutField (t.text b.owner))

end Binding

end Fragment

end ComponentExtraction
