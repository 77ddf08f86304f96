import ComponentExtraction.Source.Span
import ComponentExtraction.Tree.Kind

/-!
# Trees of nodes

A node has a kind, the span of source it was read from, and children in source
order. Punctuation is kept as leaves, so siblings stand as they do in the text.
-/

namespace ComponentExtraction

/-- A node with everything below it. -/
inductive Node where
  | mk (kind : Kind) (span : Span) (children : List Node)
deriving Repr

namespace Node

def kind : Node → Kind
  | mk kind _ _ => kind

def span : Node → Span
  | mk _ span _ => span

def children : Node → List Node
  | mk _ _ children => children

@[simp] theorem kind_mk (kind : Kind) (span : Span) (children : List Node) :
    (mk kind span children).kind = kind := rfl

@[simp] theorem span_mk (kind : Kind) (span : Span) (children : List Node) :
    (mk kind span children).span = span := rfl

@[simp] theorem children_mk (kind : Kind) (span : Span) (children : List Node) :
    (mk kind span children).children = children := rfl

def leaf (span : Span) : Node :=
  mk .token span []

def endOf (start : Nat) (nodes : List Node) : Nat :=
  match nodes.getLast? with
  | some last => max start last.span.stop
  | none => start

/-- A node that starts at `start` and reaches to the end of its last child. -/
def enclosing (kind : Kind) (start : Nat) (children : List Node) : Node :=
  mk kind ⟨start, endOf start children⟩ children

mutual

def size : Node → Nat
  | mk _ _ children => sizeAll children + 1

def sizeAll : List Node → Nat
  | [] => 0
  | node :: nodes => node.size + sizeAll nodes

end

/-- Receiver of a qualified reference: the object whose member it names. -/
def qualifier? (node : Node) : Option Node :=
  match node.kind.isReference, node.children with
  | true, [receiver, _, _] => some receiver
  | _, _ => none

def callee? (node : Node) : Option Node :=
  if node.kind.isCall then node.children.head? else none

/-- The name a call is known by, which is the name of the reference it calls.
Calls of anything else have none. -/
def calleeName? (node : Node) : Option Text :=
  ((node.callee?).bind fun callee => callee.kind.referenceName?).filter fun name => !name.isEmpty

end Node

end ComponentExtraction
