import ComponentExtraction.Tree.Node

/-!
# Templates and the places of their nodes

A node is addressed by the positions of its ancestors and itself among their
siblings, innermost first; the root has the empty address. Going up is then
dropping the first position, and a node lies above another exactly when its
address is a proper suffix of the other's. Two nodes that look alike are told
apart by their addresses.
-/

namespace ComponentExtraction

/-- Positions among siblings, from a node up to the root. -/
abbrev Address := List Nat

/-- A node together with its place in a tree. Equal nodes at two
places are two occurrences. -/
structure Occurrence where
  address : Address
  node : Node
deriving Repr

namespace Occurrence

def kind (o : Occurrence) : Kind :=
  o.node.kind

def span (o : Occurrence) : Span :=
  o.node.span

def same (o p : Occurrence) : Bool :=
  o.address == p.address

def child? (o : Occurrence) (position : Nat) : Option Occurrence :=
  (o.node.children[position]?).map fun node => ⟨position :: o.address, node⟩

def siblings (parent : Address) (position : Nat) : List Node → List Occurrence
  | [] => []
  | node :: nodes => ⟨position :: parent, node⟩ :: siblings parent (position + 1) nodes

def children (o : Occurrence) : List Occurrence :=
  siblings o.address 0 o.node.children

/-- The arguments of a call, without the punctuation between them. -/
def arguments (o : Occurrence) : List Occurrence :=
  match o.children.find? fun child => child.kind == .argumentList with
  | some list => list.children.filter fun argument => argument.kind != .token
  | none => []

mutual

def preorder (address : Address) : Node → List Occurrence
  | .mk kind span children =>
    ⟨address, .mk kind span children⟩ :: preorderAll address 0 children

def preorderAll (parent : Address) (position : Nat) : List Node → List Occurrence
  | [] => []
  | node :: nodes =>
    preorder (position :: parent) node ++ preorderAll parent (position + 1) nodes

end

/-- Everything strictly below, a node before its children. -/
def descendants (o : Occurrence) : List Occurrence :=
  preorderAll o.address 0 o.node.children

mutual

def leafAddress (address : Address) : Node → Address
  | .mk _ _ children => leafAddressAll address children

def leafAddressAll (address : Address) : List Node → Address
  | [] => address
  | node :: _ => leafAddress (0 :: address) node

end

/-- The address of the leaf reached through first children only. -/
def leftmostLeaf (o : Occurrence) : Address :=
  leafAddress o.address o.node

end Occurrence

structure Template where
  source : Text
  url : Text
  root : Node
deriving Repr

namespace Template

def top (t : Template) : Occurrence :=
  ⟨[], t.root⟩

def node? (t : Template) : Address → Option Node
  | [] => some t.root
  | position :: parent => (t.node? parent).bind fun node => node.children[position]?

def occurrence? (t : Template) (address : Address) : Option Occurrence :=
  (t.node? address).map (Occurrence.mk address)

/-- The occurrence reached from the root through the given positions, outermost
first. -/
def follow? (t : Template) (positions : List Nat) : Option Occurrence :=
  t.occurrence? positions.reverse

def size (t : Template) : Nat :=
  t.root.size

def isEmpty (t : Template) : Bool :=
  t.size ≤ 1

def occurrences (t : Template) : List Occurrence :=
  Occurrence.preorder [] t.root

/-- The source text of a span; spans of nodes of a parsed template always have
one. -/
def textAt (t : Template) (span : Span) : Text :=
  (span.textIn? t.source).getD []

def text (t : Template) (o : Occurrence) : Text :=
  t.textAt o.span

def parent? (t : Template) (o : Occurrence) : Option Occurrence :=
  match o.address with
  | [] => none
  | _ :: parent => t.occurrence? parent

def parentKind? (t : Template) (o : Occurrence) : Option Kind :=
  (t.parent? o).map Occurrence.kind

def previousSibling? (t : Template) (o : Occurrence) : Option Occurrence :=
  match o.address with
  | (position + 1) :: parent => t.occurrence? (position :: parent)
  | _ => none

def upwardFrom (t : Template) : Address → List Occurrence
  | [] => (t.occurrence? []).toList
  | position :: parent =>
    (t.occurrence? (position :: parent)).toList ++ t.upwardFrom parent

def ancestors (t : Template) (o : Occurrence) : List Occurrence :=
  match o.address with
  | [] => []
  | _ :: parent => t.upwardFrom parent

def isAncestorOf (t : Template) (above o : Occurrence) : Bool :=
  (t.ancestors o).any (Occurrence.same above)

end Template

mutual

/-- Below a node, the innermost node of an accepted kind among the nodes that
contain a byte; `found` is the answer so far. -/
def Node.innermostAt (offset : Nat) (accept : Kind → Bool) (address : Address)
    (found : Option Occurrence) : Node → Option Occurrence
  | .mk _ _ children => Node.innermostAmong offset accept address 0 found children

def Node.innermostAmong (offset : Nat) (accept : Kind → Bool) (parent : Address) (position : Nat)
    (found : Option Occurrence) : List Node → Option Occurrence
  | [] => found
  | node :: nodes =>
    if node.span.contains offset then
      Node.innermostAt offset accept (position :: parent)
        (if accept node.kind then some ⟨position :: parent, node⟩ else found) node
    else Node.innermostAmong offset accept parent (position + 1) found nodes

end

namespace Template

/-- The innermost node below the root, of an accepted kind, that contains a byte. -/
def innermostAt (t : Template) (offset : Nat) (accept : Kind → Bool) : Option Occurrence :=
  t.root.innermostAt offset accept [] none

end Template

end ComponentExtraction
