import ComponentExtraction.Fragment.Selection
import ComponentExtraction.Sequence.Distinct

/-!
# References and calls that leave a fragment

A member or call chain is one unit: all references of a chain stand for its
innermost one. A reference can become an input of a new component unless it
belongs to a call that opens its expression, for such a call is replaced as a
whole.
-/

namespace ComponentExtraction

namespace Fragment

def isLeadingCall (t : Template) (o : Occurrence) : Bool :=
  match o.kind with
  | .call => (t.previousSibling? o).isNone
  | .argumentList =>
    match t.parent? o with
    | some call => (t.previousSibling? call).isNone
    | none => false
  | _ => false

/-- Whether a reference can be handed to a new component as an input. The
arguments of pipes always can; what a leading call calls, and is given, cannot. -/
def isBindable (t : Template) (o : Occurrence) : Bool :=
  o.kind.isReference &&
    match t.parent? o with
    | none => true
    | some parent => parent.kind == .pipeArguments || !isLeadingCall t parent

/-- The first bindable reference above an address and below a boundary, if no
call or pipe name comes before it. -/
def bindableAbove? (t : Template) (boundary : Option Address) : Address → Option Occurrence
  | [] => none
  | _ :: parent =>
    if some parent = boundary then none
    else
      match t.occurrence? parent with
      | none => none
      | some o =>
        if o.kind.isPipeReference || o.kind.isCall then none
        else if isBindable t o then some o
        else bindableAbove? t boundary parent

/-- Whether a node continues the chain of the reference or call below it. -/
def continuesChain (node : Node) : Bool :=
  node.kind.isReference || node.kind.isCall

def parentAddress? : Address → Option Address
  | [] => none
  | _ :: parent => some parent

/-- The reference that stands for the whole chain of a reference. Names of pipes
have none, nor have chains that start with a call. -/
def topLevelReference? (t : Template) (o : Occurrence) : Option Occurrence :=
  if o.kind.isPipeReference then none
  else
    (t.occurrence? (climbWhile t continuesChain o.address)).bind fun chain =>
      bindableAbove? t (parentAddress? o.address) chain.leftmostLeaf

def nearestCall? (t : Template) : Address → Option Occurrence
  | [] => (t.occurrence? []).filter fun o => o.kind.isCall
  | position :: parent =>
    match t.occurrence? (position :: parent) with
    | some o => if o.kind.isCall then some o else nearestCall? t parent
    | none => nearestCall? t parent

def isInsideArguments (t : Template) (root o : Occurrence) : Bool :=
  ((t.ancestors o).takeWhile fun above => !above.same root).any fun above =>
    above.kind == .argumentList

/-- The calls below `root` that are replaced as a whole: for every call outside
argument lists, the innermost call of its chain. -/
def topLevelCalls (t : Template) (root : Occurrence) : List Occurrence :=
  Sequence.distinctBy Occurrence.address
    ((root.descendants.filter fun o => o.kind.isCall && !isInsideArguments t root o).filterMap
      fun o => nearestCall? t o.leftmostLeaf)

/-- The references below `root` that stand for their chains. References
of one chain have the same answer, which is listed once. -/
def topLevelReferences (t : Template) (root : Occurrence) : List Occurrence :=
  Sequence.distinctBy Occurrence.address
    ((root.descendants.filter fun o => o.kind.isReference).filterMap (topLevelReference? t))

end Fragment

end ComponentExtraction
