import ComponentExtraction.Extraction.Error
import ComponentExtraction.Text.Blank
import ComponentExtraction.Tree.Template

/-!
# From a selection to a fragment

A selected range of the source denotes the run of sibling markup nodes that it
touches. Blanks at its ends do not count. Each end is widened to the outermost
node that starts, or ends, at the same place, so that selecting an element from
its first to its last character selects the element.
-/

namespace ComponentExtraction

namespace Fragment

/-- The highest address that can be reached by going up through nodes
of a kind. The first node above that is not accepted ends the way. -/
def climbWhile (t : Template) (accept : Node → Bool) : Address → Address
  | [] => []
  | position :: parent =>
    match t.node? parent with
    | some node => if accept node then climbWhile t accept parent else position :: parent
    | none => position :: parent

/-- The address of the outermost markup node that starts where a node starts. -/
def widenStart (t : Template) (o : Occurrence) : Address :=
  climbWhile t (fun node => node.kind.isMarkup && node.span.start == o.span.start) o.address

def widenStop (t : Template) (o : Occurrence) : Address :=
  climbWhile t (fun node => node.kind.isMarkup && node.span.stop == o.span.stop) o.address

/-- The children of one node from one position to another, if both addresses are
of children of one node and in order. -/
def siblingRun? (t : Template) (first last : Address) : Option (List Occurrence) :=
  match first, last with
  | i :: parent, j :: parent' =>
    if parent = parent' ∧ i ≤ j then
      (t.occurrence? parent).map fun o => (o.children.take (j + 1)).drop i
    else none
  | _, _ => none

/-- The first and the last byte of a range that are not blank. -/
def contentEnds (selected : Text) (start stop : Nat) : Nat × Nat :=
  (start + (selected.byteLength - selected.trimStart.byteLength),
    stop - (selected.byteLength - selected.trimEnd.byteLength) - 1)

def selectContent (t : Template) (first last : Nat) : Except ExtractionError (List Occurrence) :=
  match t.innermostAt first Kind.isMarkup, t.innermostAt last Kind.isMarkup with
  | some o, some p =>
    let fromAddress := widenStart t o
    let toAddress := widenStop t p
    if o.span.start > last then .error .invalidPosition
    else
      match siblingRun? t fromAddress toAddress with
      | some run => .ok run
      | none => .error .invalidPosition
  | _, _ => .error .invalidPosition

/-- The sibling nodes that the selection from byte `start` up to `stop` denotes.
Blanks at its ends do not count, and there has to be something else in it. -/
def select (t : Template) (start stop : Nat) : Except ExtractionError (List Occurrence) :=
  let stop' := min stop t.source.byteLength
  if stop < start || stop' < start then .error .invalidPosition
  else if start = stop' then .error .emptySelection
  else
    match t.source.slice? start stop' with
    | none => .error .invalidPosition
    | some selected =>
      if selected.trim.isEmpty then .error .emptySelection
      else
        let ends := contentEnds selected start stop'
        selectContent t ends.1 ends.2

end Fragment

end ComponentExtraction
