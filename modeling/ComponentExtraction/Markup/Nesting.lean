import ComponentExtraction.Markup.Piece
import ComponentExtraction.Markup.Tag
import ComponentExtraction.Tree.Template

/-!
# Nesting pieces of markup

The elements that are open form a stack, innermost first. A piece is added to
the innermost open element; an end tag closes the innermost open element of its
name, and with it all elements left open inside.
-/

namespace ComponentExtraction

namespace Markup

/-- An element whose end has not been met, with the children met so far, last
first. -/
structure OpenElement where
  name : Text
  start : Nat
  children : List Node

/-- The nodes that are complete and the elements that are still open.
Both are added to at the front, so the last node comes first. -/
structure Nesting where
  outside : List Node
  stack : List OpenElement

namespace Nesting

def empty : Nesting :=
  ⟨[], []⟩

def add (node : Node) (n : Nesting) : Nesting :=
  match n.stack with
  | [] => { n with outside := node :: n.outside }
  | element :: stack =>
    { n with stack := { element with children := node :: element.children } :: stack }

def push (element : OpenElement) (n : Nesting) : Nesting :=
  { n with stack := element :: n.stack }

def close (stop : Nat) (n : Nesting) : Nesting :=
  match n.stack with
  | [] => n
  | element :: stack =>
    add (Node.mk (.element element.name) ⟨element.start, stop⟩ element.children.reverse)
      { n with stack := stack }

/-- Close some open elements at a byte offset, innermost first. -/
def closeMany (stop : Nat) : Nat → Nesting → Nesting
  | 0, n => n
  | count + 1, n => closeMany stop count (n.close stop)

/-- Number of elements open inside the innermost one of a name, if one is open. -/
def depthOf? (name : Text) (n : Nesting) : Option Nat :=
  n.stack.findIdx? fun element => Text.sameIgnoringCase element.name name

def isInnermost (name : Text) (n : Nesting) : Bool :=
  match n.stack with
  | [] => false
  | element :: _ => Text.sameIgnoringCase element.name name

/-- Add a start tag. Some elements close a sibling of the same
name, which then ends where the tag starts. -/
def startTag (span : Span) (name : Text) (attributes : List Node) (selfClosing : Bool)
    (n : Nesting) : Nesting :=
  let n := if isClosedBySibling name && n.isInnermost name then n.close span.start else n
  if selfClosing || isVoid name then n.add (Node.mk (.element name) span attributes)
  else n.push ⟨name, span.start, attributes.reverse⟩

/-- Add an end tag. Elements open inside the one it closes end where the tag
starts. A tag without an element is a problem and changes nothing else. -/
def endTag (span : Span) (name : Text) (n : Nesting) : Nesting × List Diagnostic :=
  match n.depthOf? name with
  | some depth => ((n.closeMany span.start depth).close span.stop, [])
  | none =>
    (n, [⟨span, if isVoid name then .endTagOfVoidElement name else .unmatchedEndTag name⟩])

def step (piece : Piece) (n : Nesting) : Nesting × List Diagnostic :=
  match piece with
  | .text span interpolations => (n.add (Node.mk .text span interpolations), [])
  | .comment span => (n.add (Node.mk .comment span []), [])
  | .startTag span name attributes selfClosing =>
    (n.startTag span name attributes selfClosing, [])
  | .endTag span name => n.endTag span name

def run : List (Piece × List Diagnostic) → Nesting → Nesting × List Diagnostic
  | [], n => (n, [])
  | (piece, found) :: pieces, n =>
    let next := n.step piece
    let more := run pieces next.1
    (more.1, found ++ next.2 ++ more.2)

/-- Close what is left open at the end of the source, with a warning for each
element. -/
def finish (stop : Nat) (n : Nesting) : List Node × List Diagnostic :=
  ((n.closeMany stop n.stack.length).outside.reverse,
    n.stack.map fun element => ⟨Span.point element.start, .unclosedElement element.name⟩)

end Nesting

/-- A template with everything that was noticed while it was read. -/
structure ParsedTemplate where
  template : Template
  diagnostics : List Diagnostic

namespace ParsedTemplate

def hasErrors (p : ParsedTemplate) : Bool :=
  p.diagnostics.any fun d => d.severity == .error

end ParsedTemplate

/-- Read a source into a template. Every source has one, whatever
is wrong with it: the problems are told beside the tree. -/
def parse (source url : Text) : ParsedTemplate :=
  let nested := Nesting.empty.run (pieces source)
  let finished := nested.1.finish source.byteLength
  ⟨⟨source, url, Node.mk .root ⟨0, source.byteLength⟩ finished.1⟩, nested.2 ++ finished.2⟩

end Markup

end ComponentExtraction
