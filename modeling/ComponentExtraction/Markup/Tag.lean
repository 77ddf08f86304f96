import ComponentExtraction.Text.Basic

/-!
# Tags with rules of their own

Which elements never have content, and which are closed by a sibling of the
same name. Case does not matter.
-/

namespace ComponentExtraction

namespace Markup

def voidElements : List String :=
  ["area", "base", "br", "col", "embed", "hr", "img", "input", "link", "meta", "param", "source",
   "track", "wbr"]

/-- The elements that may not be nested in themselves. -/
def elementsClosedBySibling : List String :=
  ["li", "dt", "dd", "p", "tr", "td", "th", "option"]

def isVoid (name : Text) : Bool :=
  voidElements.any fun element => element.toList = name.lowercase

def isClosedBySibling (name : Text) : Bool :=
  elementsClosedBySibling.any fun element => element.toList = name.lowercase

end Markup

end ComponentExtraction
