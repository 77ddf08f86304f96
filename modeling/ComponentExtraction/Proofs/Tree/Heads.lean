import ComponentExtraction.Proofs.Tree.Placement
import ComponentExtraction.Proofs.Tree.Shape

/-!
# What stands first in a node

The way from a node down its first children is how a chain of members, keys and
calls is read from its end to its start. It never enters the arguments of a call, as
these stand behind what is called, and an identifier at its end covers at least one
byte.
-/

namespace ComponentExtraction

namespace Kind

/-- Kinds of nodes that can stand first in another one. The arguments of a call stand
behind what is called, and the name of a pipe behind its mark. -/
def leads : Kind → Bool
  | argumentList | pipeReference _ => false
  | _ => true

theorem not_isPipeReference_of_leads {kind : Kind} (leads : kind.leads = true) :
    kind.isPipeReference = false := by
  cases kind <;> first | rfl | cases leads

end Kind

namespace Node

/-- The node starts with a token or an operand, and is not empty if it is an
identifier. -/
structure Headed (node : Node) : Prop where
  leads : ∀ first ∈ node.children.head?, first.kind.leads = true
  solid : ∀ name, node.identifier? = some name → node.Solid

variable {source : Text} {node : Node}

theorem Regular.solid_of_first {first : Node} {more : List Node} (regular : node.Regular source)
    (children_eq : node.children = first :: more) (solid : first.Solid) : node.Solid := by
  have fits := regular.fits
  rw [children_eq] at fits
  have stop := fits.2.2.le
  exact Nat.lt_of_le_of_lt fits.1 (Nat.lt_of_lt_of_le solid stop)

/-- Whatever has a second child starts with a solid first one. -/
theorem Regular.solid_of_several {first second : Node} {more : List Node}
    (regular : node.Regular source) (children_eq : node.children = first :: second :: more) :
    node.Solid :=
  regular.solid_of_first children_eq (regular.leads first second more children_eq)

theorem Regular.solid_of_isCall (regular : node.Regular source) (shaped : Every Shaped node)
    (call : node.kind.isCall = true) : node.Solid := by
  have shape := shaped.here
  rw [Kind.isCall_iff.mp call] at shape
  generalize children_eq : node.children = children at shape
  cases shape with
  | @call callee marks list =>
    cases marks with
    | nil => exact regular.solid_of_several children_eq
    | cons mark marks => exact regular.solid_of_several children_eq
  | other _ _ _ other => exact absurd other (by simp [Kind.isCall])

theorem Regular.solid_of_chain (regular : node.Regular source) (shaped : Every Shaped node)
    (headed : node.Headed) (chain : node.kind.isReference = true ∨ node.kind.isCall = true) :
    node.Solid := by
  rcases chain with reference | call
  · obtain ⟨name, kind_eq⟩ := Kind.isReference_iff.mp reference
    have shape := shaped.here
    rw [kind_eq] at shape
    generalize children_eq : node.children = children at shape
    cases shape with
    | identifier span named =>
      apply headed.solid name
      simp [identifier?, kind_eq, children_eq, leaf]
    | member receiver dot last => exact regular.solid_of_several children_eq
    | nameless receiver dot => exact regular.solid_of_several children_eq
    | other _ _ other => exact absurd other (by simp [Kind.isReference])
  · exact regular.solid_of_isCall shaped call

end Node

end ComponentExtraction
