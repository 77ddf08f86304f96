import ComponentExtraction.Proofs.Tree.Occurrence

/-!
# The shape of references and calls

What the children of a node are is decided by its kind for three kinds that the
analysis of a fragment looks into: tokens are leaves, a reference is one token
or a receiver followed by tokens, and a call is its callee followed by marks and
one list of arguments. `Node.Every` extends such a local condition to everything
below a node.
-/

namespace ComponentExtraction

namespace Kind

theorem isReference_iff {kind : Kind} :
    kind.isReference = true ↔ ∃ name, kind = .reference name := by
  cases kind <;> simp [isReference]

theorem isCall_iff {kind : Kind} : kind.isCall = true ↔ kind = .call := by
  cases kind <;> simp [isCall]

end Kind

namespace Node

/-- A condition on kinds and children holds at a node and everywhere below
it. It does not speak of spans, so it goes with a tree to any place. -/
inductive Every (P : Kind → List Node → Prop) : Node → Prop
  | intro {kind : Kind} {span : Span} {children : List Node} (here : P kind children)
      (below : ∀ child ∈ children, Every P child) : Every P (mk kind span children)

namespace Every

variable {P : Kind → List Node → Prop} {node : Node}

theorem here (h : Every P node) : P node.kind node.children := by
  cases h with
  | intro here _ => exact here

theorem of_mem_children (h : Every P node) : ∀ child ∈ node.children, Every P child := by
  cases h with
  | intro _ below => exact below

theorem mono {Q : Kind → List Node → Prop} (h : Every P node)
    (implies : ∀ kind children, P kind children → Q kind children) : Every Q node := by
  induction h with
  | intro here _ ih => exact .intro (implies _ _ here) ih

theorem of_contains {t : Template} {o : Occurrence} (h : Every P t.root) (held : t.Contains o) :
    Every P o.node := by
  obtain ⟨address, node⟩ := o
  induction address generalizing node with
  | nil =>
    cases held
    exact h
  | cons position parent ih =>
    obtain ⟨above, held', rfl, child⟩ := held.exists_parent rfl
    exact (ih above.node held').of_mem_children node (List.mem_of_getElem? child)

end Every

/-- What the children of tokens, references and calls are. The name of a
reference is missing only behind a dot. -/
inductive Shaped : Kind → List Node → Prop
  | token : Shaped .token []
  | identifier {name : Text} (span : Span) (named : name ≠ []) :
      Shaped (.reference name) [leaf span]
  | member (name : Text) (receiver : Node) (dot last : Span) :
      Shaped (.reference name) [receiver, leaf dot, leaf last]
  | nameless (receiver : Node) (dot : Span) : Shaped (.reference []) [receiver, leaf dot]
  | call (callee : Node) {marks : List Node} {list : Node}
      (tokens : ∀ mark ∈ marks, mark.kind = .token) (arguments : list.kind = .argumentList) :
      Shaped .call (callee :: marks ++ [list])
  | other {kind : Kind} (children : List Node) (token : kind ≠ .token)
      (reference : kind.isReference = false) (call : kind.isCall = false) :
      Shaped kind children

/-- The name of a reference that consists of nothing but its own token. -/
def identifier? (node : Node) : Option Text :=
  match node.kind, node.children with
  | .reference name, [child] => if child.kind = .token then some name else none
  | _, _ => none

variable {node : Node} {name : Text}

theorem kind_of_identifier? (h : node.identifier? = some name) : node.kind = .reference name := by
  unfold identifier? at h
  split at h
  · next kind_eq _ =>
    split at h
    · rw [kind_eq, Option.some.inj h]
    · exact absurd h (by simp)
  · exact absurd h (by simp)

theorem qualifier?_of_identifier? (h : node.identifier? = some name) : node.qualifier? = none := by
  unfold identifier? at h
  split at h
  · next kind_eq children_eq => simp [qualifier?, kind_eq, children_eq]
  · exact absurd h (by simp)

theorem Every.of_identifier? (h : Every Shaped node) (identifier : node.identifier? = some name) :
    name ≠ [] ∧ ∃ span, node.children = [leaf span] := by
  have shape := h.here
  rw [kind_of_identifier? identifier] at shape
  generalize children_eq : node.children = children at shape
  cases shape with
  | identifier span named => exact ⟨named, span, rfl⟩
  | member receiver dot last => simp [identifier?, children_eq] at identifier
  | nameless receiver dot => simp [identifier?, children_eq] at identifier
  | other _ _ reference => exact absurd reference (by simp [Kind.isReference])

theorem Every.identifier?_eq (h : Every Shaped node) (kind_eq : node.kind = .reference name)
    (named : name ≠ []) (unqualified : node.qualifier? = none) :
    node.identifier? = some name := by
  have shape := h.here
  rw [kind_eq] at shape
  generalize children_eq : node.children = children at shape
  cases shape with
  | identifier span => simp [identifier?, kind_eq, children_eq, leaf]
  | member receiver dot last =>
    simp [qualifier?, kind_eq, children_eq, Kind.isReference] at unqualified
  | nameless => exact absurd rfl named
  | other _ _ reference => exact absurd reference (by simp [Kind.isReference])

theorem Every.children_ne_nil (h : Every Shaped node)
    (chain : node.kind.isReference = true ∨ node.kind.isCall = true) : node.children ≠ [] := by
  have shape := h.here
  generalize node.children = children at shape
  generalize node.kind = kind at shape chain
  cases shape with
  | token => simp [Kind.isReference, Kind.isCall] at chain
  | other _ _ reference call => simp [reference, call] at chain
  | _ => simp

/-- A reference below a reference or a call stands first in it. -/
theorem Every.position_eq_zero {child : Node} {position : Nat} (h : Every Shaped node)
    (chain : node.kind.isReference = true ∨ node.kind.isCall = true)
    (found : node.children[position]? = some child)
    (continues : child.kind.isReference = true ∨ child.kind.isCall = true) : position = 0 := by
  have shape := h.here
  generalize children_eq : node.children = children at shape found
  generalize node.kind = kind at shape chain
  cases position with
  | zero => rfl
  | succ position =>
    -- Whatever comes later is a token or the list of arguments.
    have later : child.kind = .token ∨ child.kind = .argumentList := by
      cases shape with
      | token => simp at found
      | identifier => simp at found
      | member receiver dot last =>
        have member := List.mem_of_getElem? (i := position) (by simpa using found)
        simp only [List.mem_cons, List.not_mem_nil, or_false] at member
        rcases member with rfl | rfl <;> exact .inl rfl
      | nameless receiver dot =>
        have member := List.mem_of_getElem? (i := position) (by simpa using found)
        simp only [List.mem_cons, List.not_mem_nil, or_false] at member
        cases member
        exact .inl rfl
      | call callee tokens arguments =>
        have member := List.mem_of_getElem? (i := position) (by simpa using found)
        rcases List.mem_append.mp member with mark | list
        · exact .inl (tokens _ mark)
        · cases List.mem_singleton.mp list
          exact .inr arguments
      | other _ _ reference call =>
        rcases chain with chain | chain
        · exact absurd (reference.symm.trans chain) (by simp)
        · exact absurd (call.symm.trans chain) (by simp)
    rcases later with later | later <;>
      rw [later] at continues <;> simp [Kind.isReference, Kind.isCall] at continues

end Node

end ComponentExtraction
