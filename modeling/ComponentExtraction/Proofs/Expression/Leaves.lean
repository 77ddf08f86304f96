import ComponentExtraction.Proofs.Expression.Assembly

/-!
# The leaves of an expression are its tokens

No token is lost, repeated or moved by the parser: the leaves below the tree of
an expression are the tokens that were read, in their order (`Lossless`). Where an
operand is missing at the end of the text stands an empty leaf, and then an error
was met. Tokens that are not read are reported.

Trees spell the tokens between two lists of tokens, the one they were read from and the
one that was left (`Spelt`), and are put together as their spellings are
(`Assembled.spelt`).
-/

namespace ComponentExtraction

/-- The nodes without children of some trees, in the order of a walk that visits
a node before its children. -/
def Node.leaves (nodes : List Node) : List Node :=
  ((Occurrence.preorderAll [] 0 nodes).map Occurrence.node).filter fun node =>
    node.children.isEmpty

namespace Occurrence

mutual

theorem map_node_preorder (address address' : Address) (node : Node) :
    (preorder address node).map Occurrence.node = (preorder address' node).map Occurrence.node := by
  cases node with
  | mk kind span children =>
    rw [preorder, preorder, List.map_cons, List.map_cons,
      map_node_preorderAll address address' 0 0 children]

theorem map_node_preorderAll (parent parent' : Address) (position position' : Nat)
    (nodes : List Node) :
    (preorderAll parent position nodes).map Occurrence.node =
      (preorderAll parent' position' nodes).map Occurrence.node := by
  cases nodes with
  | nil => rfl
  | cons node nodes =>
    rw [preorderAll, preorderAll, List.map_append, List.map_append,
      map_node_preorder (position :: parent) (position' :: parent') node,
      map_node_preorderAll parent parent' (position + 1) (position' + 1) nodes]

end

end Occurrence

namespace Node

@[simp] theorem leaves_nil : leaves [] = [] := rfl

theorem leaves_cons (node : Node) (nodes : List Node) :
    leaves (node :: nodes) = leaves [node] ++ leaves nodes := by
  simp only [leaves, Occurrence.preorderAll, List.append_nil, List.map_append, List.filter_append]
  rw [Occurrence.map_node_preorderAll [] [] 1 0]

theorem leaves_append (nodes more : List Node) :
    leaves (nodes ++ more) = leaves nodes ++ leaves more := by
  induction nodes with
  | nil => rfl
  | cons node nodes ih =>
    rw [List.cons_append, leaves_cons, ih, leaves_cons node nodes, List.append_assoc]

@[simp] theorem leaves_leaf (span : Span) : leaves [leaf span] = [leaf span] := rfl

theorem leaves_mk {kind : Kind} {span : Span} {children : List Node} (inner : children ≠ []) :
    leaves [mk kind span children] = leaves children := by
  have walk := Occurrence.map_node_preorderAll [0] [] 0 0 children
  simp only [leaves, Occurrence.preorderAll, Occurrence.preorder, List.append_nil, List.map_cons,
    walk]
  rw [List.filter_cons_of_neg]
  simpa using inner

end Node

namespace Expression

open Node Diagnostic

variable {source text : Text} {cx : Context} {faulty : Prop}
variable {tokens rest left : List Token} {token : Token} {kind : Kind} {nodes more : List Node}

/-- Leaves are those of the tokens between two lists. An empty leaf stands at the
end of the text, and only in a faulty one. -/
inductive SpeltBy (cx : Context) (faulty : Prop) (rest : List Token) :
    List Token → List Node → Prop
  | done : SpeltBy cx faulty rest rest []
  | token {tokens : List Token} {leaves : List Node} (token : Token)
      (later : SpeltBy cx faulty rest tokens leaves) :
      SpeltBy cx faulty rest (token :: tokens) (token.leaf :: leaves)
  | missing {tokens : List Token} {leaves : List Node} (fault : faulty)
      (later : SpeltBy cx faulty rest tokens leaves) :
      SpeltBy cx faulty rest tokens (Node.leaf (Span.point cx.stop) :: leaves)

/-- The leaves of some trees are those of the tokens in front of the rest. -/
def Spelt (cx : Context) (faulty : Prop) (tokens : List Token) (nodes : List Node)
    (rest : List Token) : Prop :=
  SpeltBy cx faulty rest tokens (leaves nodes)

theorem SpeltBy.append {first second : List Node} (h : SpeltBy cx faulty rest tokens first)
    (behind : SpeltBy cx faulty left rest second) :
    SpeltBy cx faulty left tokens (first ++ second) := by
  induction h with
  | done => exact behind
  | token token later ih => exact .token token ih
  | missing fault later ih => exact .missing fault ih

namespace Spelt

theorem nil (tokens : List Token) : Spelt cx faulty tokens [] tokens :=
  SpeltBy.done

theorem append (h : Spelt cx faulty tokens nodes rest) (behind : Spelt cx faulty rest more left) :
    Spelt cx faulty tokens (nodes ++ more) left := by
  rw [Spelt, leaves_append]
  exact SpeltBy.append h behind

theorem cons {node : Node} (h : Spelt cx faulty tokens [node] rest)
    (behind : Spelt cx faulty rest more left) : Spelt cx faulty tokens (node :: more) left :=
  append h behind

theorem leaf (token : Token) (rest : List Token) :
    Spelt cx faulty (token :: rest) [token.leaf] rest :=
  SpeltBy.token token .done

theorem enclosing {start : Nat} (inner : nodes ≠ []) (h : Spelt cx faulty tokens nodes rest) :
    Spelt cx faulty tokens [Node.enclosing kind start nodes] rest := by
  rw [Spelt, Node.enclosing, leaves_mk inner]
  exact h

theorem wrap {start : Nat} {first : Node} (h : Spelt cx faulty tokens [first] rest)
    (behind : Spelt cx faulty rest more left) :
    Spelt cx faulty tokens [Node.enclosing kind start (first :: more)] left :=
  enclosing (List.cons_ne_nil _ _) (h.cons behind)

theorem single (token : Token) (rest : List Token) :
    Spelt cx faulty (token :: rest) [single kind token] rest :=
  (leaf token rest).wrap (.nil rest)

end Spelt

/-- The leaves of trees are the tokens that the trees are put together from. -/
theorem Assembled.spelt (h : Assembled cx faulty tokens nodes rest) :
    Spelt cx faulty tokens nodes rest := by
  induction h with
  | nil tokens => exact .nil tokens
  | cons _ _ first behind => exact first.cons behind
  | token token rest => exact .leaf token rest
  | missing fault => exact SpeltBy.missing fault .done
  | identifier _ rest => exact .single _ rest
  | pipeName rest =>
    rw [Spelt, leaves_mk (List.cons_ne_nil _ _)]
    exact Spelt.leaf _ rest
  | member _ _ _ _ receiver => exact receiver.wrap ((Spelt.leaf _ _).cons (.leaf _ _))
  | nameless _ _ _ receiver => exact receiver.wrap (.leaf _ _)
  | call _ _ _ _ _ callee marks arguments =>
    exact callee.wrap (marks.append ((Spelt.leaf _ _).wrap arguments))
  | compound _ _ _ _ inner => exact inner.enclosing (List.cons_ne_nil _ _)

namespace SpeltBy

variable {leaves : List Node}

theorem kind_eq (h : SpeltBy cx faulty rest tokens leaves) :
    ∀ leaf ∈ leaves, leaf.kind = .token := by
  induction h with
  | done => simp
  | token token later ih => exact List.forall_mem_cons.mpr ⟨rfl, ih⟩
  | missing fault later ih => exact List.forall_mem_cons.mpr ⟨rfl, ih⟩

/-- Without the empty leaves, those of the tokens that were read are left. -/
theorem exists_taken (h : SpeltBy cx faulty rest tokens leaves)
    (solid : ∀ token ∈ tokens, token.span.start < token.span.stop) :
    ∃ taken, tokens = taken ++ rest ∧
      (leaves.filter fun leaf => !leaf.span.isEmpty) = taken.map Token.leaf := by
  induction h with
  | done => exact ⟨[], rfl, rfl⟩
  | token token later ih =>
    obtain ⟨first, others⟩ := List.forall_mem_cons.mp solid
    obtain ⟨taken, rfl, leaves_eq⟩ := ih others
    refine ⟨token :: taken, rfl, ?_⟩
    have nonempty : token.leaf.span.isEmpty = false := by
      simp only [Token.leaf, Node.leaf, Node.span_mk, Span.isEmpty, Span.length, beq_eq_false_iff_ne]
      omega
    rw [List.filter_cons_of_pos (by simp [nonempty]), leaves_eq, List.map_cons]
  | missing fault later ih =>
    obtain ⟨taken, tokens_eq, leaves_eq⟩ := ih solid
    refine ⟨taken, tokens_eq, ?_⟩
    rw [List.filter_cons_of_neg (by simp [Node.leaf, Span.point, Span.isEmpty, Span.length]),
      leaves_eq]

/-- An empty leaf stands at the end of a faulty text. -/
theorem of_isEmpty (h : SpeltBy cx faulty rest tokens leaves)
    (solid : ∀ token ∈ tokens, token.span.start < token.span.stop) :
    ∀ leaf ∈ leaves, leaf.span.isEmpty = true → leaf.span = Span.point cx.stop ∧ faulty := by
  induction h with
  | done => simp
  | token token later ih =>
    obtain ⟨first, others⟩ := List.forall_mem_cons.mp solid
    refine List.forall_mem_cons.mpr ⟨?_, ih others⟩
    intro empty
    simp only [Token.leaf, Node.leaf, Node.span_mk, Span.isEmpty, Span.length, beq_iff_eq] at empty
    omega
  | missing fault later ih => exact List.forall_mem_cons.mpr ⟨fun _ => ⟨rfl, fault⟩, ih solid⟩

end SpeltBy

/-- The tree of a text at an offset keeps its tokens: its leaves are the first of
them in their order, and besides empty ones at the end of the text where an error
was met. An error is noticed at the first token that is left out. -/
structure Lossless (offset : Nat) (text : Text) (found : List Node × List Diagnostic) : Prop where
  tokens : ∀ leaf ∈ leaves found.1, leaf.kind = .token
  kept : ∃ count ≤ (tokensAt offset text).length,
    ((leaves found.1).filter fun leaf => !leaf.span.isEmpty).map Node.span =
        ((tokensAt offset text).take count).map Token.span ∧
      ∀ token, (tokensAt offset text)[count]? = some token →
        ∃ d ∈ found.2, d.span = token.span ∧ d.severity = .error
  missing : ∀ leaf ∈ leaves found.1, leaf.span.isEmpty = true →
    leaf.span = Span.point (offset + text.byteLength) ∧ ∃ d ∈ found.2, d.severity = .error
  complete : Harmless found.2 →
    (leaves found.1).map Node.span = (tokensAt offset text).map Token.span

theorem solid_tokensAt (offset : Nat) (text : Text) :
    ∀ token ∈ tokensAt offset text, token.span.start < token.span.stop := by
  intro token member
  obtain ⟨original, found, rfl⟩ := List.mem_map.mp member
  obtain ⟨laid, -⟩ := laid_scanFrom text .binding (Cursor.start text) (.refl _)
  exact Nat.add_lt_add_right (laid.solid original found).1 offset

theorem exists_error_of_not_harmless {diagnostics : List Diagnostic}
    (h : ¬Harmless diagnostics) : ∃ d ∈ diagnostics, d.severity = .error := by
  simpa [Harmless] using h

theorem error_of_leftover (h : tokens.head? = some token) :
    ∃ d ∈ leftover tokens, d.span = token.span ∧ d.severity = .error := by
  cases tokens with
  | nil => cases h
  | cons first rest =>
    cases h
    exact ⟨_, List.mem_singleton.mpr rfl, rfl, rfl⟩

/-- Every token of an expression is a leaf of its tree or comes after an error,
and leaves without a text stand at the end of a faulty expression only. -/
theorem lossless_parse (mode : Mode) (offset : Nat) (text : Text) :
    Lossless offset text (parse mode offset text) := by
  let result := chain ⟨mode, offset + text.byteLength⟩ (tokensAt offset text)
  let problems := result.diagnostics ++ leftover result.rest
  have solid := solid_tokensAt offset text
  have known : ¬Harmless result.diagnostics → ∃ d ∈ problems, d.severity = .error := by
    intro faults
    obtain ⟨d, member, severity⟩ := exists_error_of_not_harmless faults
    exact ⟨d, List.mem_append_left _ member, severity⟩
  have spelt : SpeltBy _ (∃ d ∈ problems, d.severity = .error) result.rest
      (tokensAt offset text) (leaves result.value) :=
    (assembles_chain _ (tokensAt offset text) known).1.spelt
  have missing := spelt.of_isEmpty solid
  obtain ⟨taken, tokens_eq, leaves_eq⟩ := spelt.exists_taken solid
  have spans_eq : ((leaves result.value).filter fun leaf => !leaf.span.isEmpty).map Node.span =
      taken.map Token.span := by
    rw [leaves_eq, List.map_map]
    rfl
  refine ⟨spelt.kind_eq, ⟨taken.length, ?_, ?_, ?_⟩, missing, ?_⟩
  · rw [tokens_eq, List.length_append]
    exact Nat.le_add_right _ _
  · rw [tokens_eq, List.take_left']
    · exact spans_eq
    · rfl
  · intro token token_eq
    rw [tokens_eq, List.getElem?_append_right (Nat.le_refl _), Nat.sub_self,
      ← List.head?_eq_getElem?] at token_eq
    obtain ⟨d, member, noticed⟩ := error_of_leftover token_eq
    exact ⟨d, List.mem_append_right _ member, noticed⟩
  · intro harmless
    obtain ⟨-, none_left⟩ := harmless_append.mp harmless
    -- Without an error no token is left over and no leaf is empty.
    have rest_eq : result.rest = [] := by
      cases rest_eq : result.rest with
      | nil => rfl
      | cons token rest =>
        rw [rest_eq] at none_left
        exact absurd rfl (none_left _ (List.mem_singleton.mpr rfl))
    have all_kept : (leaves result.value).filter (fun leaf => !leaf.span.isEmpty) =
        leaves result.value := by
      refine List.filter_eq_self.mpr fun leaf member => ?_
      cases empty : leaf.span.isEmpty with
      | false => rfl
      | true =>
        obtain ⟨-, d, found, severity⟩ := missing leaf member empty
        exact absurd severity (harmless d found)
    rw [tokens_eq, rest_eq, List.append_nil, ← spans_eq, all_kept]
    rfl

end Expression

end ComponentExtraction
