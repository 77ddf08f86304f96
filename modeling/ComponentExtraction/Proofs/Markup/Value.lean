import ComponentExtraction.Proofs.Markup.Nesting
import ComponentExtraction.Proofs.Markup.Shape

/-!
# The values of attributes

An attribute that binds a property or handles an event has one node for its value, or
none if it has no value (`Valued`). So what is looked up among its children is the only
one of its kind.
-/

namespace ComponentExtraction

/-- Attributes whose value is one expression or one handler. -/
def Kind.hasOneValue : Kind → Bool
  | propertyBinding _ | bananaBox _ | event _ => true
  | _ => false

namespace Node

/-- An attribute with one value is its name alone, or its name, an equals sign and the
value. -/
inductive Valued : Kind → List Node → Prop
  | bare {kind : Kind} (name : Span) : Valued kind [leaf name]
  | value {kind : Kind} (name equals : Span) {value : Node}
      (held : value.kind = .binding ∨ value.kind = .action) :
      Valued kind [leaf name, leaf equals, value]
  | other {kind : Kind} (children : List Node) (several : kind.hasOneValue = false) :
      Valued kind children

/-- Besides tokens there is at most one child, the value. -/
theorem Valued.eq_two {kind : Kind} {children : List Node} (h : Valued kind children)
    (one : kind.hasOneValue = true) {position : Nat} {child : Node}
    (found : children[position]? = some child) (inner : child.kind ≠ .token) :
    position = 2 ∧ (child.kind = .binding ∨ child.kind = .action) := by
  cases h with
  | bare name =>
    cases position with
    | zero =>
      cases found
      exact absurd rfl inner
    | succ position => simp at found
  | value name equals held =>
    match position with
    | 0 | 1 =>
      cases found
      exact absurd rfl inner
    | 2 =>
      cases found
      exact ⟨rfl, held⟩
    | position + 3 => simp at found
  | other _ several => exact absurd (several.symm.trans one) (by simp)

theorem hasOneValue_of_layer {kind : Kind} (inner : 1 < kind.layer) :
    kind.hasOneValue = false := by
  cases kind <;> simp_all [Kind.hasOneValue, Kind.layer]

theorem Everywhere.valued {source : Text} {node : Node} (h : Everywhere (Regular source) node)
    (inner : 1 < node.kind.layer) : Every Valued node := by
  induction h with
  | @intro node regular _ ih =>
    obtain ⟨kind, span, children⟩ := node
    refine .intro (.other children (hasOneValue_of_layer inner)) fun child member => ?_
    have layer_eq : (mk kind span children).kind.layer = kind.layer := rfl
    rcases regular.admits child member with outermost | deeper
    · omega
    · exact ih child member (by omega)

theorem Valued.every {source : Text} {node : Node} (here : Valued node.kind node.children)
    (regular : Everywhere (Regular source) node) (inner : 0 < node.kind.layer) :
    Every Valued node := by
  obtain ⟨kind, span, children⟩ := node
  refine .intro here fun child member => ?_
  rcases regular.here.admits child member with outermost | deeper
  · omega
  · exact (regular.of_mem_children child member).valued (by omega)

end Node

namespace Markup

open Node

variable {source : Text}

theorem form_of_hasOneValue (name : Text) (one : (classify name).1.hasOneValue = true) :
    (classify name).2 = .binding ∨ (classify name).2 = .action := by
  revert one
  unfold classify
  repeat' split
  all_goals simp [Kind.hasOneValue]

theorem valued_readAttribute (c : Cursor) (nonempty : c.rest ≠ []) :
    ∀ node ∈ (readAttribute c nonempty).value.toList, Valued node.kind node.children := by
  have form := form_of_hasOneValue (c.rest.takeWhile isNamePart)
  unfold readAttribute
  dsimp only
  split
  · simp
  · split
    · refine List.forall_mem_singleton.mpr ?_
      cases one : (classify (c.rest.takeWhile isNamePart)).1.hasOneValue with
      | false => exact .other _ one
      | true =>
        rcases form one with form_eq | form_eq
        · rw [form_eq]
          exact .value _ _ (.inl rfl)
        · rw [form_eq]
          exact .value _ _ (.inr rfl)
    · exact List.forall_mem_singleton.mpr (.bare _)

theorem valued_readTagBody (name : Text) (start : Nat) (c : Cursor) :
    ∀ node ∈ (readTagBody name start c).attributes, Valued node.kind node.children := by
  fun_induction readTagBody name start c with
  | case1 => simp
  | case2 => simp
  | case3 => simp
  | case4 _ _ _ _ _ _ _ _ _ _ more ih => exact ih
  | case5 _ _ _ _ _ _ _ _ _ _ found more ih =>
    exact List.forall_mem_append.mpr ⟨valued_readAttribute _ _, ih⟩

theorem valued_readPiece (c : Cursor) (nonempty : c.rest ≠ []) {span : Span} {name : Text}
    {attributes : List Node} {selfClosing : Bool}
    (read : (readPiece c nonempty).value = .startTag span name attributes selfClosing) :
    ∀ node ∈ attributes, Valued node.kind node.children := by
  unfold readPiece at read
  split at read
  · obtain ⟨_, comment⟩ := exists_readComment_eq nonempty
    cases comment.symm.trans read
  · obtain ⟨_, _, endTag⟩ := exists_readEndTag_eq nonempty
    cases endTag.symm.trans read
  · cases read
    exact valued_readTagBody _ _ _
  · cases read

theorem valued_pieces (source : Text) : ∀ entry ∈ pieces source,
    ∀ span name attributes selfClosing, entry.1 = .startTag span name attributes selfClosing →
      ∀ node ∈ attributes, Valued node.kind node.children := by
  unfold pieces
  generalize Cursor.start source = c
  fun_induction piecesFrom c with
  | case1 => simp
  | case2 c h piece ih =>
    refine List.forall_mem_cons.mpr ⟨fun span name attributes selfClosing read => ?_, ih⟩
    exact valued_readPiece c h read

theorem every_valued_of_mem_nodes {piece : Piece} (holds : piece.Holds source)
    (attributes : ∀ span name attributes selfClosing,
      piece = .startTag span name attributes selfClosing →
        ∀ node ∈ attributes, Valued node.kind node.children) :
    ∀ node ∈ piece.nodes, Every Valued node := by
  cases piece with
  | text span interpolations =>
    intro node member
    have regular : Everywhere (Regular source) (Node.mk .text span interpolations) := holds
    refine (regular.of_mem_children node member).valued ?_
    rcases regular.here.admits node member with outermost | deeper
    · exact absurd outermost (by simp [Kind.layer])
    · exact deeper
  | comment span => simp [Piece.nodes]
  | startTag span name nodes selfClosing =>
    obtain ⟨placed, -⟩ := holds
    intro node member
    exact (attributes _ _ _ _ rfl node member).every (placed.placed.regular node member)
      (placed.placed.layers node member)
  | endTag span name => simp [Piece.nodes]

/-- Every attribute of a parsed template with one value has it as its last child. -/
theorem valued_parse (source url : Text) : Every Valued (parse source url).template.root := by
  have adopts : Adopts (fun _ => True) (Every Valued) := by
    intro kind span children markup _ _ below
    refine .intro (.other children ?_) below
    cases kind <;> simp_all [Kind.isMarkup, Kind.hasOneValue]
  refine .intro (.other _ rfl) (forall_children_parse adopts source url
    (fun _ _ => ⟨trivial, trivial⟩) trivial fun entry listed => ?_)
  exact every_valued_of_mem_nodes ((follow_pieces source).holds entry listed)
    (valued_pieces source entry listed)

end Markup

end ComponentExtraction
