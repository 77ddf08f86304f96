import ComponentExtraction.Markup.Nesting
import ComponentExtraction.Proofs.Expression.Shape
import ComponentExtraction.Proofs.Markup.Placement

/-!
# Parsed templates are shaped

`Markup.parse` nests the trees of expressions in markup and adds only kinds
without a shape of their own. So a condition that the expressions of a source meet
and that passes from what a node holds to the node (`Spreads`) holds of the whole tree of
a template, in particular that it is `Node.Shaped` and `Node.Headed` throughout. The stack
of open elements keeps any condition that markup passes on (`Adopts`), or only elements
(`Encloses`), for the children met so far, whatever end tags close.
-/

namespace ComponentExtraction

namespace Markup

open Node

def Piece.nodes : Piece → List Node
  | .text _ interpolations => interpolations
  | .startTag _ _ attributes _ => attributes
  | .comment _ | .endTag _ _ => []

theorem exists_readComment_eq {c : Cursor} (nonempty : c.rest ≠ []) :
    ∃ span, (readComment c nonempty).value = .comment span := by
  unfold readComment
  dsimp only
  split
  · exact ⟨_, rfl⟩
  · exact ⟨_, rfl⟩

theorem exists_readEndTag_eq {c : Cursor} (nonempty : c.rest ≠ []) :
    ∃ span name, (readEndTag c nonempty).value = .endTag span name := by
  unfold readEndTag
  dsimp only
  split
  · exact ⟨_, _, rfl⟩
  · exact ⟨_, _, rfl⟩

/-- The nodes that a piece leaves in the nesting as they are. -/
def Piece.complete : Piece → List Node
  | .text span interpolations => [Node.mk .text span interpolations]
  | .comment span => [Node.mk .comment span []]
  | .startTag _ _ attributes _ => attributes
  | .endTag _ _ => []

/-- A condition on trees that holds of markup if it holds of what the markup holds and
the markup starts and stops at positions of a kind. -/
def Adopts (C : Nat → Prop) (P : Node → Prop) : Prop :=
  ∀ kind span children, kind.isMarkup = true → C span.start → C span.stop →
    (∀ child ∈ children, P child) → P (Node.mk kind span children)

def Encloses (C : Nat → Prop) (P : Node → Prop) : Prop :=
  ∀ name span children, C span.start → C span.stop → (∀ child ∈ children, P child) →
    P (Node.mk (.element name) span children)

theorem Adopts.encloses {C : Nat → Prop} {P : Node → Prop} (adopts : Adopts C P) :
    Encloses C P :=
  fun name span children => adopts (.element name) span children rfl

/-- What holds of the nodes that a piece brings along holds of those that it leaves. -/
theorem Adopts.complete {C : Nat → Prop} {P : Node → Prop} (adopts : Adopts C P) {piece : Piece}
    (begins : C piece.span.start) (ends : C piece.span.stop)
    (held : ∀ node ∈ piece.nodes, P node) : ∀ node ∈ piece.complete, P node := by
  cases piece with
  | text span interpolations =>
    exact List.forall_mem_singleton.mpr (adopts _ _ _ rfl begins ends held)
  | comment span => exact List.forall_mem_singleton.mpr (adopts _ _ _ rfl begins ends held)
  | startTag | endTag => exact held

namespace Nesting

variable {C : Nat → Prop} {P : Node → Prop} {n : Nesting}

/-- A condition holds of the complete nodes and of the children of open elements, and
another one of the positions where the open elements start. -/
structure All (C : Nat → Prop) (P : Node → Prop) (n : Nesting) : Prop where
  outside : ∀ node ∈ n.outside, P node
  stack : ∀ element ∈ n.stack, C element.start ∧ ∀ child ∈ element.children, P child

theorem All.add {node : Node} (h : n.All C P) (held : P node) : (n.add node).All C P := by
  unfold Nesting.add
  split
  · next stack_eq => exact ⟨List.forall_mem_cons.mpr ⟨held, h.outside⟩, by simp [stack_eq]⟩
  · next element stack stack_eq =>
    have open_ := h.stack
    rw [stack_eq, List.forall_mem_cons] at open_
    exact ⟨h.outside, List.forall_mem_cons.mpr
      ⟨⟨open_.1.1, List.forall_mem_cons.mpr ⟨held, open_.1.2⟩⟩, open_.2⟩⟩

variable (encloses : Encloses C P)
include encloses

theorem All.close (h : n.All C P) {stop : Nat} (ends : C stop) : (n.close stop).All C P := by
  unfold Nesting.close
  split
  · exact h
  · next element stack stack_eq =>
    have open_ := h.stack
    rw [stack_eq, List.forall_mem_cons] at open_
    refine All.add ⟨h.outside, open_.2⟩ (encloses _ _ _ open_.1.1 ends ?_)
    intro child member
    exact open_.1.2 child (List.mem_reverse.mp member)

theorem All.closeMany (h : n.All C P) {stop : Nat} (ends : C stop) (count : Nat) :
    (n.closeMany stop count).All C P := by
  induction count generalizing n with
  | zero => exact h
  | succ count ih => exact ih (h.close encloses ends)

theorem All.startTag {attributes : List Node} (h : n.All C P) {span : Span}
    (begins : C span.start) (ends : C span.stop) (name : Text)
    (held : ∀ node ∈ attributes, P node) (selfClosing : Bool) :
    (n.startTag span name attributes selfClosing).All C P := by
  have closed : (if isClosedBySibling name && n.isInnermost name then n.close span.start
      else n).All C P := by
    split
    · exact h.close encloses begins
    · exact h
  unfold Nesting.startTag
  dsimp only
  split
  · exact closed.add (encloses _ _ _ begins ends held)
  · refine ⟨closed.outside, List.forall_mem_cons.mpr ⟨⟨begins, ?_⟩, closed.stack⟩⟩
    intro child member
    exact held child (List.mem_reverse.mp member)

theorem All.step {piece : Piece} (h : n.All C P) (begins : C piece.span.start)
    (ends : C piece.span.stop) (held : ∀ node ∈ piece.complete, P node) :
    (n.step piece).1.All C P := by
  cases piece with
  | text span interpolations => exact h.add (List.forall_mem_singleton.mp held)
  | comment span => exact h.add (List.forall_mem_singleton.mp held)
  | startTag span name attributes selfClosing =>
    exact h.startTag encloses begins ends name held selfClosing
  | endTag span name =>
    simp only [Nesting.step, Nesting.endTag]
    split
    · exact (h.closeMany encloses begins _).close encloses ends
    · exact h

theorem All.run {pieces : List (Piece × List Diagnostic)} (h : n.All C P)
    (ends : ∀ entry ∈ pieces, C entry.1.span.start ∧ C entry.1.span.stop)
    (held : ∀ entry ∈ pieces, ∀ node ∈ entry.1.complete, P node) : (n.run pieces).1.All C P := by
  induction pieces generalizing n with
  | nil => exact h
  | cons entry pieces ih =>
    obtain ⟨⟨begins, ends⟩, ends_later⟩ := List.forall_mem_cons.mp ends
    obtain ⟨first, later⟩ := List.forall_mem_cons.mp held
    exact ih (h.step encloses begins ends first) ends_later later

end Nesting

/-- What holds of the nodes that all pieces leave holds of the trees of a template. -/
theorem forall_children_of_complete {C : Nat → Prop} {P : Node → Prop}
    (encloses : Encloses C P) (source url : Text)
    (ends : ∀ entry ∈ pieces source, C entry.1.span.start ∧ C entry.1.span.stop)
    (finished : C source.byteLength)
    (held : ∀ entry ∈ pieces source, ∀ node ∈ entry.1.complete, P node) :
    ∀ node ∈ (parse source url).template.root.children, P node := by
  have started : Nesting.empty.All C P := ⟨by simp [Nesting.empty], by simp [Nesting.empty]⟩
  have nested := started.run encloses ends held
  intro node member
  exact (nested.closeMany encloses finished _).outside node (List.mem_reverse.mp member)

theorem forall_children_parse {C : Nat → Prop} {P : Node → Prop} (adopts : Adopts C P)
    (source url : Text)
    (ends : ∀ entry ∈ pieces source, C entry.1.span.start ∧ C entry.1.span.stop)
    (finished : C source.byteLength)
    (held : ∀ entry ∈ pieces source, ∀ node ∈ entry.1.nodes, P node) :
    ∀ node ∈ (parse source url).template.root.children, P node :=
  forall_children_of_complete adopts.encloses source url ends finished fun entry listed =>
    adopts.complete (ends entry listed).1 (ends entry listed).2 (held entry listed)

/-- A condition on trees that every expression of a source meets, and that passes
from what markup, an attribute or the owner of an expression holds to the node. -/
structure Spreads (source : Text) (P : Node → Prop) : Prop where
  expression : ∀ {mode offset text}, text.StandsAt offset source →
    ∀ node ∈ (Expression.parse mode offset text).1, P node
  directive : ∀ {directive offset text}, text.StandsAt offset source →
    ∀ node ∈ (Expression.Directive.parse directive offset text).1, P node
  leaf : ∀ span, P (leaf span)
  outer : ∀ kind span children, kind.layer ≤ 2 → (∀ child ∈ children, P child) →
    P (Node.mk kind span children)

namespace Spreads

variable {source text : Text} {P : Node → Prop} {offset : Nat} {c : Cursor}

variable (spreads : Spreads source P)
include spreads

theorem of_interpolations (stands : text.StandsAt offset source) :
    ∀ node ∈ (interpolations offset text).1, P node := by
  fun_induction interpolations offset text with
  | case1 => simp
  | case2 => simp
  | case3 offset text before inner found start expression after found' stop parsed more ih =>
    obtain ⟨held, rest⟩ := standsAt_interpolation stands found found'
    exact List.forall_mem_cons.mpr
      ⟨spreads.outer _ _ _ (Nat.le_refl 2) (spreads.expression held), ih rest⟩

theorem of_valueNodes (kind : Kind) (form : ValueForm) {value : Value}
    (stands : value.text.StandsAt value.offset source) :
    ∀ node ∈ (valueNodes kind form value).1, P node := by
  cases form with
  | binding =>
    exact List.forall_mem_singleton.mpr
      (spreads.outer _ _ _ (Nat.le_refl 2) (spreads.expression stands))
  | action =>
    exact List.forall_mem_singleton.mpr
      (spreads.outer _ _ _ (Nat.le_refl 2) (spreads.expression stands))
  | directive => exact spreads.directive stands
  | interpolated => exact spreads.of_interpolations stands
  | ignored => simp [valueNodes]

theorem of_readAttribute (reached : (Cursor.start source).Reaches c) (nonempty : c.rest ≠ []) :
    ∀ node ∈ (readAttribute c nonempty).value.toList, P node := by
  have outer : (classify (c.rest.takeWhile isNamePart)).1.layer ≤ 2 := by
    rw [(classify_layer _).1]
    exact Nat.le_succ 1
  unfold readAttribute
  dsimp only
  split
  · simp
  · split
    · obtain ⟨stands, -⟩ := standsAt_readValue (c.rest.takeWhile isNamePart)
        (reached.trans (reaches_attributeValue c))
      refine List.forall_mem_singleton.mpr (spreads.outer _ _ _ outer ?_)
      exact List.forall_mem_cons.mpr ⟨spreads.leaf _, List.forall_mem_cons.mpr
        ⟨spreads.leaf _, spreads.of_valueNodes _ _ stands⟩⟩
    · refine List.forall_mem_singleton.mpr (spreads.outer _ _ _ outer ?_)
      exact List.forall_mem_singleton.mpr (spreads.leaf _)

theorem of_readTagBody (name : Text) (start : Nat) (reached : (Cursor.start source).Reaches c) :
    ∀ node ∈ (readTagBody name start c).attributes, P node := by
  fun_induction readTagBody name start c with
  | case1 => simp
  | case2 => simp
  | case3 => simp
  | case4 c here reaches first rest _ nonempty _ _ _ more ih =>
    exact ih ((reached.trans reaches).trans (Cursor.reaches_skip 1 _))
  | case5 c here reaches first rest _ nonempty _ _ _ found more ih =>
    exact List.forall_mem_append.mpr ⟨spreads.of_readAttribute (reached.trans reaches) nonempty,
      ih ((reached.trans reaches).trans found.advances.1)⟩

theorem of_readPiece (reached : (Cursor.start source).Reaches c) (nonempty : c.rest ≠ []) :
    ∀ node ∈ (readPiece c nonempty).value.nodes, P node := by
  unfold readPiece
  split
  · obtain ⟨span, comment⟩ := exists_readComment_eq nonempty
    simp [comment, Piece.nodes]
  · obtain ⟨span, name, endTag⟩ := exists_readEndTag_eq nonempty
    simp [endTag, Piece.nodes]
  · exact spreads.of_readTagBody _ _ (reached.trans (reaches_tagBody c))
  · exact spreads.of_interpolations (reached.standsAt_take _)

theorem of_piecesFrom (reached : (Cursor.start source).Reaches c) :
    ∀ entry ∈ piecesFrom c, ∀ node ∈ entry.1.nodes, P node := by
  fun_induction piecesFrom c with
  | case1 => simp
  | case2 c h piece ih =>
    exact List.forall_mem_cons.mpr
      ⟨spreads.of_readPiece reached h, ih (reached.trans piece.advances.1)⟩

theorem of_parse (url : Text) : P (parse source url).template.root := by
  have adopts : Adopts (fun _ => True) P := by
    intro kind span children markup _ _ below
    refine spreads.outer kind span children ?_ below
    cases kind <;> simp [Kind.isMarkup] at markup <;> simp [Kind.layer]
  exact spreads.outer _ _ _ (Nat.zero_le 2) (forall_children_parse adopts source url
    (fun _ _ => ⟨trivial, trivial⟩) trivial (spreads.of_piecesFrom (.refl _)))

end Spreads

/-- Every node of a parsed template has the shape of its kind. -/
theorem shaped_parse (source url : Text) :
    Every Shaped (parse source url).template.root := by
  refine Spreads.of_parse ⟨fun _ => Expression.shaped_parse _ _ _,
    fun _ => Expression.Directive.shaped_parse _ _ _, fun _ => .intro .token (by simp), ?_⟩ url
  intro kind span children outer below
  refine .intro (.other children ?_ ?_ ?_) below
  all_goals cases kind <;> simp [Kind.layer, Kind.isReference, Kind.isCall] at outer ⊢

/-- Every node of a parsed template starts with a token or an operand, if it is part of an
expression, and no identifier is empty. -/
theorem headed_parse (source url : Text) :
    Everywhere Headed (parse source url).template.root := by
  have spreads : Spreads source fun node => node.kind.leads = true ∧ Everywhere Headed node := by
    refine ⟨fun _ => Expression.headed_parse _ _ _, fun _ => Expression.Directive.headed_parse _ _ _,
      fun span => ⟨rfl, .intro ⟨by simp [leaf], by simp [identifier?, leaf]⟩ (by simp [leaf])⟩, ?_⟩
    intro kind span children outer below
    refine ⟨?_, .intro ⟨?_, ?_⟩ fun child member => (below child member).2⟩
    · cases kind <;> simp [Kind.layer] at outer <;> rfl
    · intro first first_eq
      exact (below first (List.mem_of_mem_head? first_eq)).1
    · intro name named
      have reference : kind = .reference name := kind_of_identifier? named
      exact absurd (reference ▸ outer) (by simp [Kind.layer])
  exact (spreads.of_parse url).2

end Markup

end ComponentExtraction
