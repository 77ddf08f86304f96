import ComponentExtraction.Proofs.Expression.Relocation
import ComponentExtraction.Proofs.Fragment.Scan
import ComponentExtraction.Proofs.Markup.Placement
import ComponentExtraction.Proofs.Markup.Shape

/-!
# Expressions that can be used again

In a template without errors, references have words for names, and the text of a
reference, of a call or of a handler holds no error wherever it is put
(`Node.Reusable`). What the parser of expressions finds is carried through values,
attributes, tags and pieces to the tree of the template.
-/

namespace ComponentExtraction

open Diagnostic

def Text.IsWord (text : Text) : Prop :=
  text ≠ [] ∧ ∀ c ∈ text, isIdentifierPart c = true

theorem Text.IsIdentifier.isWord {text : Text} (h : text.IsIdentifier) : text.IsWord := by
  obtain ⟨first, more, rfl, starts, run⟩ := h
  refine ⟨List.cons_ne_nil first more, List.forall_mem_cons.mpr ⟨?_, run⟩⟩
  rw [isIdentifierPart, starts, Bool.true_or]

namespace Node

/-- The text of a node holds no error wherever it is put. -/
def ReadsBack (source : Text) (mode : Expression.Mode) (node : Node) : Prop :=
  ∃ text, node.span.textIn? source = some text ∧
    ∀ offset, Harmless (Expression.parse mode offset text).2

/-- What a node holds can be used elsewhere: references have words for names, the
references and calls below the owner of a binding can be passed to a property, and
a handler can be given to an event. -/
structure Reusable (source : Text) (node : Node) : Prop where
  named : ∀ name, node.kind.referenceName? = some name → name.IsWord
  bound : Fragment.isOwnerKind node.kind = true → ∀ child ∈ node.children,
    Everywhere (fun below => below.kind.isReference = true ∨ below.kind.isCall = true →
      below.ReadsBack source .binding) child
  handled : ∀ name, node.kind = .event name → ∀ child ∈ node.children, child.kind = .action →
    child.ReadsBack source .action

variable {source : Text} {kind : Kind} {span : Span} {children : List Node}

/-- A node that is no reference, binds nothing and handles nothing only passes on
what it holds. -/
theorem reusable_mk (nameless : kind.referenceName? = none)
    (unbound : Fragment.isOwnerKind kind = false) (unhandled : ∀ name, kind ≠ .event name)
    (below : ∀ child ∈ children, Everywhere (Reusable source) child) :
    Everywhere (Reusable source) (Node.mk kind span children) := by
  refine .intro ⟨fun name named => ?_, fun owner => ?_, fun name event => ?_⟩ below
  · exact absurd (nameless.symm.trans named) (by simp)
  · exact absurd (unbound.symm.trans owner) (by simp)
  · exact absurd event (unhandled name)

end Node

namespace Expression

open Node

variable {source text : Text} {mode : Mode} {offset : Nat} {node : Node}

theorem readsBack_of_standing (stands : text.StandsAt offset source)
    (standing : Standing mode (tokensAt offset text) node)
    (chain : node.kind.isReference = true ∨ node.kind.isCall = true) :
    node.ReadsBack source mode := by
  obtain ⟨excerpt, within, covers, alone⟩ := standing.alone chain
  exact harmless_parse_of_readsAlone stands within covers alone

/-- What stands in an expression can be used again. Owners of bindings are found
among expressions of directives only, and events not at all. -/
theorem reusable_of_standing (stands : text.StandsAt offset source)
    (standing : Everywhere (Standing mode (tokensAt offset text)) node)
    (regular : Everywhere (Regular source) node) (inner : 2 ≤ node.kind.layer)
    (outer : mode = .binding ∨ node.kind.layer = 3) : Everywhere (Reusable source) node := by
  induction standing with
  | @intro node here below ih =>
    refine .intro ⟨?_, ?_, ?_⟩ ?_
    · intro name named
      obtain ⟨token, member, token_named⟩ := here.named name named
      exact (named_tokensAt _ _ token member name token_named).isWord
    · intro owner child member
      have layer_eq : node.kind.layer = 2 := by
        cases kind_eq : node.kind <;> simp [kind_eq, Fragment.isOwnerKind] at owner <;> rfl
      obtain rfl : mode = .binding := by
        rcases outer with binding | expression
        · exact binding
        · omega
      exact (below child member).mono fun node standing =>
        readsBack_of_standing stands standing
    · intro name event
      rw [event] at inner
      exact absurd inner (by simp [Kind.layer])
    · intro child member
      have admits := regular.here.admits child member
      have layer_le := child.kind.layer_le
      have deeper : child.kind.layer = 3 := by
        rcases admits with outermost | deeper <;> omega
      exact ih child member (regular.of_mem_children child member) (by omega) (.inr deeper)

theorem reusable_parse (stands : text.StandsAt offset source)
    (harmless : Harmless (parse mode offset text).2) :
    ∀ node ∈ (parse mode offset text).1, Everywhere (Reusable source) node := by
  intro node member
  obtain ⟨⟨placed, -⟩, -⟩ := found_parse mode stands
  have layer := placed.layers node member
  have layer_le := node.kind.layer_le
  exact reusable_of_standing stands (standing_parse stands harmless node member)
    (placed.regular node member) (by omega) (.inr (by omega))

theorem reusable_owner {kind : Kind} {span : Span} (stands : text.StandsAt offset source)
    (harmless : Harmless (parse .binding offset text).2) (owner : Fragment.isOwnerKind kind = true) :
    Everywhere (Reusable source) (Node.mk kind span (parse .binding offset text).1) := by
  refine .intro ⟨?_, ?_, ?_⟩ (reusable_parse stands harmless)
  · intro name named
    cases kind <;> simp [Fragment.isOwnerKind, Kind.referenceName?] at owner named
  · intro _ child member
    exact (standing_parse stands harmless child member).mono fun node standing =>
      readsBack_of_standing stands standing
  · rintro name rfl
    simp [Fragment.isOwnerKind] at owner

theorem Directive.reusable_parse (stands : text.StandsAt offset source) {directive : Text}
    (harmless : Harmless (parse directive offset text).2) :
    ∀ node ∈ (parse directive offset text).1, Everywhere (Reusable source) node := by
  intro node member
  obtain ⟨placed, -⟩ := found_parse directive stands
  exact reusable_of_standing stands (standing_parse stands directive harmless node member)
    (placed.regular node member) (placed.layers node member) (.inl rfl)

end Expression

namespace Markup

open Node

variable {source text name : Text} {offset : Nat} {c : Cursor}

theorem reusable_interpolations (stands : text.StandsAt offset source)
    (harmless : Harmless (interpolations offset text).2) :
    ∀ node ∈ (interpolations offset text).1, Everywhere (Reusable source) node := by
  fun_induction interpolations offset text with
  | case1 => simp
  | case2 => simp
  | case3 offset text before inner found start expression after found' stop parsed more ih =>
    obtain ⟨held, rest⟩ := standsAt_interpolation stands found found'
    obtain ⟨harmless₁, harmless₂⟩ := harmless_append.mp harmless
    intro node member
    rcases List.mem_cons.mp member with rfl | later
    · exact Expression.reusable_owner held harmless₁ rfl
    · exact ih rest harmless₂ node later

theorem form_of_event {event : Text} :
    (classify name).1 = .event event → (classify name).2 = .action := by
  unfold classify
  repeat' split
  all_goals simp

theorem reusable_valueNodes (kind : Kind) (form : ValueForm) {value : Value}
    (stands : value.text.StandsAt value.offset source)
    (harmless : Harmless (valueNodes kind form value).2) :
    (∀ node ∈ (valueNodes kind form value).1, Everywhere (Reusable source) node) ∧
      (form = .action → ∀ node ∈ (valueNodes kind form value).1, node.ReadsBack source .action) := by
  cases form with
  | binding =>
    refine ⟨?_, fun action => absurd action (by simp)⟩
    exact List.forall_mem_singleton.mpr (Expression.reusable_owner stands harmless rfl)
  | action =>
    have harmless : Harmless (Expression.parse .action value.offset value.text).2 := harmless
    refine ⟨List.forall_mem_singleton.mpr ?_, fun _ => List.forall_mem_singleton.mpr ?_⟩
    · exact reusable_mk rfl rfl (by simp) (Expression.reusable_parse stands harmless)
    · obtain ⟨before, after, source_eq, offset_eq⟩ := stands
      refine ⟨value.text, Text.slice?_eq_some_iff.mpr ⟨before, after, source_eq, offset_eq, ?_⟩,
        Expression.harmless_parse_of_offset harmless⟩
      rw [Node.span_mk, offset_eq]
  | directive =>
    exact ⟨Expression.Directive.reusable_parse stands harmless,
      fun action => absurd action (by simp)⟩
  | interpolated =>
    exact ⟨reusable_interpolations stands harmless, fun action => absurd action (by simp)⟩
  | ignored => exact ⟨by simp [valueNodes], fun action => absurd action (by simp)⟩

/-- Attributes are no references, and what they bind is held by nodes below. -/
theorem classify_plain (name : Text) : (classify name).1.referenceName? = none ∧
    Fragment.isOwnerKind (classify name).1 = false := by
  unfold classify
  repeat' split
  all_goals exact ⟨rfl, rfl⟩

@[simp] theorem reusable_leaf (span : Span) : Everywhere (Reusable source) (leaf span) :=
  reusable_mk rfl rfl (by simp) (by simp)

theorem reusable_readAttribute (reached : (Cursor.start source).Reaches c)
    (nonempty : c.rest ≠ []) (harmless : Harmless (readAttribute c nonempty).diagnostics) :
    ∀ node ∈ (readAttribute c nonempty).value.toList, Everywhere (Reusable source) node := by
  obtain ⟨nameless, unbound⟩ := classify_plain (c.rest.takeWhile isNamePart)
  revert harmless
  unfold readAttribute
  dsimp only
  split
  · simp
  · split
    · intro harmless
      obtain ⟨-, harmless⟩ := harmless_append.mp harmless
      obtain ⟨stands, -⟩ := standsAt_readValue (c.rest.takeWhile isNamePart)
        (reached.trans (reaches_attributeValue c))
      obtain ⟨reusable, handled⟩ := reusable_valueNodes _ _ stands harmless
      refine List.forall_mem_singleton.mpr (.intro ⟨?_, ?_, ?_⟩ ?_)
      · intro name named
        exact absurd (nameless.symm.trans named) (by simp)
      · intro owner
        exact absurd (unbound.symm.trans owner) (by simp)
      · intro name event child member action
        rcases List.mem_cons.mp member with rfl | member
        · exact absurd action (by simp [leaf])
        rcases List.mem_cons.mp member with rfl | member
        · exact absurd action (by simp [leaf])
        · exact handled (form_of_event event) child member
      · exact List.forall_mem_cons.mpr ⟨reusable_leaf _, List.forall_mem_cons.mpr
          ⟨reusable_leaf _, reusable⟩⟩
    · intro _
      refine List.forall_mem_singleton.mpr (.intro ⟨?_, ?_, ?_⟩ (by simp))
      · intro name named
        exact absurd (nameless.symm.trans named) (by simp)
      · intro owner
        exact absurd (unbound.symm.trans owner) (by simp)
      · intro name event child member action
        cases List.mem_singleton.mp member
        exact absurd action (by simp [leaf])

theorem reusable_readTagBody (start : Nat) (reached : (Cursor.start source).Reaches c)
    (harmless : Harmless (readTagBody name start c).diagnostics) :
    ∀ node ∈ (readTagBody name start c).attributes, Everywhere (Reusable source) node := by
  fun_induction readTagBody name start c with
  | case1 => simp
  | case2 => simp
  | case3 => simp
  | case4 c here reaches first rest _ nonempty _ _ _ more ih =>
    exact ih ((reached.trans reaches).trans (Cursor.reaches_skip 1 _))
      (harmless_cons.mp harmless).2
  | case5 c here reaches first rest _ nonempty _ _ _ found more ih =>
    obtain ⟨harmless₁, harmless₂⟩ := harmless_append.mp harmless
    refine List.forall_mem_append.mpr ⟨?_, ?_⟩
    · exact reusable_readAttribute (reached.trans reaches) nonempty harmless₁
    · exact ih ((reached.trans reaches).trans found.advances.1) harmless₂

theorem reusable_readPiece (reached : (Cursor.start source).Reaches c) (nonempty : c.rest ≠ [])
    (harmless : Harmless (readPiece c nonempty).diagnostics) :
    ∀ node ∈ (readPiece c nonempty).value.nodes, Everywhere (Reusable source) node := by
  revert harmless
  unfold readPiece
  split
  · obtain ⟨span, comment⟩ := exists_readComment_eq nonempty
    simp [comment, Piece.nodes]
  · obtain ⟨span, name, endTag⟩ := exists_readEndTag_eq nonempty
    simp [endTag, Piece.nodes]
  · exact reusable_readTagBody _ (reached.trans (reaches_tagBody c))
  · exact reusable_interpolations (reached.standsAt_take _)

theorem reusable_piecesFrom (reached : (Cursor.start source).Reaches c)
    (harmless : ∀ entry ∈ piecesFrom c, Harmless entry.2) :
    ∀ entry ∈ piecesFrom c, ∀ node ∈ entry.1.nodes, Everywhere (Reusable source) node := by
  fun_induction piecesFrom c with
  | case1 => simp
  | case2 c h piece ih =>
    obtain ⟨first, later⟩ := List.forall_mem_cons.mp harmless
    exact List.forall_mem_cons.mpr ⟨reusable_readPiece reached h first,
      ih (reached.trans piece.advances.1) later⟩

theorem Nesting.harmless_of_run {n : Nesting} {pieces : List (Piece × List Diagnostic)}
    (harmless : Harmless (n.run pieces).2) : ∀ entry ∈ pieces, Harmless entry.2 := by
  induction pieces generalizing n with
  | nil => simp
  | cons entry pieces ih =>
    obtain ⟨piece, found⟩ := entry
    obtain ⟨harmless, later⟩ := harmless_append.mp harmless
    exact List.forall_mem_cons.mpr ⟨(harmless_append.mp harmless).1, ih later⟩

theorem hasErrors_eq_false_iff {parsed : ParsedTemplate} :
    parsed.hasErrors = false ↔ Harmless parsed.diagnostics := by
  simp [ParsedTemplate.hasErrors, Harmless]

/-- What a template without errors holds can be used again. -/
theorem reusable_parse (source url : Text) (clean : (parse source url).hasErrors = false) :
    Everywhere (Reusable source) (parse source url).template.root := by
  have adopts : Adopts (fun _ => True) (Everywhere (Reusable source)) := by
    intro kind span children markup _ _ below
    cases kind <;> simp [Kind.isMarkup] at markup <;> exact reusable_mk rfl rfl (by simp) below
  have harmless := (harmless_append.mp (hasErrors_eq_false_iff.mp clean)).1
  refine .intro ⟨fun _ named => absurd named (by simp [parse, Kind.referenceName?]),
    fun owner => absurd owner (by simp [parse, Fragment.isOwnerKind]),
    fun _ event => absurd event (by simp [parse])⟩ ?_
  exact forall_children_parse adopts source url (fun _ _ => ⟨trivial, trivial⟩) trivial
    (reusable_piecesFrom (.refl _) (Nesting.harmless_of_run harmless))

end Markup

end ComponentExtraction
