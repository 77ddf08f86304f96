import ComponentExtraction.Proofs.Markup.Nesting
import ComponentExtraction.Proofs.Markup.Outline
import ComponentExtraction.Proofs.Markup.Reading
import ComponentExtraction.Proofs.Markup.Shape
import ComponentExtraction.Proofs.Fragment.Selection

/-!
# Where a source can be cut

A source can be cut between two pieces. All markup of a template starts and stops at
such places (`cut_of_parse`), so the pieces of a source are those in front of some
siblings, those of the siblings and those behind them.
-/

namespace ComponentExtraction

namespace Node

def Plain (node : Node) : Prop :=
  0 < node.kind.layer ∧ node.kind.isMarkup = false

/-- Nothing inside a node that is neither markup nor the root is markup. -/
theorem Everywhere.plain {source : Text} {node : Node} (h : Everywhere (Regular source) node)
    (inner : 0 < node.kind.layer) (plain : node.kind.isMarkup = false) :
    Everywhere Plain node := by
  induction h with
  | @intro node regular _ ih =>
    refine .intro ⟨inner, plain⟩ fun child member => ?_
    have deeper : 1 < child.kind.layer := by
      rcases regular.admits child member with outermost | deeper <;> omega
    refine ih child member (by omega) ?_
    by_contra markup
    exact Nat.not_lt.mpr (Kind.layer_le_of_isMarkup (Bool.not_eq_false _ ▸ markup)) deeper

end Node

namespace Markup

open Node

variable {source : Text} {c d : Cursor}

def Cut (source : Text) (position : Nat) : Prop :=
  ∃ found d, Through (Cursor.start source) found d ∧ d.offset = position

theorem Reads.span_eq {entry : Piece × List Diagnostic} (reads : Reads c entry d)
    (reached : (Cursor.start source).Reaches c) : entry.1.span = ⟨c.offset, d.offset⟩ := by
  obtain ⟨nonempty, rfl, rfl⟩ := reads
  exact (covers_readPiece reached nonempty).span

theorem Through.span_mem {found : List (Piece × List Diagnostic)} (through : Through c found d)
    (reached : (Cursor.start source).Reaches c) : ∀ entry ∈ found,
      c.offset ≤ entry.1.span.start ∧ entry.1.span.start < d.offset := by
  induction through with
  | refl => simp
  | @step c d e entry more reads through ih =>
    have first := reads.span_eq reached
    have forward := reads.advances.offset_lt
    have behind := through.reaches.offset_le
    refine List.forall_mem_cons.mpr ⟨?_, ?_⟩
    · rw [first]
      exact ⟨Nat.le_refl _, by dsimp only; omega⟩
    · intro other member
      have := ih (reached.trans reads.advances.1) other member
      omega

theorem cut_of_through {before found : List (Piece × List Diagnostic)}
    (reached : Through (Cursor.start source) before c) (through : Through c found d) :
    ∀ entry ∈ found, Cut source entry.1.span.start ∧ Cut source entry.1.span.stop := by
  induction through generalizing before with
  | refl => simp
  | @step c d e entry more reads through ih =>
    have reached' := reached.trans (.step reads (.refl d))
    refine List.forall_mem_cons.mpr ⟨?_, ih reached'⟩
    rw [reads.span_eq reached.reaches]
    exact ⟨⟨_, c, reached, rfl⟩, ⟨_, d, reached', rfl⟩⟩

theorem plain_nodes {piece : Piece} (holds : piece.Holds source) :
    ∀ node ∈ piece.nodes, Everywhere Plain node := by
  cases piece with
  | text span interpolations =>
    intro node member
    have regular : Everywhere (Regular source) (Node.mk .text span interpolations) := holds
    have deeper : 1 < node.kind.layer := by
      rcases regular.here.admits node member with outermost | deeper
      · exact absurd outermost (by simp [Kind.layer])
      · exact deeper
    refine (regular.of_mem_children node member).plain (by omega) ?_
    by_contra markup
    exact Nat.not_lt.mpr (Kind.layer_le_of_isMarkup (Bool.not_eq_false _ ▸ markup)) deeper
  | comment span => simp [Piece.nodes]
  | startTag span name attributes selfClosing =>
    obtain ⟨attributes, -⟩ := holds
    intro node member
    exact (attributes.placed.regular node member).plain (attributes.placed.layers node member)
      (attributes.plain node member)
  | endTag span name => simp [Piece.nodes]

/-- Markup starts and stops where the source can be cut. -/
theorem cut_of_parse (source url : Text) {o : Occurrence}
    (held : (parse source url).template.Contains o) (markup : o.kind.isMarkup = true) :
    Cut source o.span.start ∧ Cut source o.span.stop := by
  let P : Node → Prop := Everywhere fun node =>
    node.kind.isMarkup = true → Cut source node.span.start ∧ Cut source node.span.stop
  have adopts : Adopts (Cut source) P :=
    fun kind span children _ begins ends below => .intro (fun _ => ⟨begins, ends⟩) below
  obtain ⟨d, through, done⟩ := exists_through (Cursor.start source)
  have finished : Cut source source.byteLength :=
    ⟨_, d, through, through.reaches.offset_eq_of_rest done⟩
  have children := forall_children_parse adopts source url
    (cut_of_through (.refl _) through) finished fun entry listed node member =>
      (plain_nodes ((follow_pieces source).holds entry listed) node member).mono
        fun node plain markup => absurd (plain.2.symm.trans markup) (by simp)
  have root : P (parse source url).template.root :=
    .intro (fun markup => absurd markup (by simp [parse, Kind.isMarkup])) children
  exact (root.of_contains held).here markup

theorem markup_of_layer_parse (source url : Text) {o : Occurrence}
    (held : (parse source url).template.Contains o) (outer : o.kind.layer = 0) :
    o.kind.isMarkup = true ∨ o.address = [] := by
  have adopts : Adopts (fun _ => True)
      (Everywhere fun node => node.kind.layer = 0 → node.kind.isMarkup = true) :=
    fun kind span children markup _ _ below => .intro (fun _ => markup) below
  have children := forall_children_parse adopts source url (fun _ _ => ⟨trivial, trivial⟩) trivial
    fun entry listed node member =>
      (plain_nodes ((follow_pieces source).holds entry listed) node member).mono
        fun node plain outer => absurd outer (Nat.ne_of_gt plain.1)
  cases address_eq : o.address with
  | nil => exact .inr rfl
  | cons position parent =>
    have below : o.Below (parse source url).template.top :=
      ⟨position, parent, address_eq.trans (List.append_nil _).symm⟩
    have held' := (parse source url).template.contains_top
    exact .inl ((Everywhere.of_below children held held' below).here outer)

end Markup

end ComponentExtraction
