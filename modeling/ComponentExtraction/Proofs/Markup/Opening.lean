import ComponentExtraction.Proofs.Markup.Cut
import ComponentExtraction.Proofs.Markup.Reuse
import ComponentExtraction.Proofs.Markup.Substitution

/-!
# Where elements start and end

An element starts with the mark of its start tag, and the markup in it starts behind that
(`Node.Tagged`). The stack of open elements keeps this up, as every open element starts
in front of the next piece and in front of the elements open inside it (`tagged_parse`).
An end tag in which nothing is noticed ends with a mark of its own (`Reads.stop_endTag`).
-/

namespace ComponentExtraction

open Diagnostic

namespace Node

/-- An element starts with the mark of a tag, and the markup in it starts further on. -/
def Tagged (source : Text) (node : Node) : Prop :=
  ∀ name, node.kind = .element name → Text.StandsAt ['<'] node.span.start source ∧
    ∀ child ∈ node.children, child.kind.isMarkup = true → node.span.start < child.span.start

theorem Tagged.of_other {source : Text} {node : Node} (other : ∀ name, node.kind ≠ .element name) :
    node.Tagged source :=
  fun name same => absurd same (other name)

theorem Plain.tagged {source : Text} {node : Node} (plain : node.Plain) : node.Tagged source := by
  refine .of_other fun name same => ?_
  have := plain.2
  rw [same] at this
  cases this

end Node

namespace Markup

open Node

variable {source url : Text} {c d : Cursor} {n : Nesting} {here : Nat} {noticed : List Diagnostic}

def Piece.opening? : Piece → Option Opening
  | .text _ _ => none
  | .comment _ => some .comment
  | .startTag _ _ _ _ => some .startTag
  | .endTag _ _ => some .endTag

theorem Reads.opening?_eq {piece : Piece} (reads : Reads c (piece, noticed) d) :
    Markup.opening? c.rest = piece.opening? := by
  obtain ⟨nonempty, entry_eq, -⟩ := reads
  rw [(Prod.mk.inj entry_eq).1]
  unfold readPiece
  split
  · next opens =>
    obtain ⟨_, comment⟩ := exists_readComment_eq nonempty
    rw [opens, comment]
    rfl
  · next opens =>
    obtain ⟨_, _, endTag⟩ := exists_readEndTag_eq nonempty
    rw [opens, endTag]
    rfl
  · next opens => exact opens
  · next opens => exact opens

theorem mark_of_opening? {text : Text} (opens : opening? text = some .startTag) :
    ∃ rest, text = '<' :: rest := by
  unfold opening? at opens
  split at opens
  · cases opens
  · split at opens
    · cases opens
    · split at opens
      · next starts =>
        obtain ⟨rest, rfl⟩ := List.isPrefixOf_iff_prefix.mp (Bool.and_eq_true_iff.mp starts).1
        exact ⟨rest, rfl⟩
      · cases opens

theorem mark_readEndTag (nonempty : c.rest ≠ [])
    (harmless : Harmless (readEndTag c nonempty).diagnostics) :
    ∃ taken, c.rest = taken ++ '>' :: (readEndTag c nonempty).after.rest := by
  have reaches : c.Reaches _ := (Cursor.reaches_skip 1 c).trans ((Cursor.reaches_skip 1 _).trans
    ((Cursor.reaches_skipWhile isNamePart _).trans (Cursor.reaches_skipWhile Text.isSpace _)))
  obtain ⟨taken, taken_eq, -⟩ := reaches
  refine ⟨taken, ?_⟩
  unfold readEndTag at harmless ⊢
  dsimp only at harmless ⊢
  split
  · next tail rest_eq =>
    rw [rest_eq] at taken_eq
    rw [taken_eq, Cursor.rest_skip, rest_eq]
    rfl
  · next other =>
    split at harmless
    · next tail rest_eq => exact absurd rest_eq (other tail)
    · exact absurd rfl (harmless _ List.mem_cons_self)

/-- An end tag in which nothing is noticed stops behind its mark. -/
theorem Reads.stop_endTag {span : Span} {name : Text}
    (reads : Reads c (.endTag span name, noticed) d) (harmless : Harmless noticed) :
    ∃ taken, c.rest = taken ++ '>' :: d.rest := by
  have opens : opening? c.rest = some .endTag := reads.opening?_eq
  have nonempty := ne_nil_of_opening? opens
  obtain ⟨entry_eq, rfl⟩ := reads.unique (Reads.of_opening? opens nonempty)
  cases (Prod.mk.inj entry_eq).2
  exact mark_readEndTag nonempty harmless

theorem Through.exists_reads {found : List (Piece × List Diagnostic)}
    {entry : Piece × List Diagnostic} (through : Through c found d) (listed : entry ∈ found) :
    ∃ e f, c.Reaches e ∧ Reads e entry f := by
  induction through with
  | refl => exact absurd listed List.not_mem_nil
  | @step c d e first more reads through ih =>
    rcases List.mem_cons.mp listed with rfl | later
    · exact ⟨c, d, .refl c, reads⟩
    · obtain ⟨e, f, reaches, reads'⟩ := ih later
      exact ⟨e, f, reads.advances.1.trans reaches, reads'⟩

/-- The end tags of a source, each with the name that is written in it. -/
def endTags (source : Text) : List (Span × Text) :=
  (pieces source).filterMap fun
    | (.endTag place name, _) => some (place, name)
    | _ => none

theorem mem_endTags_iff {span : Span} {name : Text} : (span, name) ∈ endTags source ↔
    ∃ noticed, (Piece.endTag span name, noticed) ∈ pieces source := by
  rw [endTags, List.mem_filterMap]
  constructor
  · rintro ⟨⟨piece, noticed⟩, listed, entry_eq⟩
    cases piece with
    | endTag span' name' =>
      cases entry_eq
      exact ⟨noticed, listed⟩
    | _ => cases entry_eq
  · rintro ⟨noticed, listed⟩
    exact ⟨_, listed, rfl⟩

/-- In a source without errors the mark of an end tag is the last character in front of
the end of the tag. -/
theorem mark_of_endTag {span : Span} {name : Text} (clean : (parse source url).hasErrors = false)
    (listed : (span, name) ∈ endTags source) :
    span.start < span.stop ∧
      ∃ front back : Text, source = front ++ '>' :: back ∧ span.stop = front.byteLength + 1 := by
  obtain ⟨noticed, listed⟩ := mem_endTags_iff.mp listed
  have harmless := (harmless_append.mp (hasErrors_eq_false_iff.mp clean)).1
  have harmless : Harmless noticed := Nesting.harmless_of_run harmless _ listed
  obtain ⟨_, through, -⟩ := exists_through (Cursor.start source)
  obtain ⟨c, d, reached, reads⟩ := through.exists_reads listed
  obtain ⟨taken, rest_eq⟩ := reads.stop_endTag harmless
  have span_eq : span = ⟨c.offset, d.offset⟩ := reads.span_eq reached
  have behind := reached.trans reads.advances.1
  rw [span_eq]
  refine ⟨reads.advances.offset_lt, ?_⟩
  obtain ⟨before, source_eq, -⟩ := reached
  obtain ⟨front, source_eq', offset_eq⟩ := behind
  have offset_eq : d.offset = front.byteLength := offset_eq.trans (Nat.zero_add _)
  -- What was read up to the cursor ends with the mark.
  have front_eq : front = before ++ taken ++ ['>'] := by
    apply (List.append_left_inj d.rest).mp
    rw [← source_eq', source_eq, rest_eq]
    simp
  refine ⟨before ++ taken, d.rest, ?_, ?_⟩
  · rw [show source = front ++ d.rest from source_eq', front_eq, List.append_assoc]
    rfl
  · rw [offset_eq, front_eq, Text.byteLength_append]
    rfl

namespace Nesting

/-- Every open element starts with the mark of a tag in front of what is met in it, and the
complete nodes are tagged. -/
def Tagged (source : Text) (outside : List Node) : List OpenElement → Nat → Prop
  | [], _ => ∀ node ∈ outside, Everywhere (Node.Tagged source) node
  | element :: stack, here => element.start < here ∧ Text.StandsAt ['<'] element.start source ∧
      (∀ child ∈ element.children, Everywhere (Node.Tagged source) child ∧
        (child.kind.isMarkup = true → element.start < child.span.start)) ∧
      Tagged source outside stack element.start

namespace Tagged

theorem mono {outside : List Node} {stack : List OpenElement} {later : Nat}
    (h : Tagged source outside stack here) (before : here ≤ later) :
    Tagged source outside stack later := by
  cases stack with
  | nil => exact h
  | cons element stack => exact ⟨Nat.lt_of_lt_of_le h.1 before, h.2⟩

theorem add {node : Node} (h : Tagged source n.outside n.stack here)
    (tagged : Everywhere (Node.Tagged source) node) (behind : here ≤ node.span.start) :
    Tagged source (n.add node).outside (n.add node).stack here := by
  obtain ⟨outside, stack⟩ := n
  cases stack with
  | nil => exact List.forall_mem_cons.mpr ⟨tagged, h⟩
  | cons element stack =>
    obtain ⟨ahead, mark, inside, around⟩ := h
    refine ⟨ahead, mark, List.forall_mem_cons.mpr ⟨⟨tagged, fun _ => ?_⟩, inside⟩, around⟩
    exact Nat.lt_of_lt_of_le ahead behind

theorem close (h : Tagged source n.outside n.stack here) (stop : Nat) :
    Tagged source (n.close stop).outside (n.close stop).stack here := by
  obtain ⟨outside, stack⟩ := n
  cases stack with
  | nil => exact h
  | cons element stack =>
    obtain ⟨ahead, mark, inside, around⟩ := h
    have around' : Tagged source (Nesting.mk outside stack).outside
        (Nesting.mk outside stack).stack element.start := around
    refine (around'.add (.intro ?_ ?_) (Nat.le_refl _)).mono (Nat.le_of_lt ahead)
    · intro _ _
      refine ⟨mark, fun child member => ?_⟩
      exact (inside child (List.mem_reverse.mp member)).2
    · intro child member
      exact (inside child (List.mem_reverse.mp member)).1

theorem closeMany (h : Tagged source n.outside n.stack here) (stop count : Nat) :
    Tagged source (n.closeMany stop count).outside (n.closeMany stop count).stack here := by
  induction count generalizing n with
  | zero => exact h
  | succ count ih => exact ih (h.close stop)

theorem step {piece : Piece} (h : Tagged source n.outside n.stack piece.span.start)
    (ahead : piece.span.start < piece.span.stop) (holds : piece.Holds source)
    (mark : piece.opening? = some .startTag → Text.StandsAt ['<'] piece.span.start source) :
    Tagged source (n.step piece).1.outside (n.step piece).1.stack piece.span.stop := by
  have plain := plain_nodes holds
  have inner : ∀ node ∈ piece.nodes, Everywhere (Node.Tagged source) node := fun node member =>
    (plain node member).mono fun _ plain => plain.tagged
  cases piece with
  | text span interpolations =>
    have tagged : Everywhere (Node.Tagged source) (Node.mk .text span interpolations) :=
      .intro (.of_other fun _ => Kind.noConfusion) inner
    exact (h.add tagged (Nat.le_refl _)).mono (Nat.le_of_lt ahead)
  | comment span =>
    exact (h.add (.intro (.of_other fun _ => Kind.noConfusion) (by simp)) (Nat.le_refl _)).mono
      (Nat.le_of_lt ahead)
  | startTag span name attributes selfClosing =>
    have unmarked : ∀ child ∈ attributes, child.kind.isMarkup = true →
        span.start < child.span.start := fun child member markup =>
      absurd (markup.symm.trans (plain child member).here.2) (by simp)
    rw [Nesting.step, startTag]
    dsimp only
    generalize around_eq : (if isClosedBySibling name && n.isInnermost name
      then n.close span.start else n) = m
    have around : Tagged source m.outside m.stack span.start := by
      rw [← around_eq]
      split
      · exact h.close _
      · exact h
    split
    · have tagged : Everywhere (Node.Tagged source) (Node.mk (.element name) span attributes) :=
        .intro (fun _ _ => ⟨mark rfl, unmarked⟩) inner
      exact (around.add tagged (Nat.le_refl _)).mono (Nat.le_of_lt ahead)
    · refine ⟨ahead, mark rfl, fun child member => ?_, around⟩
      have member := List.mem_reverse.mp member
      exact ⟨inner child member, unmarked child member⟩
  | endTag span name =>
    refine mono ?_ (Nat.le_of_lt ahead)
    rw [Nesting.step, endTag]
    split
    · exact (h.closeMany _ _).close _
    · exact h

theorem run {found : List (Piece × List Diagnostic)} (through : Through c found d)
    (reached : (Cursor.start source).Reaches c)
    (h : Tagged source n.outside n.stack c.offset) :
    Tagged source (n.run found).1.outside (n.run found).1.stack d.offset := by
  induction through generalizing n with
  | refl => exact h
  | @step c d e entry more reads through ih =>
    obtain ⟨piece, noticed⟩ := entry
    have span_eq := reads.span_eq reached
    have covers : piece.Holds source := by
      obtain ⟨nonempty, entry_eq, -⟩ := reads
      cases (Prod.mk.inj entry_eq).1
      exact (covers_readPiece reached nonempty).holds
    have mark : piece.opening? = some .startTag → Text.StandsAt ['<'] c.offset source := by
      intro opens
      obtain ⟨rest, rest_eq⟩ := mark_of_opening? (reads.opening?_eq.trans opens)
      have stands := reached.standsAt
      rw [rest_eq] at stands
      exact stands.front
    have here : Tagged source n.outside n.stack piece.span.start := by rwa [span_eq]
    have ahead : piece.span.start < piece.span.stop := by
      rw [span_eq]
      exact reads.advances.offset_lt
    have next := here.step ahead covers (by rwa [span_eq])
    rw [span_eq] at next
    exact ih (reached.trans reads.advances.1) next

end Tagged

end Nesting

theorem tagged_parse (source url : Text) :
    Everywhere (Node.Tagged source) (parse source url).template.root := by
  obtain ⟨d, through, -⟩ := exists_through (Cursor.start source)
  have started : Nesting.Tagged source Nesting.empty.outside Nesting.empty.stack 0 := by
    simp [Nesting.empty, Nesting.Tagged]
  let all := (Nesting.empty.run (pieces source)).1
  have tagged := (started.run through (.refl _)).closeMany source.byteLength all.stack.length
  have none_open := Nesting.length_stack_closeMany source.byteLength all.stack.length all
  rw [Nat.sub_self, List.length_eq_zero_iff] at none_open
  rw [show (Nesting.empty.run (piecesFrom (Cursor.start source))).1 = all from rfl, none_open]
    at tagged
  refine .intro (.of_other fun _ => Kind.noConfusion) fun child member => ?_
  exact tagged child (List.mem_reverse.mp member)

end Markup

end ComponentExtraction
