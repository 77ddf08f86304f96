import ComponentExtraction.Markup.Piece
import ComponentExtraction.Proofs.Expression.Entries

/-!
# Pieces of markup lie in their source

Reading a piece starts where the one before ends and moves on by at least one
character, so the pieces of a source follow each other without a gap up to its
end (`follow_pieces`). What a piece brings along, the interpolations of a text
or the attributes of a tag, lies inside it. An attribute ends before its tag
does, except where the source ends inside the tag.
-/

namespace ComponentExtraction

namespace Cursor

variable {source : Text} {c d : Cursor}

theorem Reaches.standsAt_take (reached : (start source).Reaches c) (n : Nat) :
    Text.StandsAt (c.rest.take n) c.offset source := by
  have stands := reached.standsAt
  rw [← List.take_append_drop n c.rest] at stands
  exact stands.front

theorem offset_skip_le {n m : Nat} (c : Cursor) (fewer : n ≤ m) :
    (c.skip n).offset ≤ (c.skip m).offset := by
  have taken := List.take_append_drop n (c.rest.take m)
  rw [List.take_take, Nat.min_eq_left fewer] at taken
  simp only [skip]
  rw [← taken, Text.byteLength_append]
  omega

theorem Reaches.offset_eq_of_rest (reached : (start source).Reaches c) (done : c.rest = []) :
    c.offset = source.byteLength := by
  have reading := reached.offset_add
  rwa [done, Text.byteLength_nil, Nat.add_zero] at reading

end Cursor

namespace Markup

open Node
open Expression (Found)

variable {source text name : Text} {offset : Nat} {c : Cursor}

/-- Where the first interpolation of a text stands, its expression and what comes
behind it. -/
theorem standsAt_interpolation {before inner expression after : Text}
    (stands : text.StandsAt offset source)
    (opened : Text.splitOnce? interpolationStart text = some (before, inner))
    (closed : Text.splitOnce? interpolationEnd inner = some (expression, after)) :
    expression.StandsAt (offset + before.byteLength + 2) source ∧
      after.StandsAt (offset + before.byteLength + 2 + expression.byteLength + 2) source := by
  have text_eq : text = before ++ interpolationStart ++ inner :=
    Text.eq_append_of_splitOnce? opened
  have inner_eq : inner = expression ++ interpolationEnd ++ after :=
    Text.eq_append_of_splitOnce? closed
  have behind : inner.StandsAt (offset + before.byteLength + 2) source :=
    stands.within (a := before ++ interpolationStart) (c := []) (by rw [text_eq, List.append_nil])
      (by rw [Text.byteLength_append]; rfl)
  constructor
  · exact behind.within (a := []) (by rw [inner_eq, List.nil_append, List.append_assoc]) rfl
  · exact behind.within (a := expression ++ interpolationEnd) (c := [])
      (by rw [inner_eq, List.append_nil]) (by rw [Text.byteLength_append, ← Nat.add_assoc]; rfl)

theorem found_interpolations (stands : text.StandsAt offset source) :
    Found source 2 offset (offset + text.byteLength) (interpolations offset text) := by
  fun_induction interpolations offset text with
  | case1 offset text => exact ⟨.nil (Nat.le_add_right _ _), by simp⟩
  | case2 offset text before inner found start _ =>
    have text_eq : text = before ++ interpolationStart ++ inner :=
      Text.eq_append_of_splitOnce? found
    refine ⟨.nil (Nat.le_add_right _ _), ?_⟩
    intro d member
    cases List.mem_singleton.mp member
    exact (stands.within text_eq rfl).start
  | case3 offset text before inner found start expression after found' stop parsed more ih =>
    have text_eq : text = before ++ interpolationStart ++ inner :=
      Text.eq_append_of_splitOnce? found
    have inner_eq : inner = expression ++ interpolationEnd ++ after :=
      Text.eq_append_of_splitOnce? found'
    have opened : interpolationStart.StandsAt start source := stands.within text_eq rfl
    obtain ⟨held, rest⟩ := standsAt_interpolation stands found found'
    have length_eq : stop + after.byteLength = offset + text.byteLength := by
      have marks : interpolationStart.byteLength = 2 ∧ interpolationEnd.byteLength = 2 :=
        ⟨rfl, rfl⟩
      simp only [text_eq, inner_eq, Text.byteLength_append, marks, stop, start]
      omega
    obtain ⟨⟨placed, noticed⟩, short⟩ := Expression.found_parse .binding held
    obtain ⟨more_placed, more_noticed⟩ := ih rest
    have inside : Placed source 3 start parsed.1 stop :=
      placed.mono (Nat.le_add_right _ _) (Nat.le_add_right _ _)
    have regular : Everywhere (Regular source) (Node.mk .interpolation ⟨start, stop⟩ parsed.1) :=
      inside.regular_mk opened.start rest.start (.inr (Nat.le_refl 3)) (leads_of_length short)
    refine ⟨Placed.cons (.single regular (Nat.le_refl 2) (Nat.le_add_right _ _) (Nat.le_refl _))
      (length_eq ▸ more_placed), ?_⟩
    intro d member
    rcases List.mem_append.mp member with member | member
    · exact noticed d member
    · exact more_noticed d member

theorem solid_interpolations (offset : Nat) (text : Text) :
    ∀ node ∈ (interpolations offset text).1, node.Solid := by
  fun_induction interpolations offset text with
  | case1 => simp
  | case2 => simp
  | case3 offset text before inner _ start expression after _ stop parsed more ih =>
    intro node member
    rcases List.mem_cons.mp member with rfl | later
    · change start < start + 2 + expression.byteLength + 2
      omega
    · exact ih node later

/-- Attributes belong to elements, and no attribute can be selected. -/
theorem classify_layer (name : Text) :
    (classify name).1.layer = 1 ∧ (classify name).1.isMarkup = false := by
  unfold classify
  repeat' split
  all_goals exact ⟨rfl, rfl⟩

theorem found_valueNodes (kind : Kind) (form : ValueForm) {value : Value}
    (stands : value.text.StandsAt value.offset source) :
    Found source 2 value.offset (value.offset + value.text.byteLength)
      (valueNodes kind form value) := by
  have expression : ∀ (mode : Expression.Mode) {kind : Kind}, kind.layer = 2 →
      Found source 2 value.offset (value.offset + value.text.byteLength)
        ([Node.mk kind ⟨value.offset, value.offset + value.text.byteLength⟩
          (Expression.parse mode value.offset value.text).1],
          (Expression.parse mode value.offset value.text).2) := by
    intro mode kind outer
    obtain ⟨⟨placed, noticed⟩, short⟩ := Expression.found_parse mode stands
    have regular : Everywhere (Regular source) (Node.mk kind
        ⟨value.offset, value.offset + value.text.byteLength⟩
        (Expression.parse mode value.offset value.text).1) :=
      placed.regular_mk stands.start stands.stop (.inr (by omega)) (leads_of_length short)
    exact ⟨.single regular (Nat.le_of_eq outer.symm) (Nat.le_refl _) (Nat.le_refl _), noticed⟩
  cases form with
  | binding => exact expression .binding rfl
  | action => exact expression .action rfl
  | directive => exact Expression.Directive.found_parse _ stands
  | interpolated => exact found_interpolations stands
  | ignored => exact ⟨.nil (Nat.le_add_right _ _), by simp [valueNodes]⟩

theorem standsAt_readValue (name : Text) (reached : (Cursor.start source).Reaches c) :
    (readValue name c).text.StandsAt (readValue name c).offset source ∧
      c.offset ≤ (readValue name c).offset ∧
      (readValue name c).offset + (readValue name c).text.byteLength ≤
        (readValue name c).after.offset := by
  unfold readValue
  split
  · next rest_eq =>
    have stands := reached.standsAt
    rw [rest_eq] at stands
    exact ⟨stands, Nat.le_refl _, Nat.le_refl _⟩
  · next first rest rest_eq =>
    split
    · have opened := Cursor.reaches_skip 1 c
      have inside := reached.trans opened
      have rest_eq' : (c.skip 1).rest = rest := by rw [Cursor.rest_skip, rest_eq]; rfl
      dsimp only
      split
      · have text_eq : rest.takeWhile (· != first) =
            (c.skip 1).rest.take (rest.takeWhile (· != first)).length := by
          have taken := List.takeWhile_prefix (l := rest) (· != first)
          rw [rest_eq']
          exact List.prefix_iff_eq_take.mp taken
        refine ⟨?_, opened.offset_le, ?_⟩
        · rw [text_eq]
          exact inside.standsAt_take _
        · refine Nat.le_trans (Nat.le_of_eq ?_)
            (Cursor.offset_skip_le (c.skip 1) (Nat.le_succ (rest.takeWhile (· != first)).length))
          exact congrArg (fun taken => (c.skip 1).offset + Text.byteLength taken) text_eq
      · refine ⟨?_, opened.offset_le, ?_⟩
        · have stands := inside.standsAt
          rwa [rest_eq'] at stands
        · have finish_eq : (c.skip 1).finish.offset = (c.skip 1).offset + Text.byteLength rest := by
            rw [Cursor.finish, rest_eq']
          exact Nat.le_of_eq finish_eq.symm
    · refine ⟨?_, Nat.le_refl _, ?_⟩
      · have stands := reached.standsAt_take (unquotedLength (first :: rest))
        rwa [rest_eq] at stands
      · simp only [Cursor.skip, rest_eq]
        exact Nat.le_refl _

theorem boundary_readValue (name : Text) (reached : (Cursor.start source).Reaches c) :
    ∀ d ∈ (readValue name c).diagnostics, source.Boundary d.span.start := by
  unfold readValue
  split
  · simp
  · split
    · dsimp only
      split
      · simp
      · intro d member
        cases List.mem_singleton.mp member
        exact reached.boundary
    · simp

/-- The nodes of a tag: attributes that lie in the tag and are not empty. -/
structure Attributes (source : Text) (start : Nat) (nodes : List Node) (stop : Nat) : Prop where
  placed : Placed source 1 start nodes stop
  solid : ∀ node ∈ nodes, node.Solid
  plain : ∀ node ∈ nodes, node.kind.isMarkup = false

namespace Attributes

variable {a b d : Nat} {nodes more : List Node}

theorem nil (ordered : a ≤ b) : Attributes source a [] b :=
  ⟨.nil ordered, by simp, by simp⟩

theorem append (h : Attributes source a nodes b) (h' : Attributes source b more d) :
    Attributes source a (nodes ++ more) d := by
  refine ⟨h.placed.append h'.placed, ?_, ?_⟩
  · intro node member
    rcases List.mem_append.mp member with member | member
    · exact h.solid node member
    · exact h'.solid node member
  · intro node member
    rcases List.mem_append.mp member with member | member
    · exact h.plain node member
    · exact h'.plain node member

theorem single {kind : Kind} {span : Span} (outer : kind.layer = 1)
    (plain : kind.isMarkup = false) (children : Placed source 2 a (leaf span :: nodes) b)
    (start : source.Boundary a) (stop : source.Boundary b) (solid : span.start < span.stop) :
    Attributes source a [Node.mk kind ⟨a, b⟩ (leaf span :: nodes)] b := by
  have regular : Everywhere (Regular source) (Node.mk kind ⟨a, b⟩ (leaf span :: nodes)) := by
    refine children.regular_mk start stop (.inr (by omega)) ?_
    intro first second rest same
    cases same
    exact solid
  obtain ⟨before, ordered, behind⟩ := children.fits
  refine ⟨.single regular (Nat.le_of_eq outer.symm) (Nat.le_refl a) (Nat.le_refl b), ?_, ?_⟩
  · intro node member
    cases List.mem_singleton.mp member
    have name_start : a ≤ span.start := before
    have name_stop : span.stop ≤ b := behind.le
    change a < b
    omega
  · intro node member
    cases List.mem_singleton.mp member
    exact plain

end Attributes

theorem placed_leaf {d : Cursor} (reached : (Cursor.start source).Reaches c)
    (reaches : c.Reaches d) : Placed source 2 c.offset [leaf ⟨c.offset, d.offset⟩] d.offset :=
  .single (Placed.regular_leaf reached.boundary (reached.trans reaches).boundary
    reaches.offset_le) (Nat.le_succ 2) (Nat.le_refl _) (Nat.le_refl _)

theorem reaches_attributeValue (c : Cursor) : c.Reaches
    ((((c.skipWhile isNamePart).skipWhile Text.isSpace).skip 1).skipWhile Text.isSpace) :=
  (Cursor.reaches_skipWhile isNamePart c).trans ((Cursor.reaches_skipWhile Text.isSpace _).trans
    ((Cursor.reaches_skip 1 _).trans (Cursor.reaches_skipWhile Text.isSpace _)))

theorem attributes_readAttribute (reached : (Cursor.start source).Reaches c)
    (nonempty : c.rest ≠ []) :
    Attributes source c.offset (readAttribute c nonempty).value.toList
        (readAttribute c nonempty).after.offset ∧
      ∀ d ∈ (readAttribute c nonempty).diagnostics, source.Boundary d.span.start := by
  obtain ⟨outer, plain⟩ := classify_layer (c.rest.takeWhile isNamePart)
  have named := Cursor.reaches_skipWhile isNamePart c
  have name_placed := placed_leaf reached named
  unfold readAttribute
  dsimp only
  split
  · exact ⟨.nil (Cursor.reaches_skip 1 c).offset_le, by simp⟩
  · next name_ne =>
    have solid : c.offset < (c.skipWhile isNamePart).offset :=
      Nat.lt_add_of_pos_right (Text.byteLength_pos name_ne)
    split
    · have spaces := Cursor.reaches_skipWhile Text.isSpace (c.skipWhile isNamePart)
      have reached₁ := (reached.trans named).trans spaces
      have equals := Cursor.reaches_skip 1 ((c.skipWhile isNamePart).skipWhile Text.isSpace)
      have reached₂ := reached₁.trans equals
      have spaces' := Cursor.reaches_skipWhile Text.isSpace
        (((c.skipWhile isNamePart).skipWhile Text.isSpace).skip 1)
      have reached₃ := reached₂.trans spaces'
      obtain ⟨stands, before, behind⟩ :=
        standsAt_readValue (c.rest.takeWhile isNamePart) reached₃
      obtain ⟨value_placed, noticed⟩ := found_valueNodes
        (classify (c.rest.takeWhile isNamePart)).1 (classify (c.rest.takeWhile isNamePart)).2 stands
      have after := (reached₃.trans
        (reaches_after_readValue (c.rest.takeWhile isNamePart) _)).boundary
      have value_placed' := value_placed.mono (Nat.le_trans spaces'.offset_le before) behind
      have children := name_placed.cons
        (((placed_leaf reached₁ equals).mono_start spaces.offset_le).cons value_placed')
      refine ⟨.single outer plain children reached.boundary after solid, ?_⟩
      intro d member
      rcases List.mem_append.mp member with member | member
      · exact boundary_readValue _ reached₃ d member
      · exact noticed d member
    · exact ⟨.single outer plain name_placed reached.boundary (reached.trans named).boundary solid,
        by simp⟩

theorem reaches_tagBody (c : Cursor) : c.Reaches ((c.skip 1).skipWhile isNamePart) :=
  (Cursor.reaches_skip 1 c).trans (Cursor.reaches_skipWhile isNamePart (c.skip 1))

theorem offset_lt_readTagBody (name : Text) (start : Nat)
    (reached : (Cursor.start source).Reaches c) :
    c.offset < (readTagBody name start c).after.offset ∨
      (readTagBody name start c).after.offset = source.byteLength := by
  have spaces := Cursor.reaches_skipWhile Text.isSpace c
  fun_cases readTagBody name start c with
  | case1 here reaches rest_eq => exact .inr ((reached.trans spaces).offset_eq_of_rest rest_eq)
  | case2 here reaches first rest rest_eq nonempty _ =>
    exact .inl (spaces.advances (Cursor.advances_skip (Nat.succ_pos 1) nonempty)).offset_lt
  | case3 here reaches first rest rest_eq nonempty =>
    exact .inl (spaces.advances (Cursor.advances_skip (Nat.succ_pos 0) nonempty)).offset_lt
  | case4 here reaches first rest rest_eq nonempty _ _ _ more =>
    have advances := spaces.advances (Cursor.advances_skip (Nat.succ_pos 0) nonempty)
    exact .inl (Nat.lt_of_lt_of_le advances.offset_lt more.reaches.offset_le)
  | case5 here reaches first rest rest_eq nonempty _ _ _ found more =>
    have advances := spaces.advances found.advances
    exact .inl (Nat.lt_of_lt_of_le advances.offset_lt more.reaches.offset_le)

/-- The attributes of a tag lie in it, and end before it where the source goes
on behind them. -/
theorem attributes_readTagBody (name : Text) (start : Nat)
    (reached : (Cursor.start source).Reaches c) :
    Attributes source c.offset (readTagBody name start c).attributes
        (readTagBody name start c).after.offset ∧
      ∀ node ∈ (readTagBody name start c).attributes,
        node.span.stop < (readTagBody name start c).after.offset ∨
          (readTagBody name start c).after.offset = source.byteLength := by
  fun_induction readTagBody name start c with
  | case1 c here reaches _ => exact ⟨.nil reaches.offset_le, by simp⟩
  | case2 c here reaches first rest _ nonempty _ =>
    exact ⟨.nil (reaches.trans (Cursor.reaches_skip 2 here)).offset_le, by simp⟩
  | case3 c here reaches first rest _ nonempty =>
    exact ⟨.nil (reaches.trans (Cursor.reaches_skip 1 here)).offset_le, by simp⟩
  | case4 c here reaches first rest _ nonempty _ _ _ more ih =>
    have skipped := reaches.trans (Cursor.reaches_skip 1 here)
    obtain ⟨attributes, enclosed⟩ := ih (reached.trans skipped)
    exact ⟨(Attributes.nil skipped.offset_le).append attributes, enclosed⟩
  | case5 c here reaches first rest _ nonempty _ _ _ found more ih =>
    have reached_here := reached.trans reaches
    have reached_after := reached_here.trans found.advances.1
    obtain ⟨attributes, enclosed⟩ := ih reached_after
    obtain ⟨one, -⟩ := attributes_readAttribute reached_here nonempty
    have all := (one.append attributes)
    refine ⟨(Attributes.nil reaches.offset_le).append all, ?_⟩
    intro node member
    rcases List.mem_append.mp member with member | member
    · have inside := (one.placed.fits.of_mem member).2.2
      rcases offset_lt_readTagBody name start reached_after with behind | finished
      · exact .inl (Nat.lt_of_le_of_lt inside behind)
      · exact .inr finished
    · exact enclosed node member

theorem boundary_readTagBody (name : Text) {start : Nat} (begins : source.Boundary start)
    (reached : (Cursor.start source).Reaches c) :
    ∀ d ∈ (readTagBody name start c).diagnostics, source.Boundary d.span.start := by
  fun_induction readTagBody name start c with
  | case1 c here reaches _ =>
    intro d member
    cases List.mem_singleton.mp member
    exact begins
  | case2 => simp
  | case3 => simp
  | case4 c here reaches first rest _ nonempty _ _ _ more ih =>
    have reached_here := reached.trans reaches
    intro d member
    rcases List.mem_cons.mp member with rfl | member
    · exact reached_here.boundary
    · exact ih (reached_here.trans (Cursor.reaches_skip 1 here)) d member
  | case5 c here reaches first rest _ nonempty _ _ _ found more ih =>
    have reached_here := reached.trans reaches
    intro d member
    rcases List.mem_append.mp member with member | member
    · exact (attributes_readAttribute reached_here nonempty).2 d member
    · exact ih (reached_here.trans found.advances.1) d member

def Piece.Holds (source : Text) : Piece → Prop
  | .text span interpolations => Everywhere (Regular source) (Node.mk .text span interpolations)
  | .comment span => Everywhere (Regular source) (Node.mk .comment span [])
  | .startTag span _ attributes _ => Attributes source span.start attributes span.stop ∧
      ∀ node ∈ attributes, node.span.stop < span.stop ∨ span.stop = source.byteLength
  | .endTag _ _ => True

/-- A piece covers what was read for it. -/
structure Piece.Covers (source : Text) (reading : Reading Piece c) : Prop where
  span : reading.value.span = ⟨c.offset, reading.after.offset⟩
  holds : reading.value.Holds source
  diagnostics : ∀ d ∈ reading.diagnostics, source.Boundary d.span.start

theorem covers_readText (reached : (Cursor.start source).Reaches c) (nonempty : c.rest ≠ [])
    (plain : opening? c.rest = none) : Piece.Covers source (readText c nonempty plain) := by
  have stands := reached.standsAt_take (textLength c.rest)
  obtain ⟨placed, noticed⟩ := found_interpolations stands
  refine ⟨rfl, ?_, noticed⟩
  refine placed.regular_mk stands.start stands.stop (.inr (Nat.le_refl 2)) ?_
  intro first second rest nodes_eq
  refine solid_interpolations c.offset (c.rest.take (textLength c.rest)) first ?_
  rw [nodes_eq]
  exact List.mem_cons_self

theorem boundary_here (reached : (Cursor.start source).Reaches c) (stop : Nat)
    (problem : Problem) :
    ∀ d ∈ [(⟨⟨c.offset, stop⟩, problem⟩ : Diagnostic)], source.Boundary d.span.start := by
  intro d member
  cases List.mem_singleton.mp member
  exact reached.boundary

theorem covers_readComment (reached : (Cursor.start source).Reaches c) (nonempty : c.rest ≠ []) :
    Piece.Covers source (readComment c nonempty) := by
  have regular : ∀ {d : Cursor}, c.Reaches d →
      Everywhere (Regular source) (Node.mk .comment ⟨c.offset, d.offset⟩ []) := by
    intro d reaches
    have empty : Placed source 3 c.offset [] d.offset := .nil reaches.offset_le
    exact empty.regular_mk reached.boundary (reached.trans reaches).boundary
      (.inr (Nat.le_succ 2)) (by simp)
  have opened := (Cursor.reaches_skip 1 c).trans (Cursor.reaches_skip 3 (c.skip 1))
  unfold readComment
  dsimp only
  split
  · exact ⟨rfl, regular (opened.trans (Cursor.reaches_skip _ _)), by simp⟩
  · exact ⟨rfl, regular (opened.trans (Cursor.reaches_finish _)), boundary_here reached _ _⟩

theorem covers_readEndTag (reached : (Cursor.start source).Reaches c) (nonempty : c.rest ≠ []) :
    Piece.Covers source (readEndTag c nonempty) := by
  unfold readEndTag
  dsimp only
  split
  · exact ⟨rfl, trivial, by simp⟩
  · exact ⟨rfl, trivial, boundary_here reached _ _⟩

theorem covers_readStartTag (reached : (Cursor.start source).Reaches c) (nonempty : c.rest ≠ []) :
    Piece.Covers source (readStartTag c nonempty) := by
  have named := reaches_tagBody c
  have reached' := reached.trans named
  obtain ⟨attributes, enclosed⟩ :=
    attributes_readTagBody ((c.skip 1).rest.takeWhile isNamePart) c.offset reached'
  refine ⟨rfl, ⟨(Attributes.nil named.offset_le).append attributes, enclosed⟩, ?_⟩
  exact boundary_readTagBody _ reached.boundary reached'

theorem covers_readPiece (reached : (Cursor.start source).Reaches c) (nonempty : c.rest ≠ []) :
    Piece.Covers source (readPiece c nonempty) := by
  unfold readPiece
  split
  · exact covers_readComment reached nonempty
  · exact covers_readEndTag reached nonempty
  · exact covers_readStartTag reached nonempty
  · next plain => exact covers_readText reached nonempty plain

/-- Pieces follow each other without a gap from a position to the end of the
source. -/
def Follow (source : Text) : Nat → List (Piece × List Diagnostic) → Prop
  | here, [] => here = source.byteLength
  | here, (piece, diagnostics) :: rest =>
    piece.span.start = here ∧ here < piece.span.stop ∧ source.Boundary piece.span.stop ∧
      piece.Holds source ∧ (∀ d ∈ diagnostics, source.Boundary d.span.start) ∧
      Follow source piece.span.stop rest

theorem Follow.holds {here : Nat} {found : List (Piece × List Diagnostic)}
    (follow : Follow source here found) : ∀ entry ∈ found, entry.1.Holds source := by
  induction found generalizing here with
  | nil => simp
  | cons entry found ih =>
    obtain ⟨-, -, -, holds, -, later⟩ := follow
    exact List.forall_mem_cons.mpr ⟨holds, ih later⟩

theorem follow_piecesFrom (reached : (Cursor.start source).Reaches c) :
    Follow source c.offset (piecesFrom c) := by
  fun_induction piecesFrom c with
  | case1 c done => exact reached.offset_eq_of_rest done
  | case2 c nonempty piece ih =>
    have covers := covers_readPiece reached nonempty
    have reached' := reached.trans piece.advances.1
    have later := ih reached'
    refine ⟨?_, ?_, ?_, covers.holds, covers.diagnostics, ?_⟩
    · rw [covers.span]
    · rw [covers.span]
      exact piece.advances.offset_lt
    · rw [covers.span]
      exact reached'.boundary
    · rw [covers.span]
      exact later

theorem follow_pieces (source : Text) : Follow source 0 (pieces source) :=
  follow_piecesFrom (.refl _)

end Markup

end ComponentExtraction
