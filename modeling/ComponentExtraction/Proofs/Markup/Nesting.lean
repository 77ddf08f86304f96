import ComponentExtraction.Markup.Nesting
import ComponentExtraction.Proofs.Markup.Placement
import ComponentExtraction.Proofs.Tree.Innermost
import ComponentExtraction.Proofs.Tree.Navigation

/-!
# Parsed templates mirror their source

While pieces are nested, the children met so far of every open element, and the
nodes outside all elements, are a `Level`: regular trees that stand one after
the other up to where the next piece starts. The only source between two of them
that belongs to neither is that of end tags without a start tag, and each of
these leaves an error there (`Node.Bridged`). Every piece keeps this up, so the
whole tree of a template mirrors its source (`mirrors_parse`), and the contents
of its elements are packed as tightly as its errors allow (`sound_parse`).
-/

namespace ComponentExtraction

namespace Node

variable {source : Text} {found : List Diagnostic}

/-- Nothing stands between two positions, or something that an error was found
in. -/
def Bridged (found : List Diagnostic) (start stop : Nat) : Prop :=
  start = stop ∨
    ∃ d ∈ found, d.severity = .error ∧ start ≤ d.span.start ∧ d.span.stop ≤ stop

/-- The contents of an element: attributes, which end before the element unless
the source ends there, and then markup without gaps, errors apart. -/
structure Packed (source : Text) (found : List Diagnostic) (node : Node) : Prop where
  markup_behind : node.children.Pairwise fun first second =>
    first.kind.isMarkup = true → second.kind.isMarkup = true
  bridged : node.children.IsChain fun first second =>
    first.kind.isMarkup = true → Bridged found first.span.stop second.span.start
  enclosed : ∀ child ∈ node.children, child.kind.isMarkup = false →
    child.span.stop < node.span.stop ∨ node.span.stop = source.byteLength
  solid : ∀ child ∈ node.children, child.Solid

/-- The node is regular and, if it is an element or the root, packed. -/
structure Sound (source : Text) (found : List Diagnostic) (node : Node) : Prop where
  regular : node.Regular source
  packed : node.kind.layer = 0 → node.Packed source found

theorem Everywhere.sound {node : Node} (h : Everywhere (Regular source) node)
    (inner : 0 < node.kind.layer) : Everywhere (Sound source found) node := by
  induction h with
  | intro regular _ ih =>
    refine .intro ⟨regular, fun outer => absurd outer (Nat.ne_of_gt inner)⟩ ?_
    intro child member
    exact ih child member ((regular.admits child member).layer_pos inner)

end Node

namespace Markup

open Node

variable {source : Text} {found : List Diagnostic} {start here : Nat} {nodes : List Node}

/-- The nodes met so far at one level of the nesting, up to where the next piece
starts. -/
structure Level (source : Text) (found : List Diagnostic) (start : Nat) (nodes : List Node)
    (here : Nat) : Prop where
  fits : Fits start nodes here
  sound : ∀ node ∈ nodes, Everywhere (Sound source found) node
  solid : ∀ node ∈ nodes, node.Solid
  markup_behind : nodes.Pairwise fun first second =>
    first.kind.isMarkup = true → second.kind.isMarkup = true
  bridged : nodes.IsChain fun first second =>
    first.kind.isMarkup = true → Bridged found first.span.stop second.span.start
  enclosed : ∀ node ∈ nodes, node.kind.isMarkup = false →
    node.span.stop < here ∨ here = source.byteLength
  reached : ∀ last ∈ nodes.getLast?, last.kind.isMarkup = true →
    Bridged found last.span.stop here

namespace Level

theorem of_attributes (attributes : Attributes source start nodes here)
    (enclosed : ∀ node ∈ nodes, node.span.stop < here ∨ here = source.byteLength) :
    Level source found start nodes here := by
  have plain : ∀ node ∈ nodes, ¬ node.kind.isMarkup = true := by
    intro node member
    simp [attributes.plain node member]
  have vacuous : ∀ {R : Node → Node → Prop},
      nodes.Pairwise fun first second => first.kind.isMarkup = true → R first second := by
    intro R
    refine List.pairwise_iff_forall_sublist.mpr ?_
    intro first second sublist markup
    exact absurd markup (plain first (sublist.subset List.mem_cons_self))
  refine ⟨attributes.placed.fits, ?_, attributes.solid, vacuous, vacuous.isChain,
    fun node member _ => enclosed node member, ?_⟩
  · intro node member
    exact (attributes.placed.regular node member).sound (attributes.placed.layers node member)
  · intro last member markup
    exact absurd markup (plain last (List.mem_of_getLast? member))

theorem nil (ordered : start ≤ here) : Level source found start [] here :=
  of_attributes (.nil ordered) (by simp)

theorem snoc (level : Level source found start nodes here) {node : Node}
    (sound : Everywhere (Sound source found) node) (markup : node.kind.isMarkup = true)
    (solid : node.Solid) (start_eq : node.span.start = here) :
    Level source found start (nodes ++ [node]) node.span.stop := by
  refine ⟨level.fits.append ⟨Nat.le_of_eq start_eq.symm, Nat.le_of_lt solid, Nat.le_refl _⟩,
    ?_, ?_, ?_, ?_, ?_, ?_⟩
  · exact List.forall_mem_append.mpr ⟨level.sound, List.forall_mem_singleton.mpr sound⟩
  · exact List.forall_mem_append.mpr ⟨level.solid, List.forall_mem_singleton.mpr solid⟩
  · refine List.pairwise_append.mpr ⟨level.markup_behind, List.pairwise_singleton _ _, ?_⟩
    intro first _ second member _
    cases List.mem_singleton.mp member
    exact markup
  · refine List.isChain_append.mpr ⟨level.bridged, .singleton _, ?_⟩
    intro last member second member' last_markup
    cases member'
    rw [start_eq]
    exact level.reached last member last_markup
  · refine List.forall_mem_append.mpr ⟨?_, List.forall_mem_singleton.mpr ?_⟩
    · intro other member _
      have before := (level.fits.of_mem member).2.2
      have : node.span.start < node.span.stop := solid
      exact .inl (by omega)
    · intro plain
      exact absurd (markup.symm.trans plain) (by simp)
  · intro last member _
    rw [List.getLast?_append, List.getLast?_singleton] at member
    cases member
    exact .inl rfl

/-- An error in what comes next leaves the level as it is. -/
theorem extend (level : Level source found start nodes here) {d : Diagnostic} {stop : Nat}
    (member : d ∈ found) (error : d.severity = .error) (span_eq : d.span = ⟨here, stop⟩)
    (ahead : here < stop) : Level source found start nodes stop := by
  refine ⟨level.fits.mono_stop (Nat.le_of_lt ahead), level.sound, level.solid,
    level.markup_behind, level.bridged, ?_, ?_⟩
  · intro node member _
    exact .inl (Nat.lt_of_le_of_lt (level.fits.of_mem member).2.2 ahead)
  · intro last last_member _
    refine .inr ⟨d, member, error, ?_⟩
    rw [span_eq]
    exact ⟨(level.fits.of_mem (List.mem_of_getLast? last_member)).2.2, Nat.le_refl stop⟩

theorem sound_mk (level : Level source found start nodes here) {kind : Kind} {stop : Nat}
    (outer : kind.layer = 0) (begins : source.Boundary start) (ends : source.Boundary stop)
    (behind : here ≤ stop) :
    Everywhere (Sound source found) (Node.mk kind ⟨start, stop⟩ nodes) := by
  have leads : ∀ first second rest, nodes = first :: second :: rest → first.Solid := by
    rintro first second rest rfl
    exact level.solid first List.mem_cons_self
  have regular : Regular source (Node.mk kind ⟨start, stop⟩ nodes) :=
    ⟨begins, ends, level.fits.mono_stop behind, leads, fun _ _ => .inl outer⟩
  refine .intro ⟨regular, fun _ => ?_⟩ level.sound
  refine ⟨level.markup_behind, level.bridged, ?_, level.solid⟩
  intro child member plain
  have limit := ends.le
  rcases level.enclosed child member plain with before | finished
  · exact .inl (Nat.lt_of_lt_of_le before behind)
  · refine .inr ?_
    change stop = source.byteLength
    omega

end Level

namespace Nesting

variable {n : Nesting} {outside : List Node} {stack : List OpenElement}

/-- Every open element starts where the level around it has got to, and the
innermost level has got to where the next piece starts. -/
def Stacked (source : Text) (found : List Diagnostic) (outside : List Node) :
    List OpenElement → Nat → Prop
  | [], here => Level source found 0 outside.reverse here
  | element :: stack, here => source.Boundary element.start ∧ element.start < here ∧
      Level source found element.start element.children.reverse here ∧
      Stacked source found outside stack element.start

/-- What is known of a nesting in front of the next piece: the
invariant of the loop over the pieces (`Upholds.step`). -/
def Upholds (source : Text) (found : List Diagnostic) (n : Nesting) (here : Nat) : Prop :=
  Stacked source found n.outside n.stack here

theorem upholds_empty : empty.Upholds source found 0 :=
  Level.nil (Nat.le_refl 0)

namespace Upholds

theorem add {node : Node} (h : n.Upholds source found here)
    (sound : Everywhere (Sound source found) node) (markup : node.kind.isMarkup = true)
    (solid : node.Solid) (start_eq : node.span.start = here) :
    (n.add node).Upholds source found node.span.stop := by
  obtain ⟨outside, stack⟩ := n
  cases stack with
  | nil =>
    have level : Level source found 0 outside.reverse here := h
    change Level source found 0 (node :: outside).reverse node.span.stop
    rw [List.reverse_cons]
    exact level.snoc sound markup solid start_eq
  | cons element stack =>
    obtain ⟨begins, before, level, around⟩ := h
    have ordered : node.span.start < node.span.stop := solid
    refine ⟨begins, by change element.start < node.span.stop; omega, ?_, around⟩
    change Level source found element.start (node :: element.children).reverse node.span.stop
    rw [List.reverse_cons]
    exact level.snoc sound markup solid start_eq

theorem push (h : n.Upholds source found here) {element : OpenElement} {stop : Nat}
    (start_eq : element.start = here) (begins : source.Boundary here) (ahead : here < stop)
    (level : Level source found element.start element.children.reverse stop) :
    (n.push element).Upholds source found stop := by
  refine ⟨start_eq ▸ begins, start_eq ▸ ahead, level, ?_⟩
  rw [start_eq]
  exact h

/-- Closing an element makes it the last node of the level around it. -/
theorem close (h : n.Upholds source found here) (opened : n.stack ≠ []) {stop : Nat}
    (ends : source.Boundary stop) (behind : here ≤ stop) :
    (n.close stop).Upholds source found stop := by
  obtain ⟨outside, stack⟩ := n
  cases stack with
  | nil => exact absurd rfl opened
  | cons element stack =>
    obtain ⟨begins, before, level, around⟩ := h
    have around' : Upholds source found ⟨outside, stack⟩ element.start := around
    exact around'.add (level.sound_mk rfl begins ends behind) rfl
      (Nat.lt_of_lt_of_le before behind) rfl

end Upholds

theorem length_stack_add (node : Node) (n : Nesting) :
    (n.add node).stack.length = n.stack.length := by
  obtain ⟨outside, stack⟩ := n
  cases stack <;> rfl

theorem length_stack_close (stop : Nat) (n : Nesting) :
    (n.close stop).stack.length = n.stack.length - 1 := by
  obtain ⟨outside, stack⟩ := n
  cases stack with
  | nil => rfl
  | cons element stack =>
    rw [Nesting.close, length_stack_add]
    rfl

theorem length_stack_closeMany (stop count : Nat) (n : Nesting) :
    (n.closeMany stop count).stack.length = n.stack.length - count := by
  induction count generalizing n with
  | zero => rfl
  | succ count ih =>
    rw [closeMany, ih, length_stack_close]
    omega

namespace Upholds

theorem closeMany (h : n.Upholds source found here) (ends : source.Boundary here) (count : Nat)
    (fewer : count ≤ n.stack.length) : (n.closeMany here count).Upholds source found here := by
  induction count generalizing n with
  | zero => exact h
  | succ count ih =>
    have opened : n.stack ≠ [] := by
      intro empty
      rw [empty] at fewer
      exact absurd fewer (by simp)
    refine ih (h.close opened ends (Nat.le_refl here)) ?_
    rw [length_stack_close]
    omega

theorem startTag (h : n.Upholds source found here) (begins : source.Boundary here) {span : Span}
    (start_eq : span.start = here) (ahead : here < span.stop) (ends : source.Boundary span.stop)
    (name : Text) {attributes : List Node}
    (level : Level source found span.start attributes span.stop) (selfClosing : Bool) :
    (n.startTag span name attributes selfClosing).Upholds source found span.stop := by
  have closed : (if isClosedBySibling name && n.isInnermost name then n.close span.start
      else n).Upholds source found here := by
    split
    · next sibling =>
      have opened : n.stack ≠ [] := by
        intro empty
        simp [isInnermost, empty] at sibling
      rw [start_eq]
      exact h.close opened begins (Nat.le_refl here)
    · exact h
  unfold Nesting.startTag
  dsimp only
  split
  · have sound : Everywhere (Sound source found) (Node.mk (.element name) span attributes) :=
      level.sound_mk rfl (start_eq ▸ begins) ends (Nat.le_refl _)
    have solid : span.start < span.stop := Nat.lt_of_le_of_lt (Nat.le_of_eq start_eq) ahead
    exact closed.add sound rfl solid start_eq
  · refine closed.push start_eq begins ahead ?_
    rw [List.reverse_reverse]
    exact level

/-- An end tag closes an open element, or an error covers it. -/
theorem endTag (h : n.Upholds source found here) (begins : source.Boundary here) {span : Span}
    (start_eq : span.start = here) (ahead : here < span.stop) (ends : source.Boundary span.stop)
    (name : Text) (recorded : ∀ d ∈ (n.endTag span name).2, d ∈ found) :
    (n.endTag span name).1.Upholds source found span.stop := by
  revert recorded
  unfold Nesting.endTag
  split
  · next depth depth_eq =>
    intro _
    have fewer : depth < n.stack.length := (List.findIdx?_eq_some_iff_findIdx_eq.mp depth_eq).1
    rw [start_eq]
    have closed := h.closeMany begins depth (Nat.le_of_lt fewer)
    refine closed.close ?_ ends (Nat.le_of_lt ahead)
    intro empty
    have length_eq := length_stack_closeMany here depth n
    rw [empty] at length_eq
    simp only [List.length_nil] at length_eq
    omega
  · intro recorded
    have member := recorded _ (List.mem_singleton.mpr rfl)
    have error : (⟨span, if isVoid name then .endTagOfVoidElement name
        else .unmatchedEndTag name⟩ : Diagnostic).severity = .error := by
      unfold Diagnostic.severity
      dsimp only
      split <;> rfl
    have span_eq : span = ⟨here, span.stop⟩ := by rw [← start_eq]
    obtain ⟨outside, stack⟩ := n
    cases stack with
    | nil =>
      have level : Level source found 0 outside.reverse here := h
      exact level.extend member error span_eq ahead
    | cons element stack =>
      obtain ⟨begins', before, level, around⟩ := h
      exact ⟨begins', Nat.lt_trans before ahead, level.extend member error span_eq ahead, around⟩

/-- Adding a piece that starts here leads to its end. -/
theorem step (h : n.Upholds source found here) (begins : source.Boundary here) {piece : Piece}
    (start_eq : piece.span.start = here) (ahead : here < piece.span.stop)
    (ends : source.Boundary piece.span.stop) (holds : piece.Holds source)
    (recorded : ∀ d ∈ (n.step piece).2, d ∈ found) :
    (n.step piece).1.Upholds source found piece.span.stop := by
  have solid : piece.span.start < piece.span.stop :=
    Nat.lt_of_le_of_lt (Nat.le_of_eq start_eq) ahead
  cases piece with
  | text span interpolations =>
    have regular : Everywhere (Regular source) (Node.mk .text span interpolations) := holds
    exact h.add (regular.sound (Nat.succ_pos 0)) rfl solid start_eq
  | comment span =>
    have regular : Everywhere (Regular source) (Node.mk .comment span []) := holds
    exact h.add (regular.sound (Nat.succ_pos 0)) rfl solid start_eq
  | startTag span name attributes selfClosing =>
    obtain ⟨attributes_placed, enclosed⟩ := holds
    exact h.startTag begins start_eq ahead ends name (.of_attributes attributes_placed enclosed)
      selfClosing
  | endTag span name => exact h.endTag begins start_eq ahead ends name recorded

/-- Nesting all pieces leads to the end of the source. -/
theorem run {pieces : List (Piece × List Diagnostic)} (h : n.Upholds source found here)
    (begins : source.Boundary here) (follow : Follow source here pieces)
    (recorded : ∀ d ∈ (n.run pieces).2, d ∈ found) :
    (n.run pieces).1.Upholds source found source.byteLength := by
  induction pieces generalizing n here with
  | nil =>
    have finished : here = source.byteLength := follow
    exact finished ▸ h
  | cons entry pieces ih =>
    obtain ⟨piece, noticed⟩ := entry
    obtain ⟨start_eq, ahead, ends, holds, -, later⟩ := follow
    rw [Nesting.run] at recorded
    simp only [List.mem_append] at recorded
    have next := h.step begins start_eq ahead ends holds
      fun d member => recorded d (.inl (.inr member))
    exact ih next ends later fun d member => recorded d (.inr member)

end Upholds

theorem boundary_step {piece : Piece} (begins : source.Boundary piece.span.start) :
    ∀ d ∈ (n.step piece).2, source.Boundary d.span.start := by
  cases piece with
  | text | comment | startTag => simp [Nesting.step]
  | endTag span name =>
    rw [Nesting.step, Nesting.endTag]
    split
    · simp
    · intro d member
      cases List.mem_singleton.mp member
      exact begins

theorem boundary_run {pieces : List (Piece × List Diagnostic)} (begins : source.Boundary here)
    (follow : Follow source here pieces) :
    ∀ d ∈ (n.run pieces).2, source.Boundary d.span.start := by
  induction pieces generalizing n here with
  | nil => simp [Nesting.run]
  | cons entry pieces ih =>
    obtain ⟨piece, noticed⟩ := entry
    obtain ⟨start_eq, -, ends, -, boundaries, later⟩ := follow
    rw [Nesting.run]
    intro d member
    rcases List.mem_append.mp member with member | member
    · rcases List.mem_append.mp member with member | member
      · exact boundaries d member
      · exact boundary_step (start_eq ▸ begins) d member
    · exact ih ends later d member

theorem boundary_of_stacked (h : Stacked source found outside stack here) :
    ∀ element ∈ stack, source.Boundary element.start := by
  induction stack generalizing here with
  | nil => simp
  | cons first stack ih =>
    obtain ⟨begins, -, -, around⟩ := h
    exact List.forall_mem_cons.mpr ⟨begins, ih around⟩

end Nesting

variable (source url : Text)

theorem upholds_parse : (Nesting.empty.run (pieces source)).1.Upholds source
    (parse source url).diagnostics source.byteLength :=
  Nesting.upholds_empty.run (Text.boundary_zero source) (follow_pieces source)
    fun _ member => List.mem_append_left _ member

theorem sound_parse : Everywhere (Sound source (parse source url).diagnostics)
    (parse source url).template.root := by
  have closed := (upholds_parse source url).closeMany (Text.boundary_byteLength source) _
    (Nat.le_refl _)
  have length_eq := Nesting.length_stack_closeMany source.byteLength
    (Nesting.empty.run (pieces source)).1.stack.length (Nesting.empty.run (pieces source)).1
  rw [Nat.sub_self] at length_eq
  rw [Nesting.Upholds, List.eq_nil_of_length_eq_zero length_eq] at closed
  have level : Level source (parse source url).diagnostics 0
      ((Nesting.empty.run (pieces source)).1.finish source.byteLength).1 source.byteLength := closed
  exact level.sound_mk rfl (Text.boundary_zero source) (Text.boundary_byteLength source)
    (Nat.le_refl _)

theorem mirrors_parse : (parse source url).template.Mirrors :=
  (sound_parse source url).mono fun _ sound => sound.regular

/-- Every source, well-formed or not, is read into a tree that mirrors it: each
node stands where its text does, inside its parent and behind its siblings. -/
theorem faithful_parse :
    (parse source url).template.source = source ∧ (parse source url).template.Faithful :=
  ⟨rfl, (mirrors_parse source url).faithful rfl rfl⟩

/-- The search at a byte finds the innermost node of an accepted kind, wherever there is
one besides the root. -/
theorem innermostAt_parse (offset : Nat) (accept : Kind → Bool) :
    ((parse source url).template.innermostAt offset accept = none ↔
      ∀ o, (parse source url).template.Contains o → o.address ≠ [] → accept o.kind = true →
        o.span.contains offset = false) ∧
      ∀ o, (parse source url).template.innermostAt offset accept = some o ↔
        (parse source url).template.IsInnermostAt offset accept o := by
  have mirrors := mirrors_parse source url
  exact ⟨mirrors.innermostAt_eq_none_iff, fun o => mirrors.innermostAt_eq_some_iff⟩

/-- Walks down and walks up the tree of a source agree, and none
of them meets a node twice. -/
theorem navigable_parse : (parse source url).template.Navigable :=
  (mirrors_parse source url).navigable

theorem boundary_diagnostics_parse :
    ∀ d ∈ (parse source url).diagnostics, source.Boundary d.span.start := by
  intro d member
  rcases List.mem_append.mp member with member | member
  · exact Nesting.boundary_run (Text.boundary_zero source) (follow_pieces source) d member
  · obtain ⟨element, opened, rfl⟩ := List.mem_map.mp member
    exact Nesting.boundary_of_stacked (upholds_parse source url) element opened

end Markup

end ComponentExtraction
