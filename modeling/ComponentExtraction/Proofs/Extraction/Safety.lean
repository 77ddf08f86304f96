import ComponentExtraction.Proofs.Extraction.Rendering
import ComponentExtraction.Proofs.Extraction.Tiling

/-!
# Extraction never cuts a character

Positions are byte offsets, and a source can only be cut where characters start.
Whatever the source, the selection, the name, the symbols and the settings are,
everything that an extraction cuts out of the source lies between such places
(`safe_ofSelection`): pieces of markup, tokens, nodes, the source around errors,
and the texts between edits. So an extraction either gives a plan, which can be
applied to the source, or tells why there is none.
-/

namespace ComponentExtraction

open Fragment

variable {source text : Text} {first last : Nat}

/-- A span can be cut out of a source: its ends are in order, inside the source,
and between characters. -/
def Span.IsSlice (span : Span) (source : Text) : Prop :=
  ∃ text, span.textIn? source = some text

theorem Text.standsAt_of_slice? (found : source.slice? first last = some text) :
    text.StandsAt first source := by
  obtain ⟨before, after, source_eq, first_eq, -⟩ := Text.slice?_eq_some_iff.mp found
  exact ⟨before, after, source_eq, first_eq⟩

theorem Expression.isSlice_token (found : source.slice? first last = some text) :
    ∀ token ∈ tokensAt first text, token.span.IsSlice source := by
  intro token member
  have laid := laid_tokensAt .binding (Text.standsAt_of_slice? found)
  obtain ⟨start, stop⟩ := laid.boundaries token member
  exact start.exists_slice? stop (Nat.le_of_lt (laid.solid token member).1)

namespace Markup

theorem Follow.isSlice {here : Nat} {pieces : List (Piece × List Diagnostic)}
    (follow : Follow source here pieces) (begins : source.Boundary here) :
    ∀ piece ∈ pieces, piece.1.span.IsSlice source := by
  induction pieces generalizing here with
  | nil => simp
  | cons head rest ih =>
    obtain ⟨start_eq, forward, ends, -, -, later⟩ := follow
    intro piece member
    rcases List.mem_cons.mp member with rfl | member
    · rw [← start_eq] at begins forward
      exact begins.exists_slice? ends (Nat.le_of_lt forward)
    · exact ih later ends piece member

end Markup

theorem Rewriting.EditOf.fits {t : Template} {r : Rewriting} {o : Occurrence} {e : Edit}
    (edit : r.EditOf o e) (mirrors : t.Mirrors) (held : t.Contains o) : e.Fits t.source := by
  have regular := mirrors.regular held
  rcases edit with cut | tail
  · obtain ⟨text, -, rfl⟩ := Option.map_eq_some_iff.mp cut
    exact ⟨regular.start, regular.stop, regular.ordered⟩
  · obtain ⟨text, -, rfl⟩ := Option.map_eq_some_iff.mp tail
    exact ⟨regular.stop, regular.stop, Nat.le_refl _⟩

namespace Component

variable {t : Template} {roots : List Occurrence} {bindings : List Binding} {edits : List Edit}

theorem exists_applyAll? (scanned : Scanned t roots bindings) (run : IsRun t roots)
    (mirrors : t.Mirrors) (made : templateEdits t bindings = .ok edits) :
    ∀ root ∈ roots, ∃ text, Edit.applyAll? t.source root.span edits = some text := by
  intro root selected
  have regular := mirrors.regular (run.contains root selected)
  apply Edit.exists_applyAll? regular.start regular.stop regular.ordered
  intro e member
  obtain ⟨o, held, edit⟩ := (mem_templateEdits_iff scanned run made).mp member
  exact edit.fits mirrors held

theorem exists_editedRoots? {source : Text}
    (each : ∀ root ∈ roots, ∃ text, Edit.applyAll? source root.span edits = some text) :
    ∃ text, editedRoots? source edits roots = some text := by
  induction roots with
  | nil => exact ⟨[], rfl⟩
  | cons root roots ih =>
    obtain ⟨⟨text, text_eq⟩, later⟩ := List.forall_mem_cons.mp each
    obtain ⟨more, more_eq⟩ := ih later
    rw [editedRoots?, text_eq, more_eq]
    exact ⟨_, rfl⟩

/-- Making the edits of a template fails for two-way bindings only. -/
theorem changeEdits_error {e : ExtractionError} (failed : changeEdits t bindings = .error e) :
    ∃ b ∈ bindings, e = .twoWayBindingWithoutField (t.text b.owner) := by
  induction bindings with
  | nil => exact absurd failed (by simp [changeEdits])
  | cons b bindings ih =>
    rcases changeEdits_cons_eq_error_iff.mp failed with here | ⟨edit, -, later⟩
    · obtain ⟨-, -, e_eq⟩ := changeEdit?_eq_error_iff.mp here
      exact ⟨b, List.mem_cons_self, e_eq⟩
    · obtain ⟨b', member, e_eq⟩ := ih later
      exact ⟨b', List.mem_cons_of_mem b member, e_eq⟩

/-- The template of a run can be rendered, unless a two-way binding has no input. -/
theorem templateText_error (scanned : Scanned t roots bindings) (run : IsRun t roots)
    (mirrors : t.Mirrors) {e : ExtractionError}
    (failed : templateText t roots bindings = .error e) :
    ∃ b ∈ bindings, e = .twoWayBindingWithoutField (t.text b.owner) := by
  rcases templateText_eq_error_iff.mp failed with unmade | ⟨edits, made, unedited, -⟩
  · exact changeEdits_error (templateEdits_eq_error_iff.mp unmade)
  · obtain ⟨text, edited⟩ := exists_editedRoots? (exists_applyAll? scanned run mirrors made)
    exact absurd (edited.symm.trans unedited) (by simp)

end Component

theorem Fragment.select_error {t : Template} {start stop : Nat} {e : ExtractionError}
    (failed : select t start stop = .error e) : e = .invalidPosition ∨ e = .emptySelection := by
  have content : ∀ {first last}, selectContent t first last = .error e → e = .invalidPosition := by
    intro first last failed
    unfold selectContent at failed
    split at failed
    · dsimp only at failed
      split at failed
      · exact (Except.error.inj failed).symm
      · split at failed
        · exact absurd failed (by simp)
        · exact (Except.error.inj failed).symm
    · exact (Except.error.inj failed).symm
  unfold select at failed
  dsimp only at failed
  split at failed
  · exact .inl (Except.error.inj failed).symm
  · split at failed
    · exact .inr (Except.error.inj failed).symm
    · split at failed
      · exact .inl (Except.error.inj failed).symm
      · split at failed
        · exact .inr (Except.error.inj failed).symm
        · exact .inl (content failed)

theorem Fragment.IsRun.fits {t : Template} {roots : List Occurrence} {span : Span}
    (run : IsRun t roots) (mirrors : t.Mirrors) (span_eq : spanOf? roots = some span)
    (text : Text) : (Edit.mk span text).Fits t.source := by
  have inside := covers_of_spanOf? span_eq
    (fun root member => (mirrors.regular (run.contains root member)).ordered) (run.ordered mirrors)
  obtain ⟨head, head_eq, start_eq⟩ := Option.map_eq_some_iff.mp (head?_of_spanOf? span_eq)
  obtain ⟨tail, tail_eq, stop_eq⟩ := Option.map_eq_some_iff.mp (getLast?_of_spanOf? span_eq)
  have head_member := List.mem_of_head? head_eq
  have begins := (mirrors.regular (run.contains head head_member)).start
  have ends := (mirrors.regular (run.contains tail (List.mem_of_getLast? tail_eq))).stop
  have ordered := (mirrors.regular (run.contains head head_member)).ordered
  refine ⟨?_, ?_, ?_⟩
  · exact start_eq ▸ begins
  · exact stop_eq ▸ ends
  · obtain ⟨start, stop⟩ := inside head head_member
    exact Nat.le_trans start (Nat.le_trans ordered stop)

namespace Extraction

variable {url name : Text} {start stop : Nat} {host : Symbols.Table}
variable {settings : Component.Settings}

/-- Everything that is cut while a selection is extracted is a slice, no position
is moved before the start of the source, and the extraction gives a plan that can
be applied or the reason why there is none. -/
structure Safe (source url : Text) (start stop : Nat) (name : Text) (host : Symbols.Table)
    (settings : Component.Settings) : Prop where
  pieces : ∀ piece ∈ Markup.pieces source, piece.1.span.IsSlice source
  tokens : ∀ first last text, source.slice? first last = some text →
    ∀ token ∈ Expression.tokensAt first text, token.span.IsSlice source
  nodes : ∀ o, (Markup.parse source url).template.Contains o → o.span.IsSlice source
  reports : ∀ d ∈ (Markup.parse source url).diagnostics,
    (∃ location, d.location? source = some location) ∧
      ∃ quoted, d.inContext? source contextReach = some quoted
  content : ∀ selected, source.slice? start (min stop source.byteLength) = some selected →
    selected.trim ≠ [] →
      (contentEnds selected start (min stop source.byteLength)).1 + selected.trimStart.byteLength =
        min stop source.byteLength ∧
      (contentEnds selected start (min stop source.byteLength)).2 + 1 =
        start + selected.trimEnd.byteLength
  roots : ∀ roots, select (Markup.parse source url).template start stop = .ok roots → roots ≠ []
  edits : ∀ roots edits, select (Markup.parse source url).template start stop = .ok roots →
    Component.templateEdits (Markup.parse source url).template
      (scan (Markup.parse source url).template roots host).bindings = .ok edits →
    ∀ root ∈ roots, ∃ text, Edit.applyAll? source root.span edits = some text
  outcome : (∃ plan text, ofSelection source url start stop name host settings = .ok plan ∧
      plan.applyTo? source = some text) ∨
    ∃ e, ofSelection source url start stop name host settings = .error e ∧ e ≠ .cutInsideCharacter

theorem scanned_scan {t : Template} {roots : List Occurrence} (run : IsRun t roots) :
    Scanned t roots (scan t roots host).bindings := by
  rw [← bindingsWith_fields]
  exact scanned_bindingsWith Binding.fields run.contains

theorem ofRoots_ne {t : Template} {roots : List Occurrence} (run : IsRun t roots)
    (mirrors : t.Mirrors) : ofRoots t roots name host settings ≠ .error .cutInsideCharacter := by
  intro failed
  rcases ofRoots_eq_error_iff.mp failed with
    ⟨problem, -, e_eq⟩ | ⟨accepted, -, ⟨-, e_eq⟩ | ⟨span, -, unrendered⟩⟩
  · exact absurd e_eq (by simp)
  · exact absurd e_eq (by simp)
  · obtain ⟨b, -, e_eq⟩ := Component.templateText_error (scanned_scan run) run mirrors unrendered
    exact absurd e_eq (by simp)

theorem ofSelection_ne :
    ofSelection source url start stop name host settings ≠ .error .cutInsideCharacter := by
  intro failed
  rcases ofSelection_eq_error_iff.mp failed with
    unselected | ⟨roots, selected, reported | ⟨-, unplanned⟩⟩
  · rcases select_error unselected with e_eq | e_eq
    · exact absurd e_eq (by simp)
    · exact absurd e_eq (by simp)
  · obtain ⟨span, -, found⟩ := Option.bind_eq_some_iff.mp reported
    obtain ⟨d, first, report_eq⟩ := Option.map_eq_some_iff.mp found
    obtain ⟨message, parse_eq⟩ := exists_reportOf_eq (List.mem_of_find?_eq_some first)
    exact absurd (parse_eq.symm.trans report_eq) (by simp)
  · have run := (isRun_of_select (Markup.sound_parse source url) selected).1
    exact ofRoots_ne run (Markup.mirrors_parse source url) unplanned

/-- A plan can be applied to the source it was made for. -/
theorem exists_applyTo? {plan : Plan}
    (planned : ofSelection source url start stop name host settings = .ok plan) :
    ∃ text, plan.applyTo? source = some text := by
  obtain ⟨e, rfl, rfl, rfl, rfl, rfl, rfl, rfl, rfl⟩ := exists_success_of_planned planned
  have run := (isRun_of_select (Markup.sound_parse e.source e.url) e.selected).1
  obtain ⟨span_eq, -⟩ := of_ofSelection e.selected e.planned
  exact (run.fits (Markup.mirrors_parse e.source e.url) span_eq _).exists_applyTo?

/-- Extracting any selection of any source is safe: no offset that
is used lies outside of the source or inside a character of it. -/
theorem safe_ofSelection (source url : Text) (start stop : Nat) (name : Text)
    (host : Symbols.Table) (settings : Component.Settings) :
    Safe source url start stop name host settings := by
  have sound := Markup.sound_parse source url
  have mirrors := Markup.mirrors_parse source url
  constructor
  case pieces => exact (Markup.follow_pieces source).isSlice (Text.boundary_zero source)
  case tokens => exact fun first last text found => Expression.isSlice_token found
  case nodes => exact fun o held => ⟨_, mirrors.textIn?_eq held⟩
  case reports =>
    intro d listed
    have boundary := Markup.boundary_diagnostics_parse source url d listed
    exact ⟨Diagnostic.exists_location? boundary, Diagnostic.exists_inContext? boundary contextReach⟩
  case content =>
    intro selected found visible
    obtain ⟨before, after, -, start_eq, stop_eq⟩ := Text.slice?_eq_some_iff.mp found
    exact contentEnds_eq (by rw [start_eq, stop_eq]) visible
  case roots => exact fun roots selected => (isRun_of_select sound selected).2
  case edits =>
    intro roots edits selected made
    have run := (isRun_of_select sound selected).1
    exact Component.exists_applyAll? (scanned_scan run) run mirrors made
  case outcome =>
    cases result : ofSelection source url start stop name host settings with
    | ok plan =>
      obtain ⟨text, applied⟩ := exists_applyTo? result
      exact .inl ⟨plan, text, rfl, applied⟩
    | error e =>
      refine .inr ⟨e, rfl, ?_⟩
      rintro rfl
      exact ofSelection_ne result

end Extraction

end ComponentExtraction
