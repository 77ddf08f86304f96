import ComponentExtraction.Proofs.Component.Invocation
import ComponentExtraction.Proofs.Extraction.Safety
import ComponentExtraction.Proofs.Fragment.Enclosure
import ComponentExtraction.Proofs.Markup.Substitution

/-!
# What an extraction leaves behind

The tag of a new component stands where the fragment stood. If nothing was noticed in
the source and every value that the tag passes can stand in quotes, the source that is
left holds no errors (`Success.errorless_applied`), so it can be extracted from again.
A value with both kinds of quotes ends at the first one that is like those around it,
and what is left then need not be readable (`Success.not_errorless_applied_quotes`).
-/

namespace ComponentExtraction

open Diagnostic Fragment Markup

namespace Component

variable {source url : Text} {roots : List Occurrence} {host : Symbols.Table}

/-- The tags of components have names of tags by default. -/
theorem Settings.writable_default : Settings.Writable {} := by
  have parts : "app".toList.all (!Text.isNameEnd ·) = true := by decide
  refine ⟨by decide, fun c member => ?_⟩
  simpa using List.all_eq_true.mp parts c member

theorem harmless_readAllAt {attributes : List Assignment}
    (each : ∀ a ∈ attributes, ∀ offset, Harmless (a.readAt offset).2) (offset : Nat) :
    Harmless ((Assignment.readAllAt offset attributes).flatMap Prod.snd) := by
  induction attributes generalizing offset with
  | nil => exact harmless_nil
  | cons a attributes ih =>
    obtain ⟨first, later⟩ := List.forall_mem_cons.mp each
    rw [Assignment.readAllAt, List.flatMap_cons]
    exact harmless_append.mpr ⟨first _, ih later _⟩

/-- What a tag passes holds no error wherever the tag stands. -/
theorem harmless_assignments (clean : (Markup.parse source url).hasErrors = false)
    (held : ∀ root ∈ roots, (Markup.parse source url).template.Contains root) :
    ∀ a ∈ assignments (Markup.parse source url).template
      (scan (Markup.parse source url).template roots host),
      ∀ offset, Harmless (a.readAt offset).2 := by
  refine List.forall_mem_append.mpr ⟨List.forall_mem_map.mpr ?_, List.forall_mem_map.mpr ?_⟩
  · intro field member offset
    obtain ⟨word, reads⟩ := of_mem_inputs clean held member
    rw [Assignment.readAt, Assignment.valueAt, classify_input word]
    exact reads _
  · intro entry member offset
    obtain ⟨word, reads⟩ := of_mem_forwarded clean held member
    rw [Assignment.readAt, Assignment.valueAt, eventAssignment, classify_event word.1]
    exact reads _

end Component

namespace Extraction.Success

variable {e : Success}

/-- The source in front of the fragment, that of the fragment and that behind it. -/
theorem exists_split : ∃ front middle back, e.source = front ++ middle ++ back ∧
    e.plan.edit.span = ⟨front.byteLength, (front ++ middle).byteLength⟩ ∧
    e.plan.applyTo? e.source = some (front ++ e.plan.edit.replacement ++ back) := by
  have run := (isRun_of_select (Markup.sound_parse e.source e.url) e.selected).1
  obtain ⟨span_eq, -⟩ := of_ofSelection e.selected e.planned
  have fits := run.fits (Markup.mirrors_parse e.source e.url) span_eq e.plan.edit.replacement
  obtain ⟨middle, cut⟩ : ∃ middle,
      e.source.slice? e.plan.edit.span.start e.plan.edit.span.stop = some middle :=
    fits.start.exists_slice? fits.stop fits.ordered
  obtain ⟨front, back, source_eq, start_eq, stop_eq⟩ := Text.slice?_eq_some_iff.mp cut
  have span_eq' : e.plan.edit.span = ⟨front.byteLength, (front ++ middle).byteLength⟩ := by
    rw [Text.byteLength_append, ← stop_eq, ← start_eq]
  refine ⟨front, middle, back, source_eq, span_eq', ?_⟩
  rw [Plan.applyTo?, source_eq]
  exact Edit.applyTo?_append (congrArg Span.start span_eq') (congrArg Span.stop span_eq')

theorem cut_span : Cut e.source e.plan.edit.span.start ∧ Cut e.source e.plan.edit.span.stop := by
  have run := (isRun_of_select (Markup.sound_parse e.source e.url) e.selected).1
  obtain ⟨span_eq, -⟩ := of_ofSelection e.selected e.planned
  have ends : ∀ root ∈ e.roots, Cut e.source root.span.start ∧ Cut e.source root.span.stop :=
    fun root member =>
      cut_of_parse e.source e.url (run.contains root member) (run.markup root member)
  obtain ⟨head, head_eq, start_eq⟩ := Option.map_eq_some_iff.mp (head?_of_spanOf? span_eq)
  obtain ⟨tail, tail_eq, stop_eq⟩ := Option.map_eq_some_iff.mp (getLast?_of_spanOf? span_eq)
  rw [← start_eq, ← stop_eq]
  exact ⟨(ends head (List.mem_of_head? head_eq)).1, (ends tail (List.mem_of_getLast? tail_eq)).2⟩

/-- A source in which nothing is noticed has no errors after an extraction, if every
value that the tag passes has one kind of quotes at most. -/
theorem errorless_applied (clean : (Markup.parse e.source e.url).diagnostics = [])
    (writable : e.settings.Writable) (quotable : Component.Quotable e.template e.scan)
    (url : Text) : ∃ applied, e.plan.applyTo? e.source = some applied ∧
      (Markup.parse applied url).hasErrors = false := by
  obtain ⟨front, middle, back, source_eq, span_eq', applied_eq⟩ := e.exists_split
  obtain ⟨name, accepted, tag_eq⟩ := e.replacement_eq
  obtain ⟨letter, parts, hyphen⟩ := writable.selector (Component.isWord_of_normalizeName accepted)
  obtain ⟨span_eq, -⟩ := of_ofSelection e.selected e.planned
  have errorless : (Markup.parse e.source e.url).hasErrors = false := by
    rw [hasErrors_eq_false_iff, clean]
    exact harmless_nil
  have held : ∀ root ∈ e.roots, e.template.Contains root := fun _ member => contains_root member
  have cut := e.cut_span
  have enclosed := enclosed_of_select e.selected span_eq
  rw [span_eq'] at cut enclosed
  refine ⟨_, applied_eq, hasErrors_eq_false_iff.mpr ?_⟩
  rw [tag_eq, Component.invocationTag_eq]
  exact harmless_parse_substituted source_eq clean cut.1 cut.2 enclosed letter parts hyphen
    (Component.readable_assignments errorless held quotable)
    (Component.harmless_readAllAt (Component.harmless_assignments errorless held)) url

/-- The second item of a list, which has no end tag of its own. -/
theorem errorless_applied_item : ∃ e : Success,
    e.source = "<ul><li>a<li (b)=\"c('d')\">\x7b\x7be\x7d\x7d</ul>".toList ∧ e.start = 9 ∧
      e.stop = 31 ∧ (Markup.parse e.source e.url).diagnostics = [] ∧ e.settings.Writable ∧
      Component.Quotable e.template e.scan ∧
      ∃ applied, e.plan.applyTo? e.source = some applied ∧
        (Markup.parse applied []).hasErrors = false := by
  let source : Text := "<ul><li>a<li (b)=\"c('d')\">\x7b\x7be\x7d\x7d</ul>".toList
  have clean : (Markup.parse source []).diagnostics = [] := by decide +kernel
  have passed : (select (Markup.parse source []).template 9 31).toOption.any (fun roots =>
      let found := Fragment.scan (Markup.parse source []).template roots {}
      (ofSelection source [] 9 31 ['A'] {} {}).isOk &&
        (Component.inputs found.bindings).all (fun field => decide field.body.Quotable) &&
        (Component.forwarded found.handlers).all fun entry =>
          decide ((Markup.parse source []).template.text entry.1.action).Quotable) = true := by
    decide +kernel
  cases selected : select (Markup.parse source []).template 9 31 with
  | error problem =>
    rw [selected] at passed
    exact absurd passed (by simp [Except.toOption])
  | ok roots =>
    cases planned : ofSelection source [] 9 31 ['A'] {} {} with
    | error problem =>
      rw [selected, planned] at passed
      exact absurd passed (by simp [Except.toOption, Except.isOk, Except.toBool])
    | ok plan =>
      let e : Success := ⟨source, [], 9, 31, ['A'], {}, {}, roots, plan, selected, planned⟩
      simp only [selected, Except.toOption, Option.any_some, Bool.and_eq_true, List.all_eq_true,
        decide_eq_true_eq] at passed
      have quotable : Component.Quotable e.template e.scan := ⟨passed.1.2, passed.2⟩
      have writable : e.settings.Writable := Component.Settings.writable_default
      exact ⟨e, rfl, rfl, rfl, clean, writable, quotable,
        errorless_applied clean writable quotable []⟩

/-- A call is passed in single quotes, since it holds double quotes. The single quote in
it ends the value, and the last one starts an attribute that no quote ends. -/
theorem not_errorless_applied_quotes : ∃ plan applied,
    (Markup.parse "<i>\x7b\x7b f(\"'\") \x7d\x7d</i>".toList []).diagnostics = [] ∧
      ofSelection "<i>\x7b\x7b f(\"'\") \x7d\x7d</i>".toList [] 0 19 ['A'] {} {} = .ok plan ∧
      plan.applyTo? "<i>\x7b\x7b f(\"'\") \x7d\x7d</i>".toList = some applied ∧
      applied = "<app-a [f]='f(\"'\")'></app-a>".toList ∧
      (Markup.parse applied []).hasErrors = true := by
  let source : Text := "<i>\x7b\x7b f(\"'\") \x7d\x7d</i>".toList
  have clean : (Markup.parse source []).diagnostics = [] := by decide +kernel
  have passed : ((ofSelection source [] 0 19 ['A'] {} {}).toOption.bind fun plan =>
      plan.applyTo? source) = some "<app-a [f]='f(\"'\")'></app-a>".toList := by
    decide +kernel
  cases planned : ofSelection source [] 0 19 ['A'] {} {} with
  | error problem =>
    rw [planned] at passed
    exact absurd passed (by simp [Except.toOption])
  | ok plan =>
    rw [planned] at passed
    exact ⟨plan, _, clean, rfl, passed, rfl, by decide +kernel⟩

end Extraction.Success

end ComponentExtraction
