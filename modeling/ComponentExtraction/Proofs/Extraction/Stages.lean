import ComponentExtraction.Extraction.Plan

/-!
# The stages of an extraction

An extraction selects nodes, refuses them for an error among them, checks the name
of the component, and renders its template by edits that are made one binding at a
time. Each stage hands its result to the next one or ends the extraction with an
error. What a stage can return is said here once for results and once for errors,
and proofs about extractions take these facts and leave the functions closed.
-/

namespace ComponentExtraction

open Fragment

namespace Fragment.Binding

variable {t : Template} {b : Binding}

theorem exposedField_eq_ok_iff {field : InputField} :
    b.exposedField t = .ok field ↔ b.fields.head? = some field := by
  rw [exposedField]
  cases b.fields with
  | nil => simp
  | cons first rest => rw [List.head?_cons, Except.ok.injEq, Option.some.injEq]

theorem exposedField_eq_error_iff {e : ExtractionError} : b.exposedField t = .error e ↔
    b.fields = [] ∧ e = .twoWayBindingWithoutField (t.text b.owner) := by
  rw [exposedField]
  cases b.fields with
  | nil => simp [eq_comm]
  | cons first rest => simp

end Fragment.Binding

namespace Component

variable {t : Template} {roots : List Occurrence} {b : Binding} {bindings : List Binding}
variable {edits : List Edit} {e : ExtractionError}

theorem changeEdit?_of_one_way (oneWay : b.bananaBox = none) : changeEdit? t b = .ok none := by
  rw [changeEdit?, oneWay]

/-- A two-way binding is edited under the name of its first field. -/
theorem changeEdit?_eq_ok_iff {box : Occurrence} {property : Text} {edit : Option Edit}
    (bananaBox : b.bananaBox = some box) (boxed : box.kind = .bananaBox property) :
    changeEdit? t b = .ok edit ↔ ∃ field, b.fields.head? = some field ∧
      edit = some (Edit.insertion box.span.stop (changeHandler property field.name)) := by
  simp only [changeEdit?, bananaBox, boxed]
  simp only [← Binding.exposedField_eq_ok_iff (t := t)]
  cases b.exposedField t with
  | error e => simp
  | ok field => simp [eq_comm]

/-- Only a two-way binding without a field cannot be edited. -/
theorem changeEdit?_eq_error_iff : changeEdit? t b = .error e ↔
    b.bananaBox ≠ none ∧ b.fields = [] ∧ e = .twoWayBindingWithoutField (t.text b.owner) := by
  rw [changeEdit?, ← Binding.exposedField_eq_error_iff]
  cases b.bananaBox with
  | none => simp
  | some box =>
    cases b.exposedField t with
    | error problem => simp
    | ok field =>
      dsimp only
      split <;> simp

theorem changeEdits_cons_eq_ok_iff : changeEdits t (b :: bindings) = .ok edits ↔
    ∃ edit later, changeEdit? t b = .ok edit ∧ changeEdits t bindings = .ok later ∧
      edits = edit.toList ++ later := by
  rw [changeEdits]
  cases changeEdit? t b with
  | error problem => simp
  | ok edit =>
    cases changeEdits t bindings with
    | error problem => simp
    | ok later => simp [eq_comm]

theorem changeEdits_cons_eq_error_iff : changeEdits t (b :: bindings) = .error e ↔
    changeEdit? t b = .error e ∨
      ∃ edit, changeEdit? t b = .ok edit ∧ changeEdits t bindings = .error e := by
  rw [changeEdits]
  cases changeEdit? t b with
  | error problem => simp
  | ok edit =>
    cases changeEdits t bindings with
    | error problem => simp
    | ok later => simp

/-- The edits of a template are those of its calls and those of its two-way
bindings. -/
theorem templateEdits_eq_ok_iff : templateEdits t bindings = .ok edits ↔ ∃ changes,
    changeEdits t bindings = .ok changes ∧
      edits = (bindings.flatMap Binding.calls).filterMap callEdit? ++ changes := by
  rw [templateEdits]
  cases changeEdits t bindings with
  | error problem => simp
  | ok changes => simp [eq_comm]

theorem templateEdits_eq_error_iff :
    templateEdits t bindings = .error e ↔ changeEdits t bindings = .error e := by
  rw [templateEdits]
  cases changeEdits t bindings with
  | error problem => simp
  | ok changes => simp

theorem templateText_eq_ok_iff {text : Text} : templateText t roots bindings = .ok text ↔
    ∃ edits, templateEdits t bindings = .ok edits ∧
      editedRoots? t.source edits roots = some text := by
  rw [templateText]
  cases templateEdits t bindings with
  | error problem => simp
  | ok edits =>
    cases edited : editedRoots? t.source edits roots with
    | none => simp [edited]
    | some text' => simp [edited]

theorem templateText_eq_error_iff : templateText t roots bindings = .error e ↔
    templateEdits t bindings = .error e ∨
      ∃ edits, templateEdits t bindings = .ok edits ∧
        editedRoots? t.source edits roots = none ∧ e = .cutInsideCharacter := by
  rw [templateText]
  cases templateEdits t bindings with
  | error problem => simp
  | ok edits =>
    cases edited : editedRoots? t.source edits roots with
    | none => simp [edited, eq_comm]
    | some text => simp [edited]

end Component

/-- What a plan takes over from its fragment under an accepted name: the tag, the
class, the inputs and the events are computed from one scan, and the template is
the rendering of the roots by its bindings. -/
structure Plan.IsPlanOf (plan : Plan) (t : Template) (roots : List Occurrence) (name : Text)
    (span : Span) (host : Symbols.Table) (settings : Component.Settings) : Prop where
  componentName : plan.componentName = name
  className : plan.className = name ++ "Component".toList
  kebabName : plan.kebabName = Component.kebab name
  selector : plan.selector = settings.selector plan.kebabName
  classFileName : plan.classFileName = settings.classFileName plan.kebabName
  templateFileName : plan.templateFileName = settings.templateFileName plan.kebabName
  tag : plan.invocationText =
    Component.invocationTag t settings plan.kebabName (scan t roots host)
  class_ : plan.classText =
    Component.classText settings plan.className plan.kebabName (scan t roots host)
  template : Component.templateText t roots (scan t roots host).bindings = .ok plan.templateText
  edit : plan.edit = ⟨span, plan.invocationText⟩
  inputs : plan.inputs = Component.inputs (scan t roots host).bindings
  events : plan.events = (Component.forwarded (scan t roots host).handlers).map Prod.snd

namespace Extraction

variable {t : Template} {roots : List Occurrence} {source url name : Text} {start stop : Nat}
variable {span : Span} {host : Symbols.Table} {settings : Component.Settings} {plan : Plan}
variable {e : ExtractionError}

theorem assemble_eq_ok_iff : assemble t roots name span host settings = .ok plan ↔
    plan.IsPlanOf t roots name span host settings := by
  rw [assemble]
  cases rendered : Component.templateText t roots (scan t roots host).bindings with
  | error problem =>
    refine ⟨fun failed => absurd failed (by simp), fun isPlan => ?_⟩
    exact absurd (isPlan.template.symm.trans rendered) (by simp)
  | ok text =>
    constructor
    · intro planned
      cases planned
      exact ⟨rfl, rfl, rfl, rfl, rfl, rfl, rfl, rfl, rendered, rfl, rfl, rfl⟩
    · rintro ⟨rfl, className_eq, kebab_eq, selector_eq, classFile_eq, templateFile_eq, tag_eq,
        class_eq, template_eq, edit_eq, inputs_eq, events_eq⟩
      cases rendered.symm.trans template_eq
      rw [← className_eq, ← kebab_eq, ← class_eq, ← tag_eq, ← edit_eq, ← inputs_eq, ← events_eq,
        ← selector_eq, ← classFile_eq, ← templateFile_eq]

/-- A plan fails for the template that it renders and for nothing else. -/
theorem assemble_eq_error_iff : assemble t roots name span host settings = .error e ↔
    Component.templateText t roots (scan t roots host).bindings = .error e := by
  rw [assemble]
  cases Component.templateText t roots (scan t roots host).bindings with
  | error problem => simp
  | ok text => simp

theorem ofRoots_eq_ok_iff : ofRoots t roots name host settings = .ok plan ↔
    ∃ accepted span, Component.normalizeName name = .ok accepted ∧ spanOf? roots = some span ∧
      plan.IsPlanOf t roots accepted span host settings := by
  rw [ofRoots]
  cases Component.normalizeName name with
  | error problem => simp
  | ok accepted =>
    cases spanOf? roots with
    | none => simp
    | some span => simp [assemble_eq_ok_iff]

/-- The name, an empty selection and the template are what a run of roots can fail for. -/
theorem ofRoots_eq_error_iff : ofRoots t roots name host settings = .error e ↔
    (∃ problem, Component.normalizeName name = .error problem ∧
      e = .invalidComponentName name problem) ∨
    ∃ accepted, Component.normalizeName name = .ok accepted ∧
      (spanOf? roots = none ∧ e = .emptySelection ∨ ∃ span, spanOf? roots = some span ∧
        Component.templateText t roots (scan t roots host).bindings = .error e) := by
  rw [ofRoots]
  cases Component.normalizeName name with
  | error problem => simp [eq_comm]
  | ok accepted =>
    cases spanOf? roots with
    | none => simp [eq_comm]
    | some span => simp [assemble_eq_error_iff]

theorem ofSelection_eq_ok_iff :
    ofSelection source url start stop name host settings = .ok plan ↔
      ∃ roots, select (Markup.parse source url).template start stop = .ok roots ∧
        blockingError? (Markup.parse source url) roots = none ∧
        ofRoots (Markup.parse source url).template roots name host settings = .ok plan := by
  rw [ofSelection]
  cases select (Markup.parse source url).template start stop with
  | error problem => simp
  | ok roots =>
    cases blocked : blockingError? (Markup.parse source url) roots with
    | none => simp [blocked]
    | some problem => simp [blocked]

theorem ofSelection_eq_error_iff :
    ofSelection source url start stop name host settings = .error e ↔
      select (Markup.parse source url).template start stop = .error e ∨
      ∃ roots, select (Markup.parse source url).template start stop = .ok roots ∧
        (blockingError? (Markup.parse source url) roots = some e ∨
          blockingError? (Markup.parse source url) roots = none ∧
            ofRoots (Markup.parse source url).template roots name host settings = .error e) := by
  rw [ofSelection]
  cases select (Markup.parse source url).template start stop with
  | error problem => simp
  | ok roots =>
    cases blocked : blockingError? (Markup.parse source url) roots with
    | none => simp [blocked]
    | some problem => simp [blocked]

end Extraction

end ComponentExtraction
