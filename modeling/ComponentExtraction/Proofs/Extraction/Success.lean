import ComponentExtraction.Proofs.Component.Candidate
import ComponentExtraction.Proofs.Extraction.Stages
import ComponentExtraction.Proofs.Fragment.Selection
import ComponentExtraction.Proofs.Markup.Shape

/-!
# Extractions that succeed

`Extraction.Success` is an extraction together with the roots that were selected
and the plan that was made of them. Every plan that `Extraction.ofSelection`
returns belongs to one, so a statement about all successes is a statement about
all plans. What the plan takes over from the scan of its fragment is a lemma for
each field.
-/

namespace ComponentExtraction

open Fragment

namespace Extraction

/-- An extraction that succeeds, with the fragment and the plan
it leads to. What is proved of plans is proved of these. -/
structure Success where
  source : Text
  url : Text
  start : Nat
  stop : Nat
  name : Text
  host : Symbols.Table
  settings : Component.Settings
  roots : List Occurrence
  plan : Plan
  selected : select (Markup.parse source url).template start stop = .ok roots
  planned : ofSelection source url start stop name host settings = .ok plan

namespace Success

variable (e : Success)

def template : Template :=
  (Markup.parse e.source e.url).template

def scan : Scan :=
  Fragment.scan e.template e.roots e.host

def scope : Symbols.Scope :=
  scopeOf e.roots e.host

/-- The edits that make the template of the new component. -/
def Edits (edits : List Edit) : Prop :=
  Component.templateEdits e.template e.scan.bindings = .ok edits ∧
    Component.editedRoots? e.template.source edits e.roots = some e.plan.templateText

theorem shaped : Node.Every Node.Shaped e.template.root :=
  Markup.shaped_parse e.source e.url

variable {e}

theorem contains_root {root : Occurrence} (member : root ∈ e.roots) : e.template.Contains root :=
  (isRun_of_select (Markup.sound_parse e.source e.url) e.selected).1.contains root member

variable (e)

/-- The plan is made of the roots that were selected, under the name that was
accepted. -/
theorem exists_isPlanOf : ∃ name span, Component.normalizeName e.name = .ok name ∧
    spanOf? e.roots = some span ∧
    e.plan.IsPlanOf e.template e.roots name span e.host e.settings := by
  obtain ⟨roots, selected, -, planned⟩ := ofSelection_eq_ok_iff.mp e.planned
  cases e.selected.symm.trans selected
  exact ofRoots_eq_ok_iff.mp planned

/-- The template of a plan is what its fragment is rendered to. -/
theorem rendered :
    Component.templateText e.template e.roots e.scan.bindings = .ok e.plan.templateText := by
  obtain ⟨name, span, -, -, isPlan⟩ := e.exists_isPlanOf
  exact isPlan.template

theorem exists_edits : ∃ edits, e.Edits edits :=
  Component.templateText_eq_ok_iff.mp e.rendered

theorem inputs_eq : e.plan.inputs = Component.inputs e.scan.bindings := by
  obtain ⟨name, span, -, -, isPlan⟩ := e.exists_isPlanOf
  exact isPlan.inputs

theorem events_eq : e.plan.events = (Component.forwarded e.scan.handlers).map Prod.snd := by
  obtain ⟨name, span, -, -, isPlan⟩ := e.exists_isPlanOf
  exact isPlan.events

theorem tag_eq : e.plan.invocationText =
    Component.invocationTag e.template e.settings e.plan.kebabName e.scan := by
  obtain ⟨name, span, -, -, isPlan⟩ := e.exists_isPlanOf
  exact isPlan.tag

theorem class_eq : e.plan.classText =
    Component.classText e.settings e.plan.className e.plan.kebabName e.scan := by
  obtain ⟨name, span, -, -, isPlan⟩ := e.exists_isPlanOf
  exact isPlan.class_

theorem replacement_eq : ∃ name, Component.normalizeName e.name = .ok name ∧
    e.plan.edit.replacement =
      Component.invocationTag e.template e.settings (Component.kebab name) e.scan := by
  obtain ⟨name, span, accepted, -, isPlan⟩ := e.exists_isPlanOf
  refine ⟨name, accepted, ?_⟩
  rw [isPlan.edit, isPlan.tag, isPlan.kebabName]
  rfl

theorem built : ∀ b ∈ e.scan.bindings, b.Built e.template e.scope :=
  fun _ member => built_of_mem_bindings (fun _ selected => contains_root selected) member

def holder? (name : Text) : Option Component.Candidate :=
  Component.holder? e.template e.scope e.scan.bindings name

variable {e}

theorem mem_inputs_iff {field : InputField} : field ∈ e.plan.inputs ↔
    ∃ origin, e.holder? field.name = some ⟨field, origin⟩ := by
  rw [e.inputs_eq]
  exact Component.mem_inputs_iff e.built

/-- The input of a name passes the source of the first node asking for the name,
and no other input has the name. -/
theorem input_of_holder? {name : Text} {holder : Component.Candidate}
    (found : e.holder? name = some holder) :
    holder.field ∈ e.plan.inputs ∧ holder.field.name = name ∧
      holder.field.body = e.template.text holder.origin ∧
      ∀ other ∈ e.plan.inputs, other.name = name → other = holder.field := by
  obtain ⟨name_eq, b, -, asks⟩ := Component.of_holder? found
  refine ⟨mem_inputs_iff.mpr ⟨holder.origin, ?_⟩, name_eq,
    Component.body_of_mem_candidates asks, ?_⟩
  · rw [name_eq]
    exact found
  · intro other member name_eq'
    obtain ⟨origin, found'⟩ := mem_inputs_iff.mp member
    rw [name_eq', found] at found'
    cases found'
    rfl

end Success

/-- Every plan that is returned belongs to a success. -/
theorem exists_success_of_planned {source url name : Text} {start stop : Nat}
    {host : Symbols.Table} {settings : Component.Settings} {plan : Plan}
    (planned : ofSelection source url start stop name host settings = .ok plan) :
    ∃ e : Success, e.source = source ∧ e.url = url ∧ e.start = start ∧ e.stop = stop ∧
      e.name = name ∧ e.host = host ∧ e.settings = settings ∧ e.plan = plan := by
  obtain ⟨roots, selected, -, -⟩ := ofSelection_eq_ok_iff.mp planned
  exact ⟨⟨_, _, _, _, _, _, _, roots, _, selected, planned⟩, rfl, rfl, rfl, rfl, rfl, rfl, rfl, rfl⟩

/-- Whether a whole source is extracted with the default settings and the outcome
passes a test. -/
def succeedsWith (source : Text) (host : Symbols.Table)
    (test : Template → Symbols.Scope → List Occurrence → Plan → Bool) : Bool :=
  match select (Markup.parse source []).template 0 source.byteLength,
      ofSelection source [] 0 source.byteLength ['A'] host {} with
  | .ok roots, .ok plan =>
    test (Markup.parse source []).template (scopeOf roots host) roots plan
  | _, _ => false

theorem exists_success {source : Text} {host : Symbols.Table}
    {test : Template → Symbols.Scope → List Occurrence → Plan → Bool}
    (passed : succeedsWith source host test = true) :
    ∃ e : Success, e.source = source ∧ e.host = host ∧
      test e.template e.scope e.roots e.plan = true := by
  unfold succeedsWith at passed
  split at passed
  · next roots plan selected planned =>
    exact ⟨⟨_, _, _, _, _, _, _, _, _, selected, planned⟩, rfl, rfl, passed⟩
  · exact absurd passed (by simp)

end Extraction

end ComponentExtraction
