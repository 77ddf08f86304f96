import ComponentExtraction.Proofs.Component.Candidate
import ComponentExtraction.Proofs.Component.Name
import ComponentExtraction.Proofs.Fragment.Calls
import ComponentExtraction.Proofs.Markup.Reuse
import ComponentExtraction.Proofs.Markup.Written

/-!
# The tag that stands for a fragment

The tag of a new component is an element without content. Its name is made of a
prefix and a component name, and its attributes pass what was found in a template
without errors: names that are words, and expressions that can be used again. So
the tag reads back as what it was made of (`parse_invocationTag`), as long as every
value can stand in quotes.
-/

namespace ComponentExtraction

open Diagnostic Fragment Markup

namespace Component

theorem isWord_of_normalizeName {name normalized : Text}
    (accepted : normalizeName name = .ok normalized) : normalized.IsWord :=
  (normal_of_normalizeName accepted).identifier.isWord

theorem isNamePart_of_mem_kebab {name : Text} (word : name.IsWord) :
    ∀ c ∈ kebab name, isNamePart c = true := by
  obtain ⟨nonempty, parts⟩ := word
  have lower : ∀ c ∈ name, isNamePart c.toLower = true := by
    intro c member
    exact (Text.of_isIdentifierPart (Text.of_isIdentifierPart (parts c member)).2.1).1
  cases name with
  | nil => exact absurd rfl nonempty
  | cons first rest =>
    refine List.forall_mem_cons.mpr ⟨lower first List.mem_cons_self, ?_⟩
    intro c member
    obtain ⟨original, found, member⟩ := List.mem_flatMap.mp member
    split at member
    · rcases List.mem_pair.mp member with rfl | rfl
      · decide
      · exact lower original (List.mem_cons_of_mem first found)
    · rw [List.mem_singleton.mp member]
      exact (Text.of_isIdentifierPart (parts original (List.mem_cons_of_mem first found))).1

/-- Settings whose selectors can be written as tags: the prefix starts with a letter
and goes on as names of tags do. -/
structure Settings.Writable (settings : Settings) : Prop where
  begins : startsTagName settings.selectorPrefix = true
  parts : ∀ c ∈ settings.selectorPrefix, Text.isNameEnd c = false

theorem Settings.Writable.selector {settings : Settings} (writable : settings.Writable)
    {name : Text} (word : name.IsWord) :
    startsTagName (settings.selector (kebab name)) = true ∧
      (∀ c ∈ settings.selector (kebab name), isNamePart c = true) ∧
      '-' ∈ settings.selector (kebab name) := by
  have nonempty : settings.selectorPrefix.isEmpty = false := by
    cases empty : settings.selectorPrefix with
    | nil => exact absurd writable.begins (by rw [empty]; decide)
    | cons first rest => rfl
  have selector_eq : settings.selector (kebab name) =
      settings.selectorPrefix ++ '-' :: kebab name := by
    rw [Settings.selector, nonempty]
    rfl
  rw [selector_eq]
  refine ⟨startsTagName_append writable.begins, List.forall_mem_append.mpr ⟨?_, ?_⟩, by simp⟩
  · intro c member
    rw [isNamePart, writable.parts c member]
    rfl
  · exact List.forall_mem_cons.mpr ⟨by decide, isNamePart_of_mem_kebab word⟩

section

variable {source url : Text} {roots : List Occurrence} {host : Symbols.Table}

/-- A value read in a mode holds no error wherever it is put. -/
def ReadsBack (mode : Expression.Mode) (value : Text) : Prop :=
  ∀ offset, Harmless (Expression.parse mode offset value).2

theorem readsBack_text {t : Template} {o : Occurrence} {mode : Expression.Mode}
    (reads : o.node.ReadsBack t.source mode) : ReadsBack mode (t.text o) := by
  obtain ⟨text, text_eq, harmless⟩ := reads
  have : t.text o = text := by
    rw [Template.text, Template.textAt, Occurrence.span, text_eq]
    rfl
  rw [this]
  exact harmless

theorem isWord_of_calleeName? {t : Template} {o : Occurrence} {name : Text}
    (reusable : Node.Everywhere (Node.Reusable t.source) t.root) (held : t.Contains o)
    (named : o.node.calleeName? = some name) : name.IsWord := by
  obtain ⟨found, -⟩ := Option.filter_eq_some_iff.mp named
  obtain ⟨callee, callee_eq, found⟩ := Option.bind_eq_some_iff.mp found
  unfold Node.callee? at callee_eq
  split at callee_eq
  · have member := List.mem_of_mem_head? callee_eq
    exact ((reusable.of_contains held).of_mem_children callee member).here.named name found
  · exact absurd callee_eq (by simp)

/-- The inputs of a fragment have words for names, and what they pass can be used in
the host. -/
theorem of_mem_inputs (clean : (Markup.parse source url).hasErrors = false)
    (held : ∀ root ∈ roots, (Markup.parse source url).template.Contains root) {field : InputField}
    (member : field ∈ inputs (scan (Markup.parse source url).template roots host).bindings) :
    field.name.IsWord ∧ ReadsBack .binding field.body := by
  have reusable := reusable_parse source url clean
  have shaped := shaped_parse source url
  obtain ⟨origin, found⟩ := (mem_inputs_iff fun _ => built_of_mem_bindings held).mp member
  obtain ⟨-, b, bound, asks⟩ := of_holder? found
  have built := built_of_mem_bindings held bound
  have body_eq := body_of_mem_candidates asks
  have passed : (Markup.parse source url).template.Contains origin → origin.Below b.owner →
      origin.kind.isReference = true ∨ origin.kind.isCall = true → ReadsBack .binding field.body := by
    intro contained below chain
    have bound := (reusable.of_contains built.contains).here.bound built.owner
    rw [body_eq]
    exact readsBack_text
      ((Node.Everywhere.of_below bound contained built.contains below).here chain)
  rcases mem_candidates_iff.mp asks with ⟨listed, asked⟩ | ⟨listed, asked⟩
  · rw [built.references_eq] at listed
    obtain ⟨below, bindable⟩ := of_mem_topLevelReferences shaped built.contains listed
    obtain ⟨contained, below⟩ := (Occurrence.mem_descendants_iff built.contains).mp below
    refine ⟨?_, passed contained below (.inl (isReference_of_isBindable bindable))⟩
    obtain ⟨q, asked, resolved⟩ := of_referenceField? asked
    obtain ⟨name, named, rfl⟩ := Option.map_eq_some_iff.mp asked
    rw [(of_queryField? resolved).1]
    exact (reusable.of_contains contained).here.named name named
  · rw [built.calls_eq] at listed
    obtain ⟨contained, call, below, -⟩ := of_mem_topLevelCalls built.contains listed
    exact ⟨isWord_of_calleeName? reusable contained (of_callField? asked).1,
      passed contained below (.inr call)⟩

/-- The handlers that a fragment forwards have words for names, and the host can run
them. -/
theorem of_mem_forwarded (clean : (Markup.parse source url).hasErrors = false)
    (held : ∀ root ∈ roots, (Markup.parse source url).template.Contains root)
    {entry : Handler × Text}
    (member : entry ∈ forwarded (scan (Markup.parse source url).template roots host).handlers) :
    entry.2.IsWord ∧ ReadsBack .action ((Markup.parse source url).template.text entry.1.action) := by
  have reusable := reusable_parse source url clean
  obtain ⟨h, listed, entry_eq⟩ := List.mem_filterMap.mp (Sequence.mem_of_mem_distinctBy member)
  obtain ⟨name, named, rfl⟩ := Option.map_eq_some_iff.mp entry_eq
  obtain ⟨root, selected, listed⟩ := List.mem_flatMap.mp (Sequence.mem_of_mem_distinctBy listed)
  obtain ⟨o, below, found⟩ := List.mem_filterMap.mp listed
  have contained := Occurrence.contains_of_mem_descendants (held root selected) below
  unfold handler? at found
  split at found
  · next event kind_eq =>
    obtain ⟨action, action_eq, rfl⟩ := Option.map_eq_some_iff.mp found
    obtain ⟨child, action_kind⟩ := of_attributeExpression? action_eq
    have held_action := Occurrence.contains_of_mem_children contained child
    constructor
    · obtain ⟨call, call_eq, named⟩ := Option.bind_eq_some_iff.mp named
      have call_below := List.mem_of_find?_eq_some call_eq
      exact isWord_of_calleeName? reusable
        (Occurrence.contains_of_mem_descendants held_action call_below) named
    · obtain ⟨position, child, -⟩ := Occurrence.mem_children_iff.mp child
      exact readsBack_text ((reusable.of_contains contained).here.handled event kind_eq action.node
        (List.mem_of_getElem? child) action_kind)
  · exact absurd found (by simp)

end

def inputAssignment (field : InputField) : Assignment :=
  ⟨if field.isTwoWay then "[(".toList ++ field.name ++ ")]".toList
    else "[".toList ++ field.name ++ "]".toList, field.body⟩

def eventAssignment (t : Template) (entry : Handler × Text) : Assignment :=
  ⟨"(".toList ++ entry.2 ++ ")".toList, t.text entry.1.action⟩

def assignments (t : Template) (scan : Scan) : List Assignment :=
  (inputs scan.bindings).map inputAssignment ++ (forwarded scan.handlers).map (eventAssignment t)

theorem invocationTag_eq (t : Template) (settings : Settings) (kebab : Text) (scan : Scan) :
    invocationTag t settings kebab scan =
      elementText (settings.selector kebab) (assignments t scan) := by
  have inputs_eq : ∀ field, inputAttribute field = (inputAssignment field).written := by
    intro field
    cases direction : field.isTwoWay <;>
      simp [inputAttribute, inputAssignment, Assignment.written, direction]
  have events_eq : ∀ entry : Handler × Text, eventAttribute entry.2 (t.text entry.1.action) =
      (eventAssignment t entry).written := by
    intro entry
    simp [eventAttribute, eventAssignment, Assignment.written]
  simp only [invocationTag, elementText, assignments, List.flatMap_append, List.flatMap_map,
    funext inputs_eq, events_eq, List.append_assoc]

/-- Every value that the tag passes can stand in quotes. -/
structure Quotable (t : Template) (scan : Scan) : Prop where
  bodies : ∀ field ∈ inputs scan.bindings, field.body.Quotable
  handlers : ∀ entry ∈ forwarded scan.handlers, (t.text entry.1.action).Quotable

theorem readable_between {opening name closing value : Text} (word : name.IsWord)
    (quotable : value.Quotable) (opens : ∀ c ∈ opening, isNamePart c = true)
    (closes : ∀ c ∈ closing, isNamePart c = true) :
    Assignment.Readable ⟨opening ++ name ++ closing, value⟩ := by
  refine ⟨by simp [word.1], ?_, quotable⟩
  refine List.forall_mem_append.mpr ⟨List.forall_mem_append.mpr ⟨opens, ?_⟩, closes⟩
  intro c member
  exact (Text.of_isIdentifierPart (word.2 c member)).1

theorem readable_input {field : InputField} (word : field.name.IsWord)
    (quotable : field.body.Quotable) : (inputAssignment field).Readable := by
  unfold inputAssignment
  split
  · exact readable_between word quotable (List.all_eq_true.mp (by decide))
      (List.all_eq_true.mp (by decide))
  · exact readable_between word quotable (List.all_eq_true.mp (by decide))
      (List.all_eq_true.mp (by decide))

theorem classify_input {field : InputField} (word : field.name.IsWord) :
    classify (inputAssignment field).name =
      (if field.isTwoWay then .bananaBox field.name else .propertyBinding field.name, .binding) := by
  unfold inputAssignment
  split
  · exact classify_twoWay word.1
  · refine classify_oneWay word.1 fun bracket => ?_
    exact absurd (word.2 _ bracket) (by decide)

section

variable {source url : Text} {roots : List Occurrence} {host : Symbols.Table}

/-- The attributes of a tag that passes what a template without errors holds can be
read again. -/
theorem readable_assignments (clean : (Markup.parse source url).hasErrors = false)
    (held : ∀ root ∈ roots, (Markup.parse source url).template.Contains root)
    (quotable : Quotable (Markup.parse source url).template
      (scan (Markup.parse source url).template roots host)) :
    ∀ a ∈ assignments (Markup.parse source url).template
      (scan (Markup.parse source url).template roots host), a.Readable := by
  refine List.forall_mem_append.mpr ⟨List.forall_mem_map.mpr ?_, List.forall_mem_map.mpr ?_⟩
  · intro field member
    exact readable_input (of_mem_inputs clean held member).1 (quotable.bodies field member)
  · intro entry member
    exact readable_between (of_mem_forwarded clean held member).1
      (quotable.handlers entry member) (List.all_eq_true.mp (by decide))
      (List.all_eq_true.mp (by decide))

/-- The tag reads back as what it was made of: one element named by the selector,
whose attributes pass the inputs, in their order, and then handle the events. -/
theorem parse_invocationTag {settings : Settings} {name normalized : Text}
    (clean : (Markup.parse source url).hasErrors = false)
    (held : ∀ root ∈ roots, (Markup.parse source url).template.Contains root)
    (accepted : normalizeName name = .ok normalized) (writable : settings.Writable)
    (quotable : Quotable (Markup.parse source url).template
      (scan (Markup.parse source url).template roots host)) (url' : Text) :
    let t := (Markup.parse source url).template
    let found := scan t roots host
    let tag := invocationTag t settings (kebab normalized) found
    ∃ passed handled,
      (Markup.parse tag url').template.root.children =
        [Node.mk (.element (settings.selector (kebab normalized))) ⟨0, tag.byteLength⟩
          (passed ++ handled)] ∧
      List.Forall₂ (fun field => Assigns tag
        (if field.isTwoWay then .bananaBox field.name else .propertyBinding field.name) .binding
        field.body) (inputs found.bindings) passed ∧
      List.Forall₂ (fun entry => Assigns tag (.event entry.2) .action (t.text entry.1.action))
        (forwarded found.handlers) handled := by
  intro t found tag
  obtain ⟨letter, parts, hyphen⟩ := writable.selector (isWord_of_normalizeName accepted)
  have readable := readable_assignments clean held quotable
  have tag_eq : tag = elementText (settings.selector (kebab normalized)) (assignments t found) :=
    invocationTag_eq t settings (kebab normalized) found
  have children_eq := children_parse_elementText letter parts hyphen readable url'
  rw [← tag_eq, assignments, Assignment.readAllAt_append, List.map_append] at children_eq
  obtain ⟨readable_inputs, readable_events⟩ := List.forall_mem_append.mp readable
  have stands := standsAt_elementText (settings.selector (kebab normalized)) (assignments t found)
  rw [← tag_eq, assignments, List.flatMap_append] at stands
  refine ⟨_, _, children_eq, ?_, ?_⟩
  · have words : ∀ field ∈ inputs found.bindings, field.name.IsWord := fun field member =>
      (of_mem_inputs clean held member).1
    have read := List.forall₂_map_left_iff.mp (readFrom_readAllAt readable_inputs stands.front)
    refine ((List.forall₂_and_left _ _).mpr ⟨words, read⟩).imp ?_
    rintro field node ⟨word, read⟩
    exact read.assigns (.inl ⟨classify_input word, rfl⟩)
  · have words : ∀ entry ∈ forwarded found.handlers, entry.2.IsWord := fun entry member =>
      (of_mem_forwarded clean held member).1
    have behind := stands.within (c := []) (List.append_nil _).symm rfl
    have read := List.forall₂_map_left_iff.mp (readFrom_readAllAt readable_events behind)
    refine ((List.forall₂_and_left _ _).mpr ⟨words, read⟩).imp ?_
    rintro entry node ⟨word, read⟩
    exact read.assigns (.inr ⟨classify_event word.1, rfl⟩)

end

/-- A two-way input, a one-way input and a handler with double quotes in it. -/
theorem parse_invocationTag_handler :
    let t := (Markup.parse "<i [(a)]=b (c)='d(\"x>y\")'>\x7b\x7be\x7d\x7d</i>".toList []).template
    let found := scan t t.top.children {}
    let tag := invocationTag t {} (kebab ['A']) found
    tag = "<app-a [(b)]=\"b\" [e]=\"e\" (d)='d(\"x>y\")'></app-a>".toList ∧
      ∃ passed handled,
        (Markup.parse tag []).template.root.children =
          [Node.mk (.element "app-a".toList) ⟨0, 48⟩ (passed ++ handled)] ∧
        List.Forall₂ (fun field => Assigns tag
          (if field.isTwoWay then .bananaBox field.name else .propertyBinding field.name) .binding
          field.body) (inputs found.bindings) passed ∧
        List.Forall₂ (fun entry => Assigns tag (.event entry.2) .action (t.text entry.1.action))
          (forwarded found.handlers) handled := by
  intro t found tag
  have tag_eq : tag = "<app-a [(b)]=\"b\" [e]=\"e\" (d)='d(\"x>y\")'></app-a>".toList := by
    decide +kernel
  have top : t.Contains t.top := rfl
  have held : ∀ root ∈ t.top.children, t.Contains root := fun root member =>
    Occurrence.contains_of_mem_children top member
  have accepted : normalizeName ['a'] = .ok ['A'] := rfl
  have writable : Settings.Writable {} := ⟨by decide, fun c member => by
    have parts : "app".toList.all (!Text.isNameEnd ·) = true := by decide
    simpa using List.all_eq_true.mp parts c member⟩
  have quotable : Quotable t found := ⟨by decide +kernel, by decide +kernel⟩
  have read := parse_invocationTag (by decide +kernel) held accepted writable quotable []
  refine ⟨tag_eq, ?_⟩
  have length_eq : tag.byteLength = 48 := by rw [tag_eq]; rfl
  obtain ⟨passed, handled, children_eq, bodies, handlers⟩ := read
  exact ⟨passed, handled, length_eq ▸ children_eq, bodies, handlers⟩

end Component

end ComponentExtraction
