import ComponentExtraction.Proofs.Extraction.Success

/-!
# Two-way bindings of a new component

A two-way binding of the fragment gets a handler in the new template that emits
under the name of an input. For the change to reach the host, the plan must have
the input as a two-way one: the class then declares the output and the tag binds
both directions. The handler is named after the first field of its own binding,
the inputs are chosen among all bindings, so the two agree exactly when the node
that the name's input comes from is a reference. A call gives a one-way input
and leaves the handler without an output.
-/

namespace ComponentExtraction

open Fragment

/-- The parts of a plan agree on a name that is bound in both directions: it is an
input of both directions, the class emits its changes, and the tag binds it so. -/
structure Plan.WiresBothWays (plan : Plan) (name : Text) : Prop where
  input : ∃ field ∈ plan.inputs, field.name = name ∧ field.isTwoWay = true
  output : "@Output() ".toList ++ name ++ "Change = new EventEmitter<".toList <:+: plan.classText
  tag : " [(".toList ++ name ++ ")]=".toList <:+: plan.invocationText

namespace Component

variable {t : Template} {scope : Symbols.Scope} {b : Binding} {bindings : List Binding}

/-- The inputs of two-way bindings are looked for first. -/
theorem holder?_of_isTwoWay {c : Candidate} (member : b ∈ bindings) (twoWay : b.isTwoWay = true)
    (asks : c ∈ candidates t scope b) :
    ∃ holder, holder? t scope bindings c.field.name = some holder ∧
      ∃ b' ∈ bindings, b'.isTwoWay = true ∧ holder ∈ candidates t scope b' := by
  have listed : c ∈ (bindings.filter Binding.isTwoWay).flatMap (candidates t scope) :=
    List.mem_flatMap.mpr ⟨b, List.mem_filter.mpr ⟨member, twoWay⟩, asks⟩
  cases found : ((bindings.filter Binding.isTwoWay).flatMap (candidates t scope)).find?
      fun other => other.field.name = c.field.name with
  | none => exact absurd (List.find?_eq_none.mp found c listed) (by simp)
  | some holder =>
    refine ⟨holder, by simp [holder?, twoWayFirst, List.find?_append, found], ?_⟩
    obtain ⟨b', member', asks'⟩ := List.mem_flatMap.mp (List.mem_of_find?_eq_some found)
    obtain ⟨member', twoWay'⟩ := List.mem_filter.mp member'
    exact ⟨b', member', twoWay', asks'⟩

/-- In a two-way binding references ask for two-way inputs and calls for one-way
ones. -/
theorem isTwoWay_iff_isReference {c : Candidate} (shaped : Node.Every Node.Shaped t.root)
    (built : b.Built t scope) (twoWay : b.isTwoWay = true) (asks : c ∈ candidates t scope b) :
    c.field.isTwoWay = true ↔ c.origin.kind.isReference = true := by
  rcases mem_candidates_iff.mp asks with ⟨member, found⟩ | ⟨member, found⟩
  · rw [built.references_eq] at member
    have bindable := (of_mem_topLevelReferences shaped built.contains member).2
    simp [referenceField?_body found, twoWay, isReference_of_isBindable bindable]
  · rw [built.calls_eq] at member
    have call := isCall_of_mem_topLevelCalls member
    simp [(of_callField? found).2.2, Kind.isCall_iff.mp call, Kind.isReference]

theorem of_changeEdits {edits : List Edit} (made : changeEdits t bindings = .ok edits)
    (member : b ∈ bindings) :
    ∃ edit, changeEdit? t b = .ok edit ∧ ∀ x ∈ edit, x ∈ edits := by
  induction bindings generalizing edits with
  | nil => exact absurd member List.not_mem_nil
  | cons first bindings ih =>
    obtain ⟨edit, later, edit_eq, later_eq, rfl⟩ := changeEdits_cons_eq_ok_iff.mp made
    rcases List.mem_cons.mp member with rfl | member
    · refine ⟨edit, edit_eq, fun x x_mem => ?_⟩
      exact List.mem_append_left _ (Option.mem_toList.mpr x_mem)
    · obtain ⟨edit', edit'_eq, subset⟩ := ih later_eq member
      exact ⟨edit', edit'_eq, fun x x_mem => List.mem_append_right _ (subset x x_mem)⟩

theorem changeHandler_inj {property name name' : Text}
    (same : changeHandler property name = changeHandler property name') : name = name' := by
  simpa [changeHandler] using same

/-- The edit of a two-way binding puts a handler behind its attribute. -/
theorem exists_name_of_changeEdit? {box : Occurrence} {property : Text} {edit : Option Edit}
    (bananaBox : b.bananaBox = some box) (boxed : box.kind = .bananaBox property)
    (made : changeEdit? t b = .ok edit) :
    ∃ name, edit = some (Edit.insertion box.span.stop (changeHandler property name)) := by
  obtain ⟨field, -, edit_eq⟩ := (changeEdit?_eq_ok_iff bananaBox boxed).mp made
  exact ⟨field.name, edit_eq⟩

/-- The handler of a two-way binding is named after a field of the binding. -/
theorem exists_field_of_changeEdit? {box : Occurrence} {property name : Text}
    (bananaBox : b.bananaBox = some box) (boxed : box.kind = .bananaBox property)
    (made : changeEdit? t b =
      .ok (some (Edit.insertion box.span.stop (changeHandler property name)))) :
    ∃ field ∈ b.fields, field.name = name := by
  obtain ⟨field, first, edit_eq⟩ := (changeEdit?_eq_ok_iff bananaBox boxed).mp made
  simp only [Option.some.injEq, Edit.insertion, Edit.mk.injEq, true_and] at edit_eq
  exact ⟨field, List.mem_of_head? first, (changeHandler_inj edit_eq).symm⟩

theorem classText_eq (settings : Settings) (className kebab : Text) (scan : Scan) :
    ∃ before after, classText settings className kebab scan =
      before ++ (inputs scan.bindings).flatMap (inputMembers settings) ++ after :=
  ⟨_, _, List.append_assoc _ _ _⟩

end Component

namespace Extraction.Success

open Component

variable {e : Success} {root box owner : Occurrence} {property name : Text}

/-- The new template gets a handler behind the attribute of a two-way binding, and
the handler emits under a name. -/
def Emits (e : Success) (box owner : Occurrence) (property name : Text) : Prop :=
  changeEdit? e.template (Binding.build e.template e.scope owner (some box)) =
      .ok (some (Edit.insertion box.span.stop (changeHandler property name))) ∧
    ∃ edits, e.Edits edits ∧ Edit.insertion box.span.stop (changeHandler property name) ∈ edits

theorem mem_bindings_of_bananaBox (selected : root ∈ e.roots) (below : box ∈ root.descendants)
    (boxed : box.kind = .bananaBox property)
    (valued : attributeExpression? .binding box = some owner) :
    Binding.build e.template e.scope owner (some box) ∈ e.scan.bindings := by
  refine (mem_bindings_iff fun _ selected => contains_root selected).mpr ⟨root, selected, ?_⟩
  refine mem_rootBindings_iff.mpr ⟨box, below, .inl ?_⟩
  simp only [attributeBinding?, boxed, valued, Option.map_some]
  rfl

theorem exists_emits (selected : root ∈ e.roots) (below : box ∈ root.descendants)
    (boxed : box.kind = .bananaBox property)
    (valued : attributeExpression? .binding box = some owner) :
    ∃ name, e.Emits box owner property name := by
  obtain ⟨edits, made⟩ := e.exists_edits
  obtain ⟨changes, changes_eq, rfl⟩ := templateEdits_eq_ok_iff.mp made.1
  have member := mem_bindings_of_bananaBox selected below boxed valued
  obtain ⟨edit, edit_eq, subset⟩ := of_changeEdits changes_eq member
  obtain ⟨name, rfl⟩ := exists_name_of_changeEdit? rfl boxed edit_eq
  exact ⟨name, edit_eq, _, made, List.mem_append_right _ (subset _ rfl)⟩

/-- A two-way binding with one field emits under its name. -/
theorem emits_of_fields (selected : root ∈ e.roots) (below : box ∈ root.descendants)
    (boxed : box.kind = .bananaBox property)
    (valued : attributeExpression? .binding box = some owner)
    (only : (Binding.build e.template e.scope owner (some box)).fields.map InputField.name =
      [name]) : e.Emits box owner property name := by
  obtain ⟨name', emits⟩ := exists_emits selected below boxed valued
  obtain ⟨field, member, rfl⟩ := exists_field_of_changeEdit? rfl boxed emits.1
  have listed := List.mem_map_of_mem (f := InputField.name) member
  rw [only, List.mem_singleton] at listed
  exact listed ▸ emits

theorem infix_tag {field : InputField} (member : field ∈ e.plan.inputs) :
    inputAttribute field <:+: e.plan.invocationText := by
  rw [e.inputs_eq] at member
  have inside : inputAttribute field <:+: (inputs e.scan.bindings).flatMap inputAttribute :=
    List.infix_of_mem_flatten (List.mem_map_of_mem member)
  rw [e.tag_eq, invocationTag]
  simp only [List.cons_append, List.append_assoc]
  refine List.infix_cons (List.infix_append_of_infix_right ?_)
  exact List.infix_append_of_infix_left inside

theorem infix_class {field : InputField} (member : field ∈ e.plan.inputs) :
    inputMembers e.settings field <:+: e.plan.classText := by
  rw [e.inputs_eq] at member
  have inside : inputMembers e.settings field <:+:
      (inputs e.scan.bindings).flatMap (inputMembers e.settings) :=
    List.infix_of_mem_flatten (List.mem_map_of_mem member)
  obtain ⟨before, after, text_eq⟩ :=
    classText_eq e.settings e.plan.className e.plan.kebabName e.scan
  rewrite [e.class_eq, text_eq]
  exact inside.trans (List.infix_append _ _ _)

theorem wiresBothWays_of_input {field : InputField} (member : field ∈ e.plan.inputs)
    (twoWay : field.isTwoWay = true) : e.plan.WiresBothWays field.name := by
  refine ⟨⟨field, member, rfl, twoWay⟩, ?_, ?_⟩
  · refine List.IsInfix.trans ?_ (infix_class member)
    refine ⟨e.settings.indent, field.type.getD e.settings.unknownType ++ ">();\n".toList ++
      (e.settings.indent ++ (inputDeclaration field ++ "\n".toList)), ?_⟩
    simp only [inputMembers, twoWay, if_true, List.append_assoc]
  · refine List.IsInfix.trans ?_ (infix_tag member)
    simp only [inputAttribute, twoWay, if_true]
    exact (List.prefix_append _ _).isInfix

/-- A two-way binding is wired through all texts of the plan exactly when the
first node that asks for the name of its handler is a reference. -/
theorem wiresBothWays_iff (selected : root ∈ e.roots) (below : box ∈ root.descendants)
    (boxed : box.kind = .bananaBox property)
    (valued : attributeExpression? .binding box = some owner)
    (emits : e.Emits box owner property name) :
    e.plan.WiresBothWays name ↔
      ∃ holder, e.holder? name = some holder ∧ holder.origin.kind.isReference = true := by
  have member := mem_bindings_of_bananaBox selected below boxed valued
  obtain ⟨field, listed, rfl⟩ := exists_field_of_changeEdit? rfl boxed emits.1
  rw [fields_eq_candidates (e.built _ member)] at listed
  obtain ⟨c, asks, rfl⟩ := List.mem_map.mp (Sequence.mem_of_mem_distinctBy listed)
  obtain ⟨holder, found, b, member', twoWay, asks'⟩ := holder?_of_isTwoWay member rfl asks
  have direction := isTwoWay_iff_isReference e.shaped (e.built b member') twoWay asks'
  obtain ⟨input_mem, name_eq, -, only⟩ := input_of_holder? found
  constructor
  · rintro ⟨⟨input, input_mem', name_eq', isTwoWay⟩, -, -⟩
    cases only input input_mem' name_eq'
    exact ⟨holder, found, direction.mp isTwoWay⟩
  · rintro ⟨holder', found', reference⟩
    cases Option.some.inj (found'.symm.trans found)
    rw [← name_eq]
    exact wiresBothWays_of_input input_mem (direction.mpr reference)

theorem wiresBothWays_reference : ∃ (e : Success) (root box owner : Occurrence),
    e.source = "<i [(a)]=\"f\"></i>".toList ∧ root ∈ e.roots ∧ box ∈ root.descendants ∧
      box.kind = .bananaBox ['a'] ∧ attributeExpression? .binding box = some owner ∧
      e.Emits box owner ['a'] ['f'] ∧ (e.plan.WiresBothWays ['f'] ↔
        ∃ holder, e.holder? ['f'] = some holder ∧ holder.origin.kind.isReference = true) := by
  have passed : succeedsWith "<i [(a)]=\"f\"></i>".toList {} (fun t scope roots _ =>
      roots.any fun root => root.descendants.any fun box =>
        (attributeExpression? .binding box).any fun owner => box.kind == .bananaBox ['a'] &&
          (Binding.build t scope owner (some box)).fields.map InputField.name == [['f']]) =
      true := by
    decide +kernel
  obtain ⟨e, source_eq, -, passed⟩ := exists_success passed
  simp only [List.any_eq_true, Option.any_eq_true, Bool.and_eq_true, beq_iff_eq] at passed
  obtain ⟨root, selected, box, below, owner, valued, boxed, only⟩ := passed
  have emits := emits_of_fields selected below boxed valued only
  exact ⟨e, root, box, owner, source_eq, selected, below, boxed, valued, emits,
    wiresBothWays_iff selected below boxed valued emits⟩

/-- A two-way binding of a call gets a handler that emits under the name of a
one-way input. -/
theorem not_wiresBothWays_call : ∃ (e : Success) (root box owner : Occurrence),
    e.source = "<i [(a)]=\"f()\"></i>".toList ∧ root ∈ e.roots ∧ box ∈ root.descendants ∧
      box.kind = .bananaBox ['a'] ∧ attributeExpression? .binding box = some owner ∧
      e.Emits box owner ['a'] ['f'] ∧
      ¬ ∃ field ∈ e.plan.inputs, field.name = ['f'] ∧ field.isTwoWay = true := by
  have passed : succeedsWith "<i [(a)]=\"f()\"></i>".toList {} (fun t scope roots plan =>
      (roots.any fun root => root.descendants.any fun box =>
        (attributeExpression? .binding box).any fun owner => box.kind == .bananaBox ['a'] &&
          (Binding.build t scope owner (some box)).fields.map InputField.name == [['f']]) &&
        decide (plan.inputs.map InputField.isTwoWay = [false])) = true := by
    decide +kernel
  obtain ⟨e, source_eq, -, passed⟩ := exists_success passed
  simp only [List.any_eq_true, Option.any_eq_true, Bool.and_eq_true, beq_iff_eq,
    decide_eq_true_eq] at passed
  obtain ⟨⟨root, selected, box, below, owner, valued, boxed, only⟩, oneWay⟩ := passed
  have emits := emits_of_fields selected below boxed valued only
  refine ⟨e, root, box, owner, source_eq, selected, below, boxed, valued, emits, ?_⟩
  rintro ⟨field, member, -, twoWay⟩
  have listed := List.mem_map_of_mem (f := InputField.isTwoWay) member
  rw [oneWay, List.mem_singleton] at listed
  exact absurd (twoWay.symm.trans listed) (by simp)

end Extraction.Success

end ComponentExtraction
