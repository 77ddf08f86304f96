import ComponentExtraction.Proofs.Extraction.Success
import ComponentExtraction.Proofs.Fragment.Calls

/-!
# Free names of a new template

A name that the fragment mentions on its own and does not declare has to be an
input of the new component, unless it disappears with a call that is replaced.
References cover what stands outside leading calls, and top-level calls cover
what a leading call calls. Together they cover everything outside argument
lists; arguments of a call that is not replaced, because it has no name or
continues the chain of another call, are left to chance: such a name is an input
exactly if some binding asks for it elsewhere.
-/

namespace ComponentExtraction

open Fragment Component Node

namespace Fragment

variable {t : Template} {scope : Symbols.Scope} {b : Binding} {o root : Occurrence} {name : Text}

/-- A binding asks for an input of a name, by an identifier that can be handed
over or by a call that is replaced. -/
def Binding.AsksFor (t : Template) (b : Binding) (name : Text) : Prop :=
  (∃ o ∈ b.owner.descendants, o.node.identifier? = some name ∧ isBindable t o = true) ∨
    ∃ call ∈ b.calls, call.node.calleeName? = some name

/-- Where nothing is known about the host, only the fragment itself resolves
names, and exactly the other names without a receiver become inputs. -/
theorem queryField?_of_empty {q : Symbols.Query} (unknown : scope.host = Symbols.Table.empty)
    (free : q.qualifier = none → q.name ∉ scope.locals) (isTwoWay : Bool) :
    queryField? scope isTwoWay q =
      if q.qualifier.isNone then some ⟨q.name, none, q.text, isTwoWay⟩ else none := by
  have visible : ¬ (q.qualifier.isNone && q.name ∈ scope.locals) = true := by
    intro declared
    rw [Bool.and_eq_true] at declared
    exact free (Option.isNone_iff_eq_none.mp declared.1) (of_decide_eq_true declared.2)
  have resolved : scope.resolve q = none := by
    rw [Symbols.Scope.resolve, if_neg visible, unknown]
    simp [Symbols.Table.resolve, Symbols.Table.empty, Entries.get?]
  have untyped : scope.inferType q = none := by
    rw [Symbols.Scope.inferType, unknown]
    rfl
  rw [queryField?, resolved, untyped]
  rfl

theorem referenceField?_identifier (unknown : scope.host = Symbols.Table.empty)
    (identifier : o.node.identifier? = some name) (free : name ∉ scope.locals) (isTwoWay : Bool) :
    referenceField? t scope isTwoWay o = some ⟨name, none, t.text o, isTwoWay⟩ := by
  have asked : query? t o = some ⟨name, none, t.text o⟩ := by
    rw [query?, show o.kind = .reference name from kind_of_identifier? identifier,
      qualifier?_of_identifier? identifier]
    rfl
  rw [referenceField?, asked, Option.bind_some, queryField?_of_empty unknown fun _ => free]
  rfl

/-- Where nothing is known about the host, references with a receiver are left
alone. -/
theorem unqualified_of_referenceField? {isTwoWay : Bool} {field : InputField}
    (unknown : scope.host = Symbols.Table.empty)
    (found : referenceField? t scope isTwoWay o = some field) :
    o.kind.referenceName? = some field.name ∧ o.node.qualifier? = none := by
  obtain ⟨q, asked, found⟩ := of_referenceField? found
  obtain ⟨name_eq, -, -, free, -⟩ := of_queryField? found
  rw [queryField?_of_empty unknown free] at found
  obtain ⟨name, named, rfl⟩ := Option.map_eq_some_iff.mp asked
  refine ⟨named.trans (congrArg some name_eq.symm), ?_⟩
  split at found
  · next unqualified => exact Option.map_eq_none_iff.mp (Option.isNone_iff_eq_none.mp unqualified)
  · exact absurd found (by simp)

/-- What a binding asks for, said without the choice of fields. -/
theorem exists_candidate_iff_asksFor (shaped : Every Shaped t.root) (built : b.Built t scope)
    (unknown : scope.host = Symbols.Table.empty) (named : name ≠ []) (free : name ∉ scope.locals) :
    (∃ c ∈ candidates t scope b, c.field.name = name) ↔ b.AsksFor t name := by
  constructor
  · rintro ⟨c, asks, rfl⟩
    rcases mem_candidates_iff.mp asks with ⟨member, found⟩ | ⟨member, found⟩
    · rw [built.references_eq] at member
      obtain ⟨below, bindable⟩ := of_mem_topLevelReferences shaped built.contains member
      obtain ⟨name_eq, unqualified⟩ := unqualified_of_referenceField? unknown found
      have held := Occurrence.contains_of_mem_descendants built.contains below
      have kind_eq : c.origin.kind = .reference c.field.name := by
        obtain ⟨name, kind_eq⟩ := Kind.isReference_iff.mp (isReference_of_isBindable bindable)
        rw [kind_eq, Kind.referenceName?, Option.some.injEq] at name_eq
        rw [kind_eq, name_eq]
      exact .inl ⟨c.origin, below,
        (shaped.of_contains held).identifier?_eq kind_eq named unqualified, bindable⟩
    · exact .inr ⟨c.origin, member, (of_callField? found).1⟩
  · rintro (⟨o, below, identifier, bindable⟩ | ⟨call, member, calls⟩)
    · have held := Occurrence.contains_of_mem_descendants built.contains below
      have found := referenceField?_identifier (t := t) unknown identifier free b.isTwoWay
      refine ⟨⟨_, o⟩, mem_candidates_iff.mpr (.inl ⟨?_, found⟩), rfl⟩
      rw [built.references_eq, mem_topLevelReferences_iff shaped built.contains]
      exact ⟨o, below, isReference_of_isBindable bindable,
        topLevelReference?_identifier shaped held identifier bindable⟩
    · refine ⟨⟨⟨name, none, t.text call, false⟩, call⟩, ?_, rfl⟩
      exact mem_candidates_iff.mpr (.inr ⟨member, by rw [callField?, calls]; rfl⟩)

/-- Outside argument lists an identifier is bindable, or it is what a replaced call
calls. -/
theorem isBindable_of_outside (shaped : Every Shaped t.root) (built : b.Built t scope)
    (below : o ∈ b.owner.descendants) (identifier : o.node.identifier? = some name)
    (kept : ∀ call ∈ b.calls, call.node.calleeName?.isSome = true → ¬ o.Below call)
    (outside : isInsideArguments t b.owner o = false) : isBindable t o = true := by
  obtain ⟨held, below⟩ := (Occurrence.mem_descendants_iff built.contains).mp below
  have ⟨position, path, address_eq⟩ := below
  obtain ⟨parent, held', parent_eq, child⟩ := held.exists_parent address_eq
  have child_eq : o.address = position :: parent.address := by rw [address_eq, parent_eq]; rfl
  have kind_eq : o.kind = .reference name := kind_of_identifier? identifier
  cases leading : isLeadingCall t parent with
  | false => simp [isBindable, kind_eq, Kind.isReference, held'.parent?_eq child_eq, leading]
  | true =>
    have parent_kind := kind_of_isLeadingCall leading
    -- The parent is no owner, for owners are neither calls nor argument lists.
    have inside : parent.Below b.owner := by
      rcases below.eq_or_below_parent child_eq with same | inside
      · have owner := built.owner
        cases held'.ext built.contains same
        rcases parent_kind with kind_eq | kind_eq <;> simp [kind_eq, isOwnerKind] at owner
      · exact inside
    have above : o.Below parent := .of_child child_eq
    rcases parent_kind with call | list
    · -- A call that calls the identifier is replaced, and the identifier with it.
      have first : position = 0 := (shaped.of_contains held').position_eq_zero
        (.inr (by rw [show parent.node.kind = .call from call]; rfl)) child
        (.inl (by rw [show o.node.kind = .reference name from kind_eq]; rfl))
      have outside' : isInsideArguments t b.owner parent = false := by
        rw [← Bool.not_eq_true]
        intro arguments
        have := isInsideArguments_of_below held held' built.contains above inside arguments
        exact absurd (this.symm.trans outside) (by simp)
      rw [first] at child child_eq
      obtain ⟨called, named⟩ := mem_topLevelCalls_of_callee shaped built.contains
        ((Occurrence.mem_descendants_iff built.contains).mpr ⟨held', inside⟩)
        (by rw [call]; rfl) child child_eq held identifier outside'
      exact absurd above (kept parent (built.calls_eq ▸ called) (by rw [named]; rfl))
    · have := (isInsideArguments_iff held built.contains below).mpr
        ⟨parent, held', above, inside, list⟩
      exact absurd (this.symm.trans outside) (by simp)

end Fragment

namespace Extraction.Success

variable {e : Success} {b : Binding} {o : Occurrence} {name : Text}

/-- Where nothing is known about the host, a name that the fragment mentions and
does not declare is an input exactly if some binding asks for it. Every name
outside argument lists is one. -/
theorem free_name_input_iff (unknown : e.host = Symbols.Table.empty) (bound : b ∈ e.scan.bindings)
    (below : o ∈ b.owner.descendants) (identifier : o.node.identifier? = some name)
    (kept : ∀ call ∈ b.calls, call.node.calleeName?.isSome = true → ¬ o.Below call)
    (free : name ∉ declaredNames e.roots) :
    (name ∈ e.plan.inputs.map InputField.name ↔
      ∃ b' ∈ e.scan.bindings, b'.AsksFor e.template name) ∧
    (isInsideArguments e.template b.owner o = false →
      name ∈ e.plan.inputs.map InputField.name) := by
  have built := e.built b bound
  have held := Occurrence.contains_of_mem_descendants built.contains below
  have named := ((e.shaped.of_contains held).of_identifier? identifier).1
  have exact_iff : name ∈ e.plan.inputs.map InputField.name ↔
      ∃ b' ∈ e.scan.bindings, b'.AsksFor e.template name := by
    rw [e.inputs_eq, mem_names_inputs_iff e.built]
    apply exists_congr
    intro b'
    apply and_congr_right
    intro bound'
    exact exists_candidate_iff_asksFor e.shaped (e.built b' bound') unknown named free
  refine ⟨exact_iff, fun outside => exact_iff.mpr ⟨b, bound, .inl ⟨o, below, identifier, ?_⟩⟩⟩
  exact isBindable_of_outside e.shaped built below identifier kept outside

theorem free_name_input_summand : ∃ (e : Success) (b : Binding) (o : Occurrence),
    e.source = "<i [z]=\"x + f(y)\"></i>".toList ∧ e.host = Symbols.Table.empty ∧
      b ∈ e.scan.bindings ∧ o ∈ b.owner.descendants ∧ o.node.identifier? = some ['x'] ∧
      (∀ call ∈ b.calls, call.node.calleeName?.isSome = true → ¬ o.Below call) ∧
      ['x'] ∉ declaredNames e.roots ∧
      (['x'] ∈ e.plan.inputs.map InputField.name ↔
        ∃ b' ∈ e.scan.bindings, b'.AsksFor e.template ['x']) ∧
      (isInsideArguments e.template b.owner o = false →
        ['x'] ∈ e.plan.inputs.map InputField.name) := by
  have passed : succeedsWith "<i [z]=\"x + f(y)\"></i>".toList Symbols.Table.empty
      (fun t scope roots _ => ((Fragment.scan t roots scope.host).bindings.any fun b =>
        b.owner.descendants.any fun o => o.node.identifier? == some ['x'] &&
          b.calls.all fun call => !(call.address.isSuffixOf o.address)) &&
        decide (['x'] ∉ declaredNames roots)) = true := by
    decide +kernel
  obtain ⟨e, source_eq, unknown, passed⟩ := exists_success passed
  simp only [List.any_eq_true, List.all_eq_true, Bool.and_eq_true, beq_iff_eq,
    decide_eq_true_eq, Bool.not_eq_true', ← Bool.not_eq_true, List.isSuffixOf_iff_suffix]
    at passed
  obtain ⟨⟨b, bound, o, below, identifier, apart⟩, free⟩ := passed
  have kept : ∀ call ∈ b.calls, call.node.calleeName?.isSome = true → ¬ o.Below call :=
    fun call called _ inside => apart call called inside.suffix
  exact ⟨e, b, o, source_eq, unknown, bound, below, identifier, kept, free,
    free_name_input_iff unknown bound below identifier kept free⟩

/-- An argument of a call that continues a chain stays in the template, but is no
input. -/
theorem free_name_not_input_chained : ∃ (e : Success) (b : Binding) (o : Occurrence),
    e.source = "<i [z]=\"a().b(x)\"></i>".toList ∧ e.host = Symbols.Table.empty ∧
      b ∈ e.scan.bindings ∧ o ∈ b.owner.descendants ∧ o.node.identifier? = some ['x'] ∧
      (∀ call ∈ b.calls, call.node.calleeName?.isSome = true → ¬ o.Below call) ∧
      ['x'] ∉ declaredNames e.roots ∧ ['x'] ∉ e.plan.inputs.map InputField.name := by
  have passed : succeedsWith "<i [z]=\"a().b(x)\"></i>".toList Symbols.Table.empty
      (fun t scope roots plan => ((Fragment.scan t roots scope.host).bindings.any fun b =>
        b.owner.descendants.any fun o => o.node.identifier? == some ['x'] &&
          b.calls.all fun call => !(call.address.isSuffixOf o.address)) &&
        (decide (['x'] ∉ declaredNames roots) &&
          decide (['x'] ∉ plan.inputs.map InputField.name))) = true := by
    decide +kernel
  obtain ⟨e, source_eq, unknown, passed⟩ := exists_success passed
  simp only [List.any_eq_true, List.all_eq_true, Bool.and_eq_true, beq_iff_eq,
    decide_eq_true_eq, Bool.not_eq_true', ← Bool.not_eq_true, List.isSuffixOf_iff_suffix]
    at passed
  obtain ⟨⟨b, bound, o, below, identifier, apart⟩, free, missing⟩ := passed
  exact ⟨e, b, o, source_eq, unknown, bound, below, identifier,
    fun call called _ inside => apart call called inside.suffix, free, missing⟩

end Extraction.Success

end ComponentExtraction
