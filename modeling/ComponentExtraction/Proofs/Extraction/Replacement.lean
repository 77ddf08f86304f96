import ComponentExtraction.Proofs.Extraction.Success

/-!
# Calls that are replaced by inputs

Every named top-level call of a fragment is replaced by its name in the new
template, and the plan has exactly one input of that name. The input holds the
value of the call if the first node that asks for the name is written like the
call; a reference of the same name, or a call with other arguments, may come
first and then decides what is passed.
-/

namespace ComponentExtraction

open Fragment Component

namespace Extraction.Success

variable {e : Success} {b : Binding} {call : Occurrence} {name : Text}

theorem edits_of_call {edits : List Edit} (made : e.Edits edits) (bound : b ∈ e.scan.bindings)
    (called : call ∈ b.calls) (named : call.node.calleeName? = some name) :
    ⟨call.span, name⟩ ∈ edits := by
  have replaced : callEdit? call = some ⟨call.span, name⟩ := by rw [callEdit?, named]; rfl
  obtain ⟨changes, -, rfl⟩ := templateEdits_eq_ok_iff.mp made.1
  refine List.mem_append_left _ (List.mem_filterMap.mpr ⟨call, ?_, replaced⟩)
  exact List.mem_flatMap.mpr ⟨b, bound, called⟩

/-- A replaced call has one input of its name, which holds the value of the call
exactly when the first node that asks for the name has the source of the call. -/
theorem replaced_call_body_iff (bound : b ∈ e.scan.bindings) (called : call ∈ b.calls)
    (named : call.node.calleeName? = some name) :
    (∃ edits, e.Edits edits ∧ ⟨call.span, name⟩ ∈ edits) ∧
      ∃ field ∈ e.plan.inputs, field.name = name ∧
        (∀ other ∈ e.plan.inputs, other.name = name → other = field) ∧
        (field.body = e.template.text call ↔ ∃ holder, e.holder? name = some holder ∧
          e.template.text holder.origin = e.template.text call) := by
  obtain ⟨edits, made⟩ := e.exists_edits
  refine ⟨⟨edits, made, edits_of_call made bound called named⟩, ?_⟩
  have asks : ⟨⟨name, none, e.template.text call, false⟩, call⟩ ∈
      candidates e.template e.scope b :=
    mem_candidates_iff.mpr (.inr ⟨called, by rw [callField?, named]; rfl⟩)
  obtain ⟨holder, found⟩ := exists_holder? bound asks
  obtain ⟨member, name_eq, body_eq, only⟩ := input_of_holder? found
  refine ⟨holder.field, member, name_eq, only, ?_⟩
  rw [body_eq]
  constructor
  · intro same
    exact ⟨holder, found, same⟩
  · rintro ⟨holder', found', same⟩
    rw [show e.holder? name = some holder from found] at found'
    cases found'
    exact same

theorem replaced_call_body_repeated : ∃ (e : Success) (b : Binding) (call : Occurrence),
    e.source = "<i [x]=\"f(1)\" [y]=\"a\"></i><i [z]=\"f(1)\"></i>".toList ∧ b ∈ e.scan.bindings ∧
      call ∈ b.calls ∧ call.node.calleeName? = some ['f'] ∧
      ((∃ edits, e.Edits edits ∧ ⟨call.span, ['f']⟩ ∈ edits) ∧
        ∃ field ∈ e.plan.inputs, field.name = ['f'] ∧
          (∀ other ∈ e.plan.inputs, other.name = ['f'] → other = field) ∧
          (field.body = e.template.text call ↔ ∃ holder, e.holder? ['f'] = some holder ∧
            e.template.text holder.origin = e.template.text call)) := by
  have passed : succeedsWith "<i [x]=\"f(1)\" [y]=\"a\"></i><i [z]=\"f(1)\"></i>".toList {}
      (fun t scope roots _ => (Fragment.scan t roots scope.host).bindings.any fun b =>
        b.calls.any fun call => call.node.calleeName? == some ['f']) = true := by
    decide +kernel
  obtain ⟨e, source_eq, -, passed⟩ := exists_success passed
  simp only [List.any_eq_true, beq_iff_eq] at passed
  obtain ⟨b, bound, call, called, named⟩ := passed
  exact ⟨e, b, call, source_eq, bound, called, named, replaced_call_body_iff bound called named⟩

/-- A call that does not open its expression is replaced by an input that holds
what is called. -/
theorem replaced_call_body_differs : ∃ (e : Success) (b : Binding) (call : Occurrence),
    e.source = "<i [x]=\"a + f(1)\"></i>".toList ∧ b ∈ e.scan.bindings ∧ call ∈ b.calls ∧
      call.node.calleeName? = some ['f'] ∧
      (∃ edits, e.Edits edits ∧ ⟨call.span, ['f']⟩ ∈ edits) ∧
      ∀ field ∈ e.plan.inputs, field.name = ['f'] → field.body ≠ e.template.text call := by
  have passed : succeedsWith "<i [x]=\"a + f(1)\"></i>".toList {} (fun t scope roots plan =>
      (Fragment.scan t roots scope.host).bindings.any fun b => b.calls.any fun call =>
        call.node.calleeName? == some ['f'] && plan.inputs.all fun field =>
          decide (field.name = ['f'] → field.body ≠ t.text call)) = true := by
    decide +kernel
  obtain ⟨e, source_eq, -, passed⟩ := exists_success passed
  simp only [List.any_eq_true, List.all_eq_true, Bool.and_eq_true, beq_iff_eq,
    decide_eq_true_eq] at passed
  obtain ⟨b, bound, call, called, named, differs⟩ := passed
  obtain ⟨edits, made⟩ := e.exists_edits
  exact ⟨e, b, call, source_eq, bound, called, named,
    ⟨edits, made, edits_of_call made bound called named⟩, differs⟩

end Extraction.Success

end ComponentExtraction
