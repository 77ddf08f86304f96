import ComponentExtraction.Proofs.Extraction.Success

/-!
# Names that a fragment declares

Names that a fragment declares mean nothing in the host, so the tag that stands
for the fragment must not mention them. References keep to this: a declared name
never becomes an input. Calls and handlers are passed as they are written, and a
plan is confined exactly when no call and no handler that mentions a declared
name is the first of its own name.
-/

namespace ComponentExtraction

open Fragment Component

def Occurrence.mentions (o : Occurrence) : List Text :=
  o.descendants.filterMap fun p => p.node.identifier?

namespace Component

variable {handlers : List Handler} {h : Handler} {name : Text}

/-- The handlers that are forwarded are the first ones of their names. -/
theorem mem_forwarded_iff : (h, name) ∈ forwarded handlers ↔
    handlers.find? (fun other => other.name = some name) = some h := by
  have same : ∀ other : Handler, (named? other).any (fun entry => decide (entry.2 = name)) =
      decide (other.name = some name) := by
    intro other
    cases name_eq : other.name <;> simp [named?, name_eq]
  rw [forwarded, Sequence.mem_distinctBy_iff, List.find?_filterMap, Option.bind_eq_some_iff]
  simp only [same]
  constructor
  · rintro ⟨first, found, entry_eq⟩
    obtain ⟨_, -, pair_eq⟩ := Option.map_eq_some_iff.mp entry_eq
    cases pair_eq
    exact found
  · intro found
    have name_eq : h.name = some name := by simpa using List.find?_some found
    exact ⟨h, found, by simp [named?, name_eq]⟩

end Component

namespace Extraction.Success

variable {e : Success}

/-- A node of the fragment mentions a name that the fragment declares. -/
def MentionsDeclared (e : Success) (o : Occurrence) : Prop :=
  ∃ name ∈ o.mentions, name ∈ declaredNames e.roots

/-- The calls behind the inputs and the handlers that the tag passes mention no
declared name. -/
structure Confined (e : Success) : Prop where
  calls : ∀ b ∈ e.scan.bindings, ∀ call ∈ b.calls, ∀ field ∈ e.plan.inputs,
    callField? e.template call = some field → ¬ e.MentionsDeclared call
  handlers : ∀ entry ∈ forwarded e.scan.handlers, ¬ e.MentionsDeclared entry.1.action

/-- A reference that becomes an input is no declared name, and its receiver is the
host itself. -/
theorem undeclared_of_referenceField? {o : Occurrence} {isTwoWay : Bool} {field : InputField}
    (found : referenceField? e.template e.scope isTwoWay o = some field) :
    (∀ name, o.node.identifier? = some name → name ∉ declaredNames e.roots) ∧
      ∀ receiver, o.node.qualifier? = some receiver →
        e.template.textAt receiver.span = "this".toList := by
  obtain ⟨q, asked, found⟩ := of_referenceField? found
  obtain ⟨-, -, -, visible, hosted⟩ := of_queryField? found
  obtain ⟨name, name_eq, rfl⟩ := Option.map_eq_some_iff.mp asked
  constructor
  · intro name' identifier
    rw [show o.kind = .reference name' from Node.kind_of_identifier? identifier] at name_eq
    cases name_eq
    exact visible (by rw [Node.qualifier?_of_identifier? identifier]; rfl)
  · intro receiver qualified
    exact hosted _ (by rw [qualified]; rfl)

/-- A plan is confined exactly when every call and every handler that mentions a
declared name gives way to an earlier one of its own name. References that become
inputs are always confined. -/
theorem confined_iff (e : Success) :
    (e.Confined ↔
      (∀ b ∈ e.scan.bindings, ∀ call ∈ b.calls, ∀ name, call.node.calleeName? = some name →
        e.MentionsDeclared call → ∀ holder, e.holder? name = some holder →
          callField? e.template call ≠ some holder.field) ∧
      ∀ h ∈ e.scan.handlers, ∀ name, h.name = some name → e.MentionsDeclared h.action →
        ∀ first, e.scan.handlers.find? (fun other => other.name = some name) = some first →
          first.action ≠ h.action) ∧
    ∀ b ∈ e.scan.bindings, ∀ o ∈ b.references, ∀ field,
      referenceField? e.template e.scope b.isTwoWay o = some field →
        (∀ name, o.node.identifier? = some name → name ∉ declaredNames e.roots) ∧
          ∀ receiver, o.node.qualifier? = some receiver →
            e.template.textAt receiver.span = "this".toList := by
  refine ⟨⟨fun confined => ⟨?_, ?_⟩, fun later => ⟨?_, ?_⟩⟩,
    fun _ _ _ _ _ found => undeclared_of_referenceField? found⟩
  · intro b bound call called name _ declared holder found same
    obtain ⟨member, -⟩ := input_of_holder? found
    exact confined.calls b bound call called holder.field member same declared
  · intro h _ name _ declared first found same
    refine confined.handlers (first, name) (mem_forwarded_iff.mpr found) ?_
    rw [same]
    exact declared
  · intro b bound call called field member found declared
    obtain ⟨origin, holds⟩ := mem_inputs_iff.mp member
    obtain ⟨named, -⟩ := of_callField? found
    exact later.1 b bound call called field.name named declared _ holds found
  · rintro ⟨h, name⟩ member declared
    have found := mem_forwarded_iff.mp member
    exact later.2 h (List.mem_of_find?_eq_some found) name (by simpa using List.find?_some found)
      declared h found rfl

/-- A call in the scope of a loop variable is passed to the host as it is. -/
theorem not_confined_loop_variable : ∃ e : Success,
    e.source = "<i *ngFor=\"let x of y\" [z]=\"f(x)\"></i>".toList ∧ ¬ e.Confined := by
  have passed : succeedsWith "<i *ngFor=\"let x of y\" [z]=\"f(x)\"></i>".toList {}
      (fun t scope roots plan => (Fragment.scan t roots scope.host).bindings.any fun b =>
        b.calls.any fun call => call.mentions.any (· ∈ declaredNames roots) &&
          plan.inputs.any fun field => callField? t call == some field) = true := by
    decide +kernel
  obtain ⟨e, source_eq, -, passed⟩ := exists_success passed
  simp only [List.any_eq_true, Bool.and_eq_true, beq_iff_eq, decide_eq_true_eq] at passed
  obtain ⟨b, bound, call, called, declared, field, member, found⟩ := passed
  exact ⟨e, source_eq, fun confined =>
    confined.calls b bound call called field member found declared⟩

end Extraction.Success

end ComponentExtraction
