import ComponentExtraction.Component.Rendering
import ComponentExtraction.Proofs.Fragment.Reference
import ComponentExtraction.Proofs.Fragment.Scan
import ComponentExtraction.Proofs.Symbols.Resolution

/-!
# Where the inputs of a component come from

The inputs of a component are chosen by name in two rounds: first among the
references and calls of one binding, then among all bindings, those of two-way
bindings first. `Component.holder?` says it in one: the input of a name is the
field of the first node that asks for the name. Everything about an input then
follows from the node that it comes from.
-/

namespace ComponentExtraction

open Fragment

namespace Fragment

variable {t : Template} {scope : Symbols.Scope} {isTwoWay : Bool} {q : Symbols.Query}
variable {o : Occurrence} {field : InputField}

/-- Fields of the host become inputs with their types, and names of which nothing is
known become inputs with the types that were inferred. -/
theorem queryField?_eq_some_iff : queryField? scope isTwoWay q = some field ↔
    (∃ type, scope.resolve q = some (.field q.name type) ∧
      field = ⟨q.name, type, q.text, isTwoWay⟩) ∨
    scope.resolve q = none ∧ q.qualifier = none ∧
      field = ⟨q.name, (scope.inferType q).map Symbols.normalizeType, q.text, isTwoWay⟩ := by
  rw [queryField?]
  cases resolved : scope.resolve q with
  | none =>
    cases q.qualifier with
    | none => simp [eq_comm]
    | some receiver => simp
  | some symbol =>
    cases symbol with
    | field name type =>
      obtain ⟨-, -, rfl, -⟩ := Symbols.Scope.resolve_eq_field_iff.mp resolved
      simp [eq_comm]
    | _ name => simp

/-- The input for a query has its name and its text. A name without a receiver is
not declared in the fragment, and a receiver is the host itself. -/
theorem of_queryField? (found : queryField? scope isTwoWay q = some field) :
    field.name = q.name ∧ field.body = q.text ∧ field.isTwoWay = isTwoWay ∧
      (q.qualifier = none → q.name ∉ scope.locals) ∧
      ∀ receiver, q.qualifier = some receiver → receiver = "this".toList := by
  rcases queryField?_eq_some_iff.mp found with ⟨type, resolved, rfl⟩ | ⟨resolved, alone, rfl⟩
  · obtain ⟨visible, member, -, -⟩ := Symbols.Scope.resolve_eq_field_iff.mp resolved
    exact ⟨rfl, rfl, rfl, visible, fun _ => Symbols.Query.eq_this_of_isMember member⟩
  · obtain ⟨visible, -⟩ := Symbols.Scope.resolve_eq_none_iff.mp resolved
    refine ⟨rfl, rfl, rfl, visible, fun receiver qualified => ?_⟩
    exact absurd (alone.symm.trans qualified) (by simp)

theorem of_referenceField? (found : referenceField? t scope isTwoWay o = some field) :
    ∃ q, query? t o = some q ∧ queryField? scope isTwoWay q = some field :=
  Option.bind_eq_some_iff.mp found

theorem of_callField? (found : callField? t o = some field) :
    o.node.calleeName? = some field.name ∧ field.body = t.text o ∧ field.isTwoWay = false := by
  obtain ⟨name, named, rfl⟩ := Option.map_eq_some_iff.mp found
  exact ⟨named, rfl, rfl⟩

theorem referenceField?_body (found : referenceField? t scope isTwoWay o = some field) :
    field.body = t.text o ∧ field.isTwoWay = isTwoWay := by
  obtain ⟨q, asked, found⟩ := of_referenceField? found
  obtain ⟨name, -, rfl⟩ := Option.map_eq_some_iff.mp asked
  obtain ⟨-, body_eq, direction, -⟩ := of_queryField? found
  exact ⟨body_eq, direction⟩

namespace Binding.Built

variable {b : Binding}

theorem references_eq (built : b.Built t scope) : b.references = topLevelReferences t b.owner :=
  congrArg references built.eq_build

theorem calls_eq (built : b.Built t scope) : b.calls = topLevelCalls t b.owner :=
  congrArg calls built.eq_build

theorem fields_eq (built : b.Built t scope) : b.fields = Sequence.distinctBy InputField.name
    (b.references.filterMap (referenceField? t scope b.isTwoWay) ++
      b.calls.filterMap (callField? t)) := by
  rw [built.references_eq, built.calls_eq]
  exact congrArg fields built.eq_build

end Binding.Built

end Fragment

namespace Component

/-- A node of a fragment with the input that it asks for. Of the
candidates of one name the first one decides about the input. -/
structure Candidate where
  field : InputField
  origin : Occurrence

variable {t : Template} {scope : Symbols.Scope} {b : Binding} {bindings : List Binding}

def candidates (t : Template) (scope : Symbols.Scope) (b : Binding) : List Candidate :=
  b.references.filterMap (fun o => (referenceField? t scope b.isTwoWay o).map (⟨·, o⟩)) ++
    b.calls.filterMap fun o => (callField? t o).map (⟨·, o⟩)

def twoWayFirst (bindings : List Binding) : List Binding :=
  bindings.filter Binding.isTwoWay ++ bindings.filter fun b => !b.isTwoWay

/-- The first node that asks for an input of a name, two-way bindings before the
others. -/
def holder? (t : Template) (scope : Symbols.Scope) (bindings : List Binding) (name : Text) :
    Option Candidate :=
  ((twoWayFirst bindings).flatMap (candidates t scope)).find? fun c => c.field.name = name

theorem inputs_eq (bindings : List Binding) : inputs bindings =
    Sequence.distinctBy InputField.name ((twoWayFirst bindings).flatMap Binding.fields) := rfl

theorem mem_twoWayFirst_iff : b ∈ twoWayFirst bindings ↔ b ∈ bindings := by
  rw [twoWayFirst, List.mem_append, List.mem_filter, List.mem_filter]
  cases b.isTwoWay <;> simp

theorem mem_candidates_iff {c : Candidate} : c ∈ candidates t scope b ↔
    (c.origin ∈ b.references ∧ referenceField? t scope b.isTwoWay c.origin = some c.field) ∨
      (c.origin ∈ b.calls ∧ callField? t c.origin = some c.field) := by
  obtain ⟨field, origin⟩ := c
  simp only [candidates, List.mem_append, List.mem_filterMap, Option.map_eq_some_iff,
    Candidate.mk.injEq]
  constructor
  · rintro (⟨o, member, _, found, rfl, rfl⟩ | ⟨o, member, _, found, rfl, rfl⟩)
    · exact .inl ⟨member, found⟩
    · exact .inr ⟨member, found⟩
  · rintro (⟨member, found⟩ | ⟨member, found⟩)
    · exact .inl ⟨origin, member, field, found, rfl, rfl⟩
    · exact .inr ⟨origin, member, field, found, rfl, rfl⟩

theorem body_of_mem_candidates {c : Candidate} (member : c ∈ candidates t scope b) :
    c.field.body = t.text c.origin := by
  rcases mem_candidates_iff.mp member with ⟨-, found⟩ | ⟨-, found⟩
  · exact (referenceField?_body found).1
  · exact (of_callField? found).2.1

theorem fields_eq_candidates (built : b.Built t scope) : b.fields =
    Sequence.distinctBy InputField.name ((candidates t scope b).map Candidate.field) := by
  rw [built.fields_eq]
  simp [candidates, List.map_filterMap, Option.map_map, Function.comp_def]

/-- Within a binding, the field of a name is that of the first node asking for it. -/
theorem find?_fields (built : b.Built t scope) (name : Text) :
    b.fields.find? (fun field => field.name = name) =
      ((candidates t scope b).find? fun c => c.field.name = name).map Candidate.field := by
  rw [fields_eq_candidates built, Sequence.find?_distinctBy, List.find?_map]
  rfl

theorem find?_inputs (built : ∀ b ∈ bindings, b.Built t scope) (name : Text) :
    (inputs bindings).find? (fun field => field.name = name) =
      (holder? t scope bindings name).map Candidate.field := by
  have ordered : ∀ b ∈ twoWayFirst bindings, b.Built t scope := by
    intro b member
    exact built b (mem_twoWayFirst_iff.mp member)
  rw [inputs_eq, Sequence.find?_distinctBy, holder?]
  generalize twoWayFirst bindings = order at ordered
  induction order with
  | nil => rfl
  | cons b order ih =>
    obtain ⟨first, later⟩ := List.forall_mem_cons.mp ordered
    rw [List.flatMap_cons, List.flatMap_cons, List.find?_append, List.find?_append,
      find?_fields first, ih later, Option.map_or]

theorem mem_inputs_iff (built : ∀ b ∈ bindings, b.Built t scope) {field : InputField} :
    field ∈ inputs bindings ↔
      ∃ origin, holder? t scope bindings field.name = some ⟨field, origin⟩ := by
  have kept : field ∈ inputs bindings ↔
      (inputs bindings).find? (fun other => other.name = field.name) = some field := by
    rw [inputs_eq, Sequence.find?_distinctBy, Sequence.mem_distinctBy_iff]
  rw [kept, find?_inputs built, Option.map_eq_some_iff]
  constructor
  · rintro ⟨⟨_, origin⟩, found, rfl⟩
    exact ⟨origin, found⟩
  · rintro ⟨origin, found⟩
    exact ⟨_, found, rfl⟩

theorem of_holder? {name : Text} {c : Candidate} (found : holder? t scope bindings name = some c) :
    c.field.name = name ∧ ∃ b ∈ bindings, c ∈ candidates t scope b := by
  refine ⟨by simpa using List.find?_some found, ?_⟩
  obtain ⟨b, member, asks⟩ := List.mem_flatMap.mp (List.mem_of_find?_eq_some found)
  exact ⟨b, mem_twoWayFirst_iff.mp member, asks⟩

theorem exists_holder? {c : Candidate} (member : b ∈ bindings) (asks : c ∈ candidates t scope b) :
    ∃ holder, holder? t scope bindings c.field.name = some holder := by
  cases found : holder? t scope bindings c.field.name with
  | some holder => exact ⟨holder, rfl⟩
  | none =>
    have listed : c ∈ (twoWayFirst bindings).flatMap (candidates t scope) :=
      List.mem_flatMap.mpr ⟨b, mem_twoWayFirst_iff.mpr member, asks⟩
    exact absurd (List.find?_eq_none.mp found c listed) (by simp)

/-- A name has an input exactly if some node asks for it. -/
theorem mem_names_inputs_iff (built : ∀ b ∈ bindings, b.Built t scope) {name : Text} :
    name ∈ (inputs bindings).map InputField.name ↔
      ∃ b ∈ bindings, ∃ c ∈ candidates t scope b, c.field.name = name := by
  rw [List.mem_map]
  constructor
  · rintro ⟨field, member, rfl⟩
    obtain ⟨origin, found⟩ := (mem_inputs_iff built).mp member
    obtain ⟨-, b, member, asks⟩ := of_holder? found
    exact ⟨b, member, _, asks, rfl⟩
  · rintro ⟨b, member, c, asks, rfl⟩
    obtain ⟨holder, found⟩ := exists_holder? member asks
    obtain ⟨name_eq, -⟩ := of_holder? found
    refine ⟨holder.field, (mem_inputs_iff built).mpr ⟨holder.origin, ?_⟩, name_eq⟩
    rw [name_eq]
    exact found

end Component

end ComponentExtraction
