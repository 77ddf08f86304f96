import ComponentExtraction.Proofs.Fragment.Marks
import ComponentExtraction.Proofs.Markup.Value

/-!
# A scan misses nothing and counts nothing twice

Which nodes a scan has to find is said by their kinds and those of their parents
(`HoldsBinding`, `HoldsHandler`). A scan finds them from the attributes down, looking for
one child of an attribute, so it finds them all because an attribute has one value
(`Node.Valued`). The expressions found are not nested, so what is recorded for one of them
is recorded for no other.
-/

namespace ComponentExtraction

namespace Occurrence

variable {t : Template} {o p root : Occurrence}

theorem parentKind?_of_mem_children (held : t.Contains p) (child : o ∈ p.children) :
    t.parentKind? o = some p.kind := by
  obtain ⟨i, -, address_eq⟩ := mem_children_iff.mp child
  rw [Template.parentKind?, held.parent?_eq address_eq]
  rfl

theorem exists_parent_of_parentKind? {kind : Kind} (held : t.Contains o)
    (found : t.parentKind? o = some kind) :
    ∃ p, t.Contains p ∧ o ∈ p.children ∧ p.kind = kind := by
  obtain ⟨p, parent_eq, kind_eq⟩ := Option.map_eq_some_iff.mp found
  obtain ⟨p_held, position, address_eq, child⟩ := held.of_parent? parent_eq
  exact ⟨p, p_held, mem_children_iff.mpr ⟨position, child, address_eq⟩, kind_eq⟩

/-- The parent of a node below another one is that one or below it too. -/
theorem Below.parent (below : o.Below root) (held : t.Contains p) (rooted : t.Contains root)
    (child : o ∈ p.children) : p = root ∨ p.Below root := by
  obtain ⟨i, -, address_eq⟩ := mem_children_iff.mp child
  obtain ⟨position, path, below_eq⟩ := below
  rw [address_eq, List.cons_append, List.cons.injEq] at below_eq
  rcases eq_or_below_of_address below_eq.2 with same | lower
  · exact .inl (held.ext rooted same)
  · exact .inr lower

end Occurrence

namespace Fragment

open Node

variable {t : Template} {roots : List Occurrence} {host : Symbols.Table}
variable {o p root : Occurrence} {b b' : Binding} {h : Handler}

/-- The expressions that a fragment binds: those of properties, interpolations, and the
entries of structural directives. -/
def HoldsBinding (t : Template) (o : Occurrence) : Prop :=
  (o.kind = .binding ∧ ∃ property, t.parentKind? o = some (.propertyBinding property) ∨
    t.parentKind? o = some (.bananaBox property)) ∨
  o.kind = .interpolation ∨ ∃ key, o.kind = .templateBinding key

def HoldsHandler (t : Template) (o : Occurrence) : Prop :=
  o.kind = .action ∧ ∃ event, t.parentKind? o = some (.event event)

section Valued

variable (valued : Every Valued t.root)
include valued

/-- The value of an attribute is its only child that is no token. -/
theorem attributeExpression?_eq_some_iff {kind : Kind} (held : t.Contains o)
    (one : o.kind.hasOneValue = true) (inner : kind ≠ .token) :
    attributeExpression? kind o = some p ↔ p ∈ o.children ∧ p.kind = kind := by
  refine ⟨of_attributeExpression?, ?_⟩
  rintro ⟨child, kind_eq⟩
  have shape := (valued.of_contains held).here
  cases found : attributeExpression? kind o with
  | none =>
    have absent := List.find?_eq_none.mp found p child
    exact absurd (beq_iff_eq.mpr kind_eq) absent
  | some q =>
    obtain ⟨child', kind_eq'⟩ := of_attributeExpression? found
    obtain ⟨i, node_eq, address_eq⟩ := Occurrence.mem_children_iff.mp child
    obtain ⟨j, node_eq', address_eq'⟩ := Occurrence.mem_children_iff.mp child'
    obtain ⟨rfl, -⟩ := shape.eq_two one node_eq (fun token => inner (kind_eq.symm.trans token))
    obtain ⟨rfl, -⟩ := shape.eq_two one node_eq' (fun token => inner (kind_eq'.symm.trans token))
    have p_held := Occurrence.contains_of_mem_children held child
    have q_held := Occurrence.contains_of_mem_children held child'
    rw [q_held.ext p_held (address_eq'.trans address_eq.symm)]

theorem kind_of_mem_children (held : t.Contains o) (one : o.kind.hasOneValue = true)
    (child : p ∈ o.children) (inner : p.kind ≠ .token) : p.kind = .binding ∨ p.kind = .action := by
  obtain ⟨i, node_eq, -⟩ := Occurrence.mem_children_iff.mp child
  exact ((valued.of_contains held).here.eq_two one node_eq inner).2

end Valued

/-- How a scan comes to a binding: from a property, from a property in both directions,
or from an expression that stands for itself. -/
inductive Binding.Found (t : Template) (b : Binding) : Prop
  | oneWay (property : Text) (kind_eq : b.owner.kind = .binding)
      (parent : t.parentKind? b.owner = some (.propertyBinding property))
      (box : b.bananaBox = none)
  | twoWay (property : Text) (kind_eq : b.owner.kind = .binding)
      (parent : t.parentKind? b.owner = some (.bananaBox property))
      (box : b.bananaBox.isSome = true)
  | expression
      (kind_eq : b.owner.kind = .interpolation ∨ ∃ key, b.owner.kind = .templateBinding key)
      (box : b.bananaBox = none)

theorem found_of_mem (held : ∀ root ∈ roots, t.Contains root)
    (member : b ∈ (scan t roots host).bindings) : b.Found t := by
  obtain ⟨root, selected, listed⟩ := (mem_bindings_iff held).mp member
  obtain ⟨o, below, found | found⟩ := mem_rootBindings_iff.mp listed
  · have contained := Occurrence.contains_of_mem_descendants (held root selected) below
    obtain ⟨-, child, kind_eq⟩ := of_attributeBinding? found
    have parent := Occurrence.parentKind?_of_mem_children contained child
    unfold attributeBinding? at found
    split at found
    · next property o_kind =>
      rw [o_kind] at parent
      obtain ⟨owner, -, rfl⟩ := Option.map_eq_some_iff.mp found
      exact .twoWay property kind_eq parent rfl
    · next property o_kind =>
      rw [o_kind] at parent
      obtain ⟨owner, -, rfl⟩ := Option.map_eq_some_iff.mp found
      exact .oneWay property kind_eq parent rfl
    · exact absurd found (by simp)
  · unfold expressionBinding? at found
    split at found
    · next o_kind =>
      cases found
      exact .expression (.inl o_kind) rfl
    · next key o_kind =>
      cases found
      exact .expression (.inr ⟨key, o_kind⟩) rfl
    · exact absurd found (by simp)

theorem Binding.Found.holdsBinding (found : b.Found t) : HoldsBinding t b.owner := by
  cases found with
  | oneWay property kind_eq parent box => exact .inl ⟨kind_eq, property, .inl parent⟩
  | twoWay property kind_eq parent box => exact .inl ⟨kind_eq, property, .inr parent⟩
  | expression kind_eq box => exact .inr kind_eq

/-- A binding goes in both directions if its expression is the value of a banana box. -/
theorem Binding.Found.isTwoWay_iff (found : b.Found t) (valued : Every Valued t.root)
    (held : t.Contains b.owner) :
    b.isTwoWay = true ↔ ∃ property, t.parentKind? b.owner = some (.bananaBox property) := by
  cases found with
  | oneWay property kind_eq parent box => simp [Binding.isTwoWay, box, parent]
  | twoWay property kind_eq parent box => simp [Binding.isTwoWay, box, parent]
  | expression kind_eq box =>
    simp only [Binding.isTwoWay, box, Option.isSome_none, Bool.false_eq_true, false_iff]
    rintro ⟨property, parent⟩
    -- A banana box has no other expressions among its children.
    obtain ⟨above, above_held, child, above_kind⟩ :=
      Occurrence.exists_parent_of_parentKind? held parent
    have kind_eq' := kind_of_mem_children valued above_held (by rw [above_kind]; rfl) child
    rcases kind_eq with kind_eq | ⟨key, kind_eq⟩ <;> simp [kind_eq] at kind_eq'

/-- Every expression to be found below a root has a binding. -/
theorem exists_binding (valued : Every Valued t.root) (held : ∀ root ∈ roots, t.Contains root)
    (markup : ∀ root ∈ roots, root.kind.isMarkup = true) (contained : t.Contains o)
    (selected : root ∈ roots) (below : o.Below root) (holds : HoldsBinding t o) :
    ∃ b ∈ (scan t roots host).bindings, b.owner = o := by
  have rooted := held root selected
  rcases holds with ⟨kind_eq, property, parent⟩ | kind_eq
  · have some_parent : ∃ kind, t.parentKind? o = some kind ∧
        (kind = .propertyBinding property ∨ kind = .bananaBox property) := by
      rcases parent with parent | parent
      · exact ⟨_, parent, .inl rfl⟩
      · exact ⟨_, parent, .inr rfl⟩
    obtain ⟨kind, parent, kinds⟩ := some_parent
    obtain ⟨above, above_held, child, rfl⟩ :=
      Occurrence.exists_parent_of_parentKind? contained parent
    have one : above.kind.hasOneValue = true := by
      rcases kinds with above_kind | above_kind <;> rw [above_kind] <;> rfl
    have above_below : above.Below root := by
      rcases below.parent above_held rooted child with rfl | lower
      · rcases kinds with above_kind | above_kind <;>
          exact absurd (markup above selected) (by simp [above_kind, Kind.isMarkup])
      · exact lower
    have value := (attributeExpression?_eq_some_iff valued above_held one (by simp)).mpr
      ⟨child, kind_eq⟩
    have found : ∃ box, attributeBinding? t (scopeOf roots host) above =
        some (Binding.build t (scopeOf roots host) o box) := by
      rcases kinds with above_kind | above_kind
      · exact ⟨none, by simp [attributeBinding?, above_kind, value]⟩
      · exact ⟨some above, by simp [attributeBinding?, above_kind, value]⟩
    obtain ⟨box, found⟩ := found
    exact ⟨_, (mem_bindings_iff held).mpr ⟨root, selected, mem_rootBindings_iff.mpr ⟨above,
      (Occurrence.mem_descendants_iff rooted).mpr ⟨above_held, above_below⟩, .inl found⟩⟩, rfl⟩
  · have found : expressionBinding? t (scopeOf roots host) o =
        some (Binding.build t (scopeOf roots host) o none) := by
      rcases kind_eq with kind_eq | ⟨key, kind_eq⟩ <;> simp [expressionBinding?, kind_eq]
    exact ⟨_, (mem_bindings_iff held).mpr ⟨root, selected, mem_rootBindings_iff.mpr ⟨o,
      (Occurrence.mem_descendants_iff rooted).mpr ⟨contained, below⟩, .inr found⟩⟩, rfl⟩

theorem below_of_recorded (shaped : Every Shaped t.root) (held : ∀ root ∈ roots, t.Contains root)
    (member : b ∈ (scan t roots host).bindings) (recorded : o ∈ b.calls ++ b.references) :
    t.Contains o ∧ o.Below b.owner := by
  have built := built_of_mem_bindings held member
  have contained := built.contains
  rw [built.eq_build] at recorded
  rcases List.mem_append.mp recorded with call | reference
  · obtain ⟨o_held, -, below, -⟩ := of_mem_topLevelCalls contained call
    exact ⟨o_held, below⟩
  · obtain ⟨listed, -⟩ := of_mem_topLevelReferences shaped contained reference
    exact (Occurrence.mem_descendants_iff contained).mp listed

theorem handler?_eq_some_iff (valued : Every Valued t.root) (held : t.Contains o) :
    handler? o = some h ↔
      (∃ event, o.kind = .event event) ∧ h.action ∈ o.children ∧ h.action.kind = .action ∧
        h = Handler.build h.action := by
  unfold handler?
  split
  · next event o_kind =>
    have one : o.kind.hasOneValue = true := by rw [o_kind]; rfl
    rw [Option.map_eq_some_iff]
    constructor
    · rintro ⟨action, value, rfl⟩
      obtain ⟨child, kind_eq⟩ := of_attributeExpression? value
      exact ⟨⟨event, o_kind⟩, child, kind_eq, rfl⟩
    · rintro ⟨-, child, kind_eq, eq_build⟩
      exact ⟨h.action, (attributeExpression?_eq_some_iff valued held one (by simp)).mpr
        ⟨child, kind_eq⟩, eq_build.symm⟩
  · next other =>
    simp only [reduceCtorEq, false_iff, not_and]
    rintro ⟨event, o_kind⟩
    exact absurd o_kind (other event)

/-- The handlers are those of the events below the roots, none of which is lost by
listing each action once. -/
theorem mem_handlers_iff (valued : Every Valued t.root) (held : ∀ root ∈ roots, t.Contains root) :
    h ∈ (scan t roots host).handlers ↔
      ∃ root ∈ roots, ∃ o ∈ root.descendants, handler? o = some h := by
  have listed : ∀ {h : Handler},
      h ∈ roots.flatMap (fun root => root.descendants.filterMap handler?) ↔
        ∃ root ∈ roots, ∃ o ∈ root.descendants, handler? o = some h := by
    simp only [List.mem_flatMap, List.mem_filterMap, implies_true]
  rw [scan, Sequence.mem_distinctBy_of_injective, listed]
  intro h member h' member' same
  obtain ⟨root, selected, o, below, found⟩ := listed.mp member
  obtain ⟨root', selected', o', below', found'⟩ := listed.mp member'
  have contained := Occurrence.contains_of_mem_descendants (held root selected) below
  have contained' := Occurrence.contains_of_mem_descendants (held root' selected') below'
  obtain ⟨-, child, -⟩ := (handler?_eq_some_iff valued contained).mp found
  obtain ⟨-, child', -⟩ := (handler?_eq_some_iff valued contained').mp found'
  cases eq_of_mem_children contained contained' child child' same
  exact Option.some.inj (found.symm.trans found')

theorem exists_handler_iff (valued : Every Valued t.root) (held : ∀ root ∈ roots, t.Contains root)
    (markup : ∀ root ∈ roots, root.kind.isMarkup = true) :
    (∃ h ∈ (scan t roots host).handlers, h.action = o) ↔
      t.Contains o ∧ (∃ root ∈ roots, o.Below root) ∧ HoldsHandler t o := by
  constructor
  · rintro ⟨h, member, rfl⟩
    obtain ⟨root, selected, o, below, found⟩ := (mem_handlers_iff valued held).mp member
    obtain ⟨o_held, o_below⟩ := (Occurrence.mem_descendants_iff (held root selected)).mp below
    obtain ⟨⟨event, o_kind⟩, child, kind_eq, -⟩ := (handler?_eq_some_iff valued o_held).mp found
    have parent := Occurrence.parentKind?_of_mem_children o_held child
    obtain ⟨i, -, address_eq⟩ := Occurrence.mem_children_iff.mp child
    exact ⟨Occurrence.contains_of_mem_children o_held child,
      ⟨root, selected, .trans (.of_child address_eq) o_below⟩, kind_eq, event, o_kind ▸ parent⟩
  · rintro ⟨contained, ⟨root, selected, below⟩, kind_eq, event, parent⟩
    obtain ⟨above, above_held, child, above_kind⟩ :=
      Occurrence.exists_parent_of_parentKind? contained parent
    have above_below : above.Below root := by
      rcases below.parent above_held (held root selected) child with rfl | lower
      · exact absurd (markup above selected) (by simp [above_kind, Kind.isMarkup])
      · exact lower
    have found : handler? above = some (Handler.build o) :=
      (handler?_eq_some_iff valued above_held).mpr ⟨⟨event, above_kind⟩, child, kind_eq, rfl⟩
    have listed := (Occurrence.mem_descendants_iff (held root selected)).mpr
      ⟨above_held, above_below⟩
    exact ⟨_, (mem_handlers_iff valued held).mpr ⟨root, selected, above, listed, found⟩, rfl⟩

/-- The scan of a fragment has each expression and each handler once, knows which
expressions are bound in both directions, and records nothing for two of them. -/
structure Scan.Exhaustive (t : Template) (roots : List Occurrence) (s : Scan) : Prop where
  owners : (s.bindings.map fun b => b.owner.address).Nodup
  bindings : ∀ o, (∃ b ∈ s.bindings, b.owner = o) ↔
    t.Contains o ∧ (∃ root ∈ roots, o.Below root) ∧ HoldsBinding t o
  twoWay : ∀ b ∈ s.bindings, b.isTwoWay = true ↔
    ∃ property, t.parentKind? b.owner = some (.bananaBox property)
  actions : (s.handlers.map fun h => h.action.address).Nodup
  handlers : ∀ o, (∃ h ∈ s.handlers, h.action = o) ↔
    t.Contains o ∧ (∃ root ∈ roots, o.Below root) ∧ HoldsHandler t o
  apart : ∀ b ∈ s.bindings, ∀ b' ∈ s.bindings, ∀ o ∈ b.calls ++ b.references,
    ∀ o' ∈ b'.calls ++ b'.references, o.address = o'.address → b = b'

/-- Whatever markup of a parsed template is scanned, the scan is exhaustive. How its
names are resolved decides only the inputs of a binding, so they may be of any origin. -/
theorem exhaustive_scan (source url : Text) (fields : Binding → List InputField)
    (host : Symbols.Table) (held : ∀ root ∈ roots, (Markup.parse source url).template.Contains root)
    (markup : ∀ root ∈ roots, root.kind.isMarkup = true) :
    Scan.Exhaustive (Markup.parse source url).template roots
      { scan (Markup.parse source url).template roots host with
        bindings := bindingsWith fields (Markup.parse source url).template roots host } := by
  have valued := Markup.valued_parse source url
  have scanned : Scanned _ roots (bindingsWith fields _ roots host) :=
    scanned_bindingsWith fields held
  constructor
  case owners => exact scanned.owners
  case bindings =>
    intro o
    constructor
    · rintro ⟨b, member, rfl⟩
      obtain ⟨original, listed, rfl⟩ := mem_bindingsWith_iff.mp member
      have found := found_of_mem held listed
      exact ⟨scanned.contains _ member, scanned.below _ member, found.holdsBinding⟩
    · rintro ⟨contained, ⟨root, selected, below⟩, holds⟩
      have found : ∃ b ∈ (scan _ roots host).bindings, b.owner = o :=
        exists_binding valued held markup contained selected below holds
      obtain ⟨original, listed, owner_eq⟩ := found
      exact ⟨_, mem_bindingsWith_iff.mpr ⟨original, listed, rfl⟩, owner_eq⟩
  case twoWay =>
    intro b member
    obtain ⟨original, listed, rfl⟩ := mem_bindingsWith_iff.mp member
    have contained := scanned.contains _ member
    exact (found_of_mem held listed).isTwoWay_iff valued contained
  case actions => exact Sequence.nodup_map_distinctBy _ _
  case handlers =>
    intro o
    show (∃ h ∈ (scan (Markup.parse source url).template roots host).handlers, h.action = o) ↔ _
    exact exists_handler_iff valued held markup
  case apart =>
    intro b member b' member' o recorded o' recorded' same
    have below_owner : ∀ b ∈ bindingsWith fields (Markup.parse source url).template roots host,
        ∀ o ∈ b.calls ++ b.references,
          (Markup.parse source url).template.Contains o ∧ o.Below b.owner := by
      intro b member o recorded
      obtain ⟨original, listed, rfl⟩ := mem_bindingsWith_iff.mp member
      have below := below_of_recorded (Markup.shaped_parse source url) held listed recorded
      exact below
    obtain ⟨o_held, below⟩ := below_owner b member o recorded
    obtain ⟨o_held', below'⟩ := below_owner b' member' o' recorded'
    cases o_held.ext o_held' same
    exact scanned.eq_of_below (Markup.mirrors_parse source url) member member' below below'

/-- A two-way binding, a handler, a structural directive and an interpolation, with the
inputs that the scan itself finds. -/
theorem exhaustive_scan_mixed : ∃ source root,
    source = "<i [(a)]=\"f(b)\" (c)=\"d()\" *ngIf=\"e\">\x7b\x7b g \x7d\x7d</i>".toList ∧
      (Markup.parse source []).template.follow? [0] = some root ∧ root.kind.isMarkup = true ∧
      (scan (Markup.parse source []).template [root] {}).Exhaustive
        (Markup.parse source []).template [root] := by
  have passed : ((Markup.parse
      "<i [(a)]=\"f(b)\" (c)=\"d()\" *ngIf=\"e\">\x7b\x7b g \x7d\x7d</i>".toList
      []).template.follow? [0]).any (fun root => root.kind.isMarkup) = true := by
    decide +kernel
  simp only [Option.any_eq_true] at passed
  obtain ⟨root, found, markup⟩ := passed
  have held := (Template.occurrence?_eq_some_iff.mp found).1
  have exhaustive := exhaustive_scan _ [] Binding.fields {} (List.forall_mem_singleton.mpr held)
    (List.forall_mem_singleton.mpr markup)
  rw [bindingsWith_fields] at exhaustive
  exact ⟨_, root, rfl, found, markup, exhaustive⟩

end Fragment

end ComponentExtraction
