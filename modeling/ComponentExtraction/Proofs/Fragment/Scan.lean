import ComponentExtraction.Fragment.Scan
import ComponentExtraction.Proofs.Sequence.Distinct
import ComponentExtraction.Proofs.Tree.Occurrence

/-!
# The bindings of a fragment

A scan lists each binding once, by the place of the node that holds its
expression. Different attributes and expressions have different such nodes, so
no binding is lost: the bindings of a fragment are exactly those of the nodes
below its roots. Each of them is `Binding.build` of its owner, which is what
later proofs know about a binding.
-/

namespace ComponentExtraction

namespace Fragment

variable {t : Template} {scope : Symbols.Scope} {roots : List Occurrence} {host : Symbols.Table}
variable {o p root : Occurrence} {b b' : Binding}

def isOwnerKind : Kind → Bool
  | .binding | .interpolation | .templateBinding _ => true
  | _ => false

theorem of_attributeExpression? {kind : Kind} (found : attributeExpression? kind o = some p) :
    p ∈ o.children ∧ p.kind = kind :=
  ⟨List.mem_of_find?_eq_some found, by simpa using List.find?_some found⟩

theorem eq_of_mem_children (ho : t.Contains o) (hp : t.Contains p) {child child' : Occurrence}
    (member : child ∈ o.children) (member' : child' ∈ p.children)
    (same : child.address = child'.address) : o = p := by
  obtain ⟨i, -, address_eq⟩ := Occurrence.mem_children_iff.mp member
  obtain ⟨j, -, address_eq'⟩ := Occurrence.mem_children_iff.mp member'
  rw [address_eq, address_eq', List.cons.injEq] at same
  exact ho.ext hp same.2

theorem of_attributeBinding? (found : attributeBinding? t scope o = some b) :
    b = Binding.build t scope b.owner b.bananaBox ∧ b.owner ∈ o.children ∧
      b.owner.kind = .binding := by
  unfold attributeBinding? at found
  split at found
  · obtain ⟨owner, owner_eq, rfl⟩ := Option.map_eq_some_iff.mp found
    exact ⟨rfl, of_attributeExpression? owner_eq⟩
  · obtain ⟨owner, owner_eq, rfl⟩ := Option.map_eq_some_iff.mp found
    exact ⟨rfl, of_attributeExpression? owner_eq⟩
  · exact absurd found (by simp)

theorem of_expressionBinding? (found : expressionBinding? t scope o = some b) :
    b = Binding.build t scope o none ∧ isOwnerKind o.kind = true ∧ o.kind ≠ .binding := by
  unfold expressionBinding? at found
  split at found
  · next kind_eq => exact ⟨(Option.some.inj found).symm, by simp [kind_eq, isOwnerKind]⟩
  · next kind_eq => exact ⟨(Option.some.inj found).symm, by simp [kind_eq, isOwnerKind]⟩
  · exact absurd found (by simp)

theorem mem_rootBindings_iff : b ∈ rootBindings t scope root ↔ ∃ o ∈ root.descendants,
    attributeBinding? t scope o = some b ∨ expressionBinding? t scope o = some b := by
  rw [rootBindings, List.mem_append, List.mem_filterMap, List.mem_filterMap]
  constructor
  · rintro (⟨o, below, found⟩ | ⟨o, below, found⟩)
    · exact ⟨o, below, .inl found⟩
    · exact ⟨o, below, .inr found⟩
  · rintro ⟨o, below, found | found⟩
    · exact .inl ⟨o, below, found⟩
    · exact .inr ⟨o, below, found⟩

/-- What is known of a binding: its owner, and that everything else follows from
the owner. -/
structure Binding.Built (t : Template) (scope : Symbols.Scope) (b : Binding) : Prop where
  contains : t.Contains b.owner
  owner : isOwnerKind b.owner.kind = true
  eq_build : b = Binding.build t scope b.owner b.bananaBox

theorem built_of_mem_rootBindings (held : t.Contains root)
    (member : b ∈ rootBindings t scope root) : b.Built t scope := by
  obtain ⟨o, below, found | found⟩ := mem_rootBindings_iff.mp member
  · obtain ⟨eq_build, child, kind_eq⟩ := of_attributeBinding? found
    have contained := Occurrence.contains_of_mem_descendants held below
    exact ⟨Occurrence.contains_of_mem_children contained child, by simp [kind_eq, isOwnerKind],
      eq_build⟩
  · obtain ⟨rfl, owner, -⟩ := of_expressionBinding? found
    exact ⟨Occurrence.contains_of_mem_descendants held below, owner, rfl⟩

/-- A binding is determined by the place of its owner: only one attribute, or
one expression, can have it. -/
theorem eq_of_owner_address (ho : t.Contains o) (hp : t.Contains p)
    (found : attributeBinding? t scope o = some b ∨ expressionBinding? t scope o = some b)
    (found' : attributeBinding? t scope p = some b' ∨ expressionBinding? t scope p = some b')
    (same : b.owner.address = b'.owner.address) : b = b' := by
  rcases found with found | found
  · obtain ⟨-, child, kind_eq⟩ := of_attributeBinding? found
    rcases found' with found' | found'
    · obtain ⟨-, child', -⟩ := of_attributeBinding? found'
      cases eq_of_mem_children ho hp child child' same
      exact Option.some.inj (found.symm.trans found')
    · obtain ⟨rfl, -, differs⟩ := of_expressionBinding? found'
      have owner_eq := (Occurrence.contains_of_mem_children ho child).ext hp same
      exact absurd (owner_eq ▸ kind_eq) differs
  · obtain ⟨rfl, -, differs⟩ := of_expressionBinding? found
    rcases found' with found' | found'
    · obtain ⟨-, child', kind_eq⟩ := of_attributeBinding? found'
      have owner_eq := ho.ext (Occurrence.contains_of_mem_children hp child') same
      exact absurd (owner_eq ▸ kind_eq) differs
    · obtain ⟨rfl, -⟩ := of_expressionBinding? found'
      cases ho.ext hp same
      rfl

theorem mem_bindings_iff (held : ∀ root ∈ roots, t.Contains root) :
    b ∈ (scan t roots host).bindings ↔
      ∃ root ∈ roots, b ∈ rootBindings t (scopeOf roots host) root := by
  rw [scan, Sequence.mem_distinctBy_of_injective, List.mem_flatMap]
  intro b member b' member' same
  obtain ⟨root, selected, member⟩ := List.mem_flatMap.mp member
  obtain ⟨root', selected', member'⟩ := List.mem_flatMap.mp member'
  obtain ⟨o, below, found⟩ := mem_rootBindings_iff.mp member
  obtain ⟨p, below', found'⟩ := mem_rootBindings_iff.mp member'
  have ho := Occurrence.contains_of_mem_descendants (held root selected) below
  have hp := Occurrence.contains_of_mem_descendants (held root' selected') below'
  exact eq_of_owner_address ho hp found found' same

theorem built_of_mem_bindings (held : ∀ root ∈ roots, t.Contains root)
    (member : b ∈ (scan t roots host).bindings) : b.Built t (scopeOf roots host) := by
  obtain ⟨root, selected, member⟩ := (mem_bindings_iff held).mp member
  exact built_of_mem_rootBindings (held root selected) member

end Fragment

end ComponentExtraction
