import ComponentExtraction.Proofs.Fragment.Calls
import ComponentExtraction.Proofs.Fragment.Scan
import ComponentExtraction.Proofs.Fragment.Selection
import Mathlib.Data.List.Nodup

/-!
# Where the marks of a scan stand

A scan marks calls and two-way bindings. What is known of their places does not
depend on how the references of the fragment are resolved (`scanned_bindingsWith`): the
expressions of different bindings are not nested, so each call is recorded by one
binding, and every two-way binding that has a value is recorded with it.
-/

namespace ComponentExtraction

theorem Occurrence.nested_of_below {c o p : Occurrence} (below : c.Below o) (below' : c.Below p) :
    o.address = p.address ∨ o.Below p ∨ p.Below o := by
  rcases List.suffix_or_suffix_of_suffix below.suffix below'.suffix with ⟨path, eq⟩ | ⟨path, eq⟩
  · rcases eq_or_below_of_address eq.symm with same | lower
    · exact .inl same.symm
    · exact .inr (.inr lower)
  · rcases eq_or_below_of_address eq.symm with same | lower
    · exact .inl same
    · exact .inr (.inl lower)

namespace Fragment

open Node

variable {t : Template} {scope : Symbols.Scope} {roots : List Occurrence} {host : Symbols.Table}
variable {root box : Occurrence} {b b' : Binding} {bindings : List Binding}

theorem layer_of_isOwnerKind {kind : Kind} (owner : isOwnerKind kind = true) : kind.layer = 2 := by
  unfold isOwnerKind at owner
  split at owner
  · rfl
  · rfl
  · rfl
  · exact absurd owner (by simp)

/-- What the bindings of a fragment record, whatever their inputs are.
Nothing of it depends on how the names in the fragment are resolved. -/
structure Scanned (t : Template) (roots : List Occurrence) (bindings : List Binding) : Prop where
  owners : (bindings.map fun b => b.owner.address).Nodup
  contains : ∀ b ∈ bindings, t.Contains b.owner
  owner : ∀ b ∈ bindings, isOwnerKind b.owner.kind = true
  below : ∀ b ∈ bindings, ∃ root ∈ roots, b.owner.Below root
  calls : ∀ b ∈ bindings, b.calls = topLevelCalls t b.owner
  boxes : ∀ b ∈ bindings, ∀ box, b.bananaBox = some box →
    (∃ root ∈ roots, box ∈ root.descendants) ∧ (∃ property, box.kind = .bananaBox property) ∧
      attributeExpression? .binding box = some b.owner
  complete : ∀ root ∈ roots, ∀ box ∈ root.descendants, ∀ property owner,
    box.kind = .bananaBox property → attributeExpression? .binding box = some owner →
      ∃ b ∈ bindings, b.owner = owner ∧ b.bananaBox = some box

theorem below_of_mem_rootBindings (held : t.Contains root)
    (member : b ∈ rootBindings t scope root) : b.owner.Below root := by
  obtain ⟨o, below, found | found⟩ := mem_rootBindings_iff.mp member
  · obtain ⟨-, child, -⟩ := of_attributeBinding? found
    obtain ⟨i, -, address_eq⟩ := Occurrence.mem_children_iff.mp child
    have o_below := ((Occurrence.mem_descendants_iff held).mp below).2
    exact Occurrence.Below.trans (.of_child address_eq) o_below
  · obtain ⟨rfl, -⟩ := of_expressionBinding? found
    exact ((Occurrence.mem_descendants_iff held).mp below).2

theorem box_of_mem_rootBindings (member : b ∈ rootBindings t scope root)
    (boxed : b.bananaBox = some box) : box ∈ root.descendants ∧
      (∃ property, box.kind = .bananaBox property) ∧
      attributeExpression? .binding box = some b.owner := by
  obtain ⟨o, below, found | found⟩ := mem_rootBindings_iff.mp member
  · unfold attributeBinding? at found
    split at found
    · next property kind_eq =>
      obtain ⟨owner, owner_eq, rfl⟩ := Option.map_eq_some_iff.mp found
      cases boxed
      exact ⟨below, ⟨property, kind_eq⟩, owner_eq⟩
    · obtain ⟨owner, owner_eq, rfl⟩ := Option.map_eq_some_iff.mp found
      exact absurd boxed (by simp [Binding.build])
    · exact absurd found (by simp)
  · obtain ⟨rfl, -⟩ := of_expressionBinding? found
    exact absurd boxed (by simp [Binding.build])

/-- The bindings of a fragment with inputs of any origin. However the references
of the fragment are resolved, nothing else about its bindings changes. -/
def bindingsWith (fields : Binding → List InputField) (t : Template) (roots : List Occurrence)
    (host : Symbols.Table) : List Binding :=
  (scan t roots host).bindings.map fun b => { b with fields := fields b }

@[simp] theorem bindingsWith_fields (t : Template) (roots : List Occurrence)
    (host : Symbols.Table) :
    bindingsWith Binding.fields t roots host = (scan t roots host).bindings :=
  List.map_id _

theorem mem_bindingsWith_iff {fields : Binding → List InputField} :
    b ∈ bindingsWith fields t roots host ↔
      ∃ original ∈ (scan t roots host).bindings, { original with fields := fields original } = b :=
  List.mem_map

theorem scanned_bindingsWith (fields : Binding → List InputField)
    (held : ∀ root ∈ roots, t.Contains root) :
    Scanned t roots (bindingsWith fields t roots host) := by
  have each : ∀ {P : Binding → Prop}, (∀ b ∈ (scan t roots host).bindings,
      P { b with fields := fields b }) → ∀ b ∈ bindingsWith fields t roots host, P b := by
    intro P holds b member
    obtain ⟨original, listed, rfl⟩ := mem_bindingsWith_iff.mp member
    exact holds original listed
  refine ⟨?_, each ?_, each ?_, each ?_, each ?_, each ?_, ?_⟩
  · rw [bindingsWith, List.map_map]
    exact Sequence.nodup_map_distinctBy _ _
  · intro b member
    exact (built_of_mem_bindings held member).contains
  · intro b member
    exact (built_of_mem_bindings held member).owner
  · intro b member
    obtain ⟨root, selected, listed⟩ := (mem_bindings_iff held).mp member
    have below : b.owner.Below root := below_of_mem_rootBindings (held root selected) listed
    exact ⟨root, selected, below⟩
  · intro b member
    have eq_build := (built_of_mem_bindings held member).eq_build
    exact congrArg Binding.calls eq_build
  · intro b member box boxed
    obtain ⟨root, selected, member⟩ := (mem_bindings_iff held).mp member
    obtain ⟨below, property, valued⟩ := box_of_mem_rootBindings member boxed
    exact ⟨⟨root, selected, below⟩, property, valued⟩
  · intro root selected box below property owner kind_eq valued
    have found : attributeBinding? t (scopeOf roots host) box =
        some (Binding.build t (scopeOf roots host) owner (some box)) := by
      rw [attributeBinding?, kind_eq]
      dsimp only
      rw [valued]
      rfl
    have member : Binding.build t (scopeOf roots host) owner (some box) ∈
        (scan t roots host).bindings :=
      (mem_bindings_iff held).mpr
        ⟨root, selected, mem_rootBindings_iff.mpr ⟨box, below, .inl found⟩⟩
    exact ⟨_, List.mem_map_of_mem member, rfl, rfl⟩

namespace Scanned

/-- A binding is determined by the place of its owner. -/
theorem eq_of_owner (scanned : Scanned t roots bindings) (member : b ∈ bindings)
    (member' : b' ∈ bindings) (same : b.owner.address = b'.owner.address) : b = b' :=
  List.inj_on_of_nodup_map scanned.owners member member' same

/-- The expressions of different bindings are not nested. -/
theorem eq_of_below (scanned : Scanned t roots bindings) (mirrors : t.Mirrors)
    (member : b ∈ bindings) (member' : b' ∈ bindings) {c : Occurrence} (below : c.Below b.owner)
    (below' : c.Below b'.owner) : b = b' := by
  have layer : ∀ b ∈ bindings, b.owner.kind.layer = 2 := by
    intro b member
    exact layer_of_isOwnerKind (scanned.owner b member)
  have apart : ∀ b ∈ bindings, ∀ b' ∈ bindings, ¬ b.owner.Below b'.owner := by
    intro b member b' member' nested
    have deeper := mirrors.layer_of_below (scanned.contains b' member') (scanned.contains b member)
      nested (by rw [layer b' member']; exact Nat.succ_pos 1)
    rw [layer b member, layer b' member'] at deeper
    exact absurd deeper (by decide)
  rcases Occurrence.nested_of_below below below' with same | nested | nested
  · exact scanned.eq_of_owner member member' same
  · exact absurd nested (apart b member b' member')
  · exact absurd nested (apart b' member' b member)

theorem of_mem_calls (scanned : Scanned t roots bindings) {c : Occurrence}
    (recorded : c ∈ bindings.flatMap Binding.calls) :
    t.Contains c ∧ c.kind.isCall = true ∧ (∃ root ∈ roots, c.Below root) ∧
      nearestCall? t c.leftmostLeaf = some c := by
  obtain ⟨b, member, listed⟩ := List.mem_flatMap.mp recorded
  rw [scanned.calls b member] at listed
  obtain ⟨held, call, below, innermost⟩ := of_mem_topLevelCalls (scanned.contains b member) listed
  obtain ⟨root, selected, owner_below⟩ := scanned.below b member
  exact ⟨held, call, ⟨root, selected, below.trans owner_below⟩, innermost⟩

theorem nodup_calls (scanned : Scanned t roots bindings) (mirrors : t.Mirrors) :
    (bindings.flatMap Binding.calls).Pairwise fun c c' => c.address ≠ c'.address := by
  refine List.pairwise_flatMap.mpr ⟨?_, ?_⟩
  · intro b member
    rw [scanned.calls b member]
    exact List.pairwise_map.mp (nodup_topLevelCalls t b.owner)
  · have differ := List.pairwise_map.mp scanned.owners
    refine differ.imp_of_mem ?_
    intro b b' member member' different c listed c' listed' same
    rw [scanned.calls b member] at listed
    rw [scanned.calls b' member'] at listed'
    obtain ⟨held, -, below, -⟩ := of_mem_topLevelCalls (scanned.contains b member) listed
    obtain ⟨held', -, below', -⟩ := of_mem_topLevelCalls (scanned.contains b' member') listed'
    cases held.ext held' same
    exact different (congrArg (fun b => b.owner.address)
      (scanned.eq_of_below mirrors member member' below below'))

theorem contains_box (scanned : Scanned t roots bindings) (held : ∀ root ∈ roots, t.Contains root)
    (member : b ∈ bindings) (boxed : b.bananaBox = some box) : t.Contains box := by
  obtain ⟨⟨root, selected, listed⟩, -⟩ := scanned.boxes b member box boxed
  exact Occurrence.contains_of_mem_descendants (held root selected) listed

theorem nodup_boxes (scanned : Scanned t roots bindings) :
    bindings.Pairwise fun b b' => ∀ box, b.bananaBox = some box → ∀ box', b'.bananaBox = some box' →
      box ≠ box' := by
  have differ := List.pairwise_map.mp scanned.owners
  refine differ.imp_of_mem ?_
  rintro b b' member member' different box boxed box' boxed' rfl
  obtain ⟨-, -, valued⟩ := scanned.boxes b member box boxed
  obtain ⟨-, -, valued'⟩ := scanned.boxes b' member' box boxed'
  exact different (congrArg Occurrence.address (Option.some.inj (valued.symm.trans valued')))

end Scanned

end Fragment

end ComponentExtraction
