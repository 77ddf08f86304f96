import ComponentExtraction.Fragment.Reference
import ComponentExtraction.Proofs.Sequence.Distinct
import ComponentExtraction.Proofs.Tree.Path

/-!
# Which references and calls stand for their chains

A chain grows to the right only: what a reference or a call is followed by
becomes its parent, of which it is the first child. Climbing to the top of a
chain and descending again to its first leaf therefore ends where descending
from the reference itself ends (`topLevelReference?_eq`), and an identifier is
its own top-level reference whenever it is bindable.
-/

namespace ComponentExtraction

open Node

namespace Fragment

variable {t : Template} {o p q root : Occurrence} {address : Address}

/-- Going up from a chain's part to its top does not change the first leaf. -/
theorem leftmostLeaf_climbWhile (shaped : Every Shaped t.root) (held : t.Contains o)
    (continues : continuesChain o.node = true) :
    ∃ chain, t.occurrence? (climbWhile t continuesChain o.address) = some chain ∧
      chain.leftmostLeaf = o.leftmostLeaf := by
  -- Induction on the address: each step up goes from a first child to its parent.
  generalize address_eq : o.address = address
  induction address generalizing o with
  | nil => exact ⟨o, Template.occurrence?_eq_some_iff.mpr ⟨held, address_eq⟩, rfl⟩
  | cons position parent ih =>
    obtain ⟨above, held', above_eq, child⟩ := held.exists_parent address_eq
    have node_eq : t.node? parent = some above.node := above_eq ▸ held'
    by_cases up : continuesChain above.node = true
    · have first : position = 0 := (shaped.of_contains held').position_eq_zero
        (by simpa [continuesChain] using up) child (by simpa [continuesChain] using continues)
      obtain ⟨chain, found, leaf_eq⟩ := ih held' up above_eq
      refine ⟨chain, ?_, leaf_eq.trans ?_⟩
      · simp only [climbWhile, node_eq, up, if_true]
        exact found
      · rw [first] at child address_eq
        exact Occurrence.leftmostLeaf_eq_of_first child (above_eq ▸ address_eq)
    · refine ⟨o, ?_, rfl⟩
      simp only [climbWhile, node_eq, up]
      exact address_eq ▸ held.occurrence?_eq

/-- Only the part of a chain below a reference decides what stands for it. -/
theorem topLevelReference?_eq (shaped : Every Shaped t.root) (held : t.Contains o)
    (reference : o.kind.isReference = true) :
    topLevelReference? t o = bindableAbove? t (parentAddress? o.address) o.leftmostLeaf := by
  have pipe : o.kind.isPipeReference = false := by
    obtain ⟨name, kind_eq⟩ := Kind.isReference_iff.mp reference
    rw [kind_eq]
    rfl
  have continues : continuesChain o.node = true := by
    rw [continuesChain, show o.node.kind.isReference = true from reference, Bool.true_or]
  obtain ⟨chain, found, leaf_eq⟩ := leftmostLeaf_climbWhile shaped held continues
  simp only [topLevelReference?, pipe, found, Option.bind_some, leaf_eq]
  rfl

theorem of_bindableAbove? {path : Address}
    (found : bindableAbove? t (parentAddress? address) (path ++ address) = some p) :
    t.Contains p ∧ isBindable t p = true ∧ ∃ path', p.address = path' ++ address := by
  induction path with
  | nil =>
    cases address with
    | nil => exact absurd found (by simp [bindableAbove?])
    | cons position parent => exact absurd found (by simp [bindableAbove?, parentAddress?])
  | cons position path ih =>
    rw [List.cons_append, bindableAbove?] at found
    split at found
    · exact absurd found (by simp)
    · split at found
      · exact absurd found (by simp)
      · next q q_eq =>
        split at found
        · exact absurd found (by simp)
        · split at found
          · next bindable =>
            obtain ⟨held, address_eq⟩ := Template.occurrence?_eq_some_iff.mp q_eq
            cases found
            exact ⟨held, bindable, path, address_eq⟩
          · exact ih found

theorem of_topLevelReference? (shaped : Every Shaped t.root) (held : t.Contains o)
    (reference : o.kind.isReference = true) (found : topLevelReference? t o = some p) :
    t.Contains p ∧ isBindable t p = true ∧ (p.address = o.address ∨ p.Below o) := by
  rw [topLevelReference?_eq shaped held reference] at found
  obtain ⟨path, leaf_eq⟩ := o.exists_leftmostLeaf
  rw [leaf_eq] at found
  obtain ⟨held', bindable, path', address_eq⟩ := of_bindableAbove? found
  exact ⟨held', bindable, Occurrence.eq_or_below_of_address address_eq⟩

theorem isReference_of_isBindable (bindable : isBindable t o = true) :
    o.kind.isReference = true := by
  rw [isBindable, Bool.and_eq_true] at bindable
  exact bindable.1

theorem topLevelReference?_identifier {name : Text} (shaped : Every Shaped t.root)
    (held : t.Contains o) (identifier : o.node.identifier? = some name)
    (bindable : isBindable t o = true) : topLevelReference? t o = some o := by
  have reference := isReference_of_isBindable bindable
  obtain ⟨-, span, children_eq⟩ := (shaped.of_contains held).of_identifier? identifier
  have leaf_eq : o.leftmostLeaf = 0 :: o.address := by
    rw [Occurrence.leftmostLeaf_eq_of_first (o := ⟨0 :: o.address, leaf span⟩)
      (by rw [children_eq]; rfl) rfl]
    rfl
  have inside : some o.address ≠ parentAddress? o.address := by
    cases o.address with
    | nil => simp [parentAddress?]
    | cons position parent =>
      intro equal
      have := congrArg List.length (Option.some.inj equal)
      simp at this
  have kind_eq : o.kind = .reference name := kind_of_identifier? identifier
  rw [topLevelReference?_eq shaped held reference, leaf_eq, bindableAbove?, if_neg inside,
    held.occurrence?_eq]
  simp [kind_eq, Kind.isPipeReference, Kind.isCall, bindable]

/-- What stands for the references below a node, none of them lost. -/
theorem mem_topLevelReferences_iff (shaped : Every Shaped t.root) (held : t.Contains root) :
    p ∈ topLevelReferences t root ↔ ∃ o ∈ root.descendants,
      o.kind.isReference = true ∧ topLevelReference? t o = some p := by
  have contained : ∀ p ∈ (root.descendants.filter fun o => o.kind.isReference).filterMap
      (topLevelReference? t), t.Contains p := by
    intro p member
    obtain ⟨o, member, found⟩ := List.mem_filterMap.mp member
    obtain ⟨below, reference⟩ := List.mem_filter.mp member
    have contained := Occurrence.contains_of_mem_descendants held below
    exact (of_topLevelReference? shaped contained reference found).1
  rw [topLevelReferences, Sequence.mem_distinctBy_of_injective fun p hp q hq same =>
    (contained p hp).ext (contained q hq) same]
  simp only [List.mem_filterMap, List.mem_filter, and_assoc]

/-- Whatever stands for a reference below a node is bindable and below it too. -/
theorem of_mem_topLevelReferences (shaped : Every Shaped t.root) (held : t.Contains root)
    (member : p ∈ topLevelReferences t root) :
    p ∈ root.descendants ∧ isBindable t p = true := by
  obtain ⟨o, below, reference, found⟩ := (mem_topLevelReferences_iff shaped held).mp member
  obtain ⟨held', below⟩ := (Occurrence.mem_descendants_iff held).mp below
  obtain ⟨contained, bindable, same | lower⟩ := of_topLevelReference? shaped held' reference found
  · cases contained.ext held' same
    exact ⟨(Occurrence.mem_descendants_iff held).mpr ⟨held', below⟩, bindable⟩
  · exact ⟨(Occurrence.mem_descendants_iff held).mpr ⟨contained, lower.trans below⟩, bindable⟩

theorem of_nearestCall? (found : nearestCall? t address = some p) :
    t.Contains p ∧ p.kind.isCall = true := by
  induction address with
  | nil =>
    obtain ⟨found, call⟩ := Option.filter_eq_some_iff.mp found
    exact ⟨(Template.occurrence?_eq_some_iff.mp found).1, call⟩
  | cons position parent ih =>
    rw [nearestCall?] at found
    split at found
    · next o o_eq =>
      split at found
      · next call =>
        cases found
        exact ⟨(Template.occurrence?_eq_some_iff.mp o_eq).1, call⟩
      · exact ih found
    · exact ih found

theorem nearestCall?_call (held : t.Contains p) (call : p.kind.isCall = true) :
    nearestCall? t p.address = some p := by
  have found := held.occurrence?_eq
  cases address_eq : p.address with
  | nil =>
    rw [address_eq] at found
    simp [nearestCall?, found, call]
  | cons position parent =>
    rw [address_eq] at found
    simp [nearestCall?, found, call]

theorem nearestCall?_other {position : Nat} {parent : Address} (held : t.Contains o)
    (address_eq : o.address = position :: parent) (other : o.kind.isCall = false) :
    nearestCall? t (position :: parent) = nearestCall? t parent := by
  have found := held.occurrence?_eq
  rw [address_eq] at found
  simp [nearestCall?, found, other]

theorem mem_topLevelCalls_iff : p ∈ topLevelCalls t root ↔ ∃ o ∈ root.descendants,
    o.kind.isCall = true ∧ isInsideArguments t root o = false ∧
      nearestCall? t o.leftmostLeaf = some p := by
  have contained : ∀ p ∈ (root.descendants.filter fun o =>
      o.kind.isCall && !isInsideArguments t root o).filterMap
        fun o => nearestCall? t o.leftmostLeaf, t.Contains p := by
    intro p member
    obtain ⟨o, -, found⟩ := List.mem_filterMap.mp member
    exact (of_nearestCall? found).1
  rw [topLevelCalls, Sequence.mem_distinctBy_of_injective fun p hp q hq same =>
    (contained p hp).ext (contained q hq) same]
  simp only [List.mem_filterMap, List.mem_filter, Bool.and_eq_true, Bool.not_eq_true', and_assoc]

theorem isCall_of_mem_topLevelCalls (member : p ∈ topLevelCalls t root) :
    p.kind.isCall = true := by
  obtain ⟨o, -, -, -, found⟩ := mem_topLevelCalls_iff.mp member
  exact (of_nearestCall? found).2

theorem nearestCall?_leftmostLeaf {name : Text} (shaped : Every Shaped t.root)
    (held : t.Contains p) (call : p.kind.isCall = true) (held' : t.Contains o)
    (callee : p.node.children[0]? = some o.node) (address_eq : o.address = 0 :: p.address)
    (identifier : o.node.identifier? = some name) :
    nearestCall? t p.leftmostLeaf = some p := by
  obtain ⟨-, span, children_eq⟩ := (shaped.of_contains held').of_identifier? identifier
  have leaf_eq : p.leftmostLeaf = 0 :: 0 :: p.address := by
    rw [Occurrence.leftmostLeaf_eq_of_first callee address_eq,
      Occurrence.leftmostLeaf_eq_of_first (o := ⟨0 :: o.address, leaf span⟩)
        (by rw [children_eq]; rfl) rfl, ← address_eq]
    rfl
  have leaf_held : t.Contains ⟨0 :: o.address, leaf span⟩ := by
    rw [Template.Contains, Template.node?_cons, held', Option.bind_some, children_eq]
    rfl
  have callee_kind : o.kind.isCall = false := by
    rw [show o.kind = .reference name from kind_of_identifier? identifier]
    rfl
  rw [leaf_eq, nearestCall?_other leaf_held (by rw [address_eq]) rfl,
    nearestCall?_other held' address_eq callee_kind]
  exact nearestCall?_call held call

theorem mem_topLevelCalls_of_callee {name : Text} (shaped : Every Shaped t.root)
    (held : t.Contains root) (below : p ∈ root.descendants) (call : p.kind.isCall = true)
    (callee : p.node.children[0]? = some o.node) (address_eq : o.address = 0 :: p.address)
    (held' : t.Contains o) (identifier : o.node.identifier? = some name)
    (outside : isInsideArguments t root p = false) :
    p ∈ topLevelCalls t root ∧ p.node.calleeName? = some name := by
  have contained := Occurrence.contains_of_mem_descendants held below
  refine ⟨mem_topLevelCalls_iff.mpr ⟨p, below, call, outside,
    nearestCall?_leftmostLeaf shaped contained call held' callee address_eq identifier⟩, ?_⟩
  obtain ⟨named, -⟩ := (shaped.of_contains held').of_identifier? identifier
  have kind_eq : o.node.kind = .reference name := kind_of_identifier? identifier
  have head_eq : p.node.callee? = some o.node := by
    rw [callee?, if_pos (show p.node.kind.isCall = true from call), List.head?_eq_getElem?]
    exact callee
  simp [calleeName?, head_eq, kind_eq, Kind.referenceName?, named]

end Fragment

end ComponentExtraction
