import ComponentExtraction.Tree.Template

/-!
# Occurrences and their addresses

An occurrence belongs to a template when its address leads to its node. Among
such occurrences the address decides everything: which one it is, what lies
below it and what lies above it. `Occurrence.descendants` walks down the nodes
and `Template.ancestors` walks up the addresses; both are characterized here by
one relation between addresses, so later proofs use neither walk.
-/

namespace ComponentExtraction

namespace Template

def Contains (t : Template) (o : Occurrence) : Prop :=
  t.node? o.address = some o.node

variable {t : Template} {o p : Occurrence} {address : Address}

@[simp] theorem node?_cons (t : Template) (position : Nat) (parent : Address) :
    t.node? (position :: parent) =
      (t.node? parent).bind fun node => node.children[position]? := rfl

theorem Contains.ext (ho : t.Contains o) (hp : t.Contains p) (same : o.address = p.address) :
    o = p := by
  have node_eq : o.node = p.node := by
    have := ho
    rw [Contains, same, hp] at this
    exact (Option.some.inj this).symm
  cases o
  cases p
  simp_all

theorem occurrence?_eq_some_iff :
    t.occurrence? address = some o ↔ t.Contains o ∧ o.address = address := by
  rw [occurrence?, Option.map_eq_some_iff]
  constructor
  · rintro ⟨node, found, rfl⟩
    exact ⟨found, rfl⟩
  · rintro ⟨held, rfl⟩
    exact ⟨o.node, held, rfl⟩

theorem Contains.occurrence?_eq (held : t.Contains o) : t.occurrence? o.address = some o :=
  occurrence?_eq_some_iff.mpr ⟨held, rfl⟩

/-- Every place above a node is taken by a node, of which it is a child. -/
theorem Contains.exists_parent {position : Nat} {parent : Address} (held : t.Contains o)
    (address_eq : o.address = position :: parent) :
    ∃ above, t.Contains above ∧ above.address = parent ∧
      above.node.children[position]? = some o.node := by
  rw [Contains, address_eq, node?_cons, Option.bind_eq_some_iff] at held
  obtain ⟨node, found, child⟩ := held
  exact ⟨⟨parent, node⟩, found, rfl, child⟩

theorem Contains.parent?_eq {position : Nat} (held : t.Contains p)
    (address_eq : o.address = position :: p.address) : t.parent? o = some p := by
  rw [parent?, address_eq]
  exact held.occurrence?_eq

theorem Contains.of_parent? (held : t.Contains o) (parent_eq : t.parent? o = some p) :
    t.Contains p ∧ ∃ position, o.address = position :: p.address ∧
      p.node.children[position]? = some o.node := by
  cases address_eq : o.address with
  | nil => simp [parent?, address_eq] at parent_eq
  | cons position parent =>
    obtain ⟨above, above_held, rfl, child⟩ := held.exists_parent address_eq
    cases (above_held.parent?_eq address_eq).symm.trans parent_eq
    exact ⟨above_held, position, rfl, child⟩

end Template

namespace Occurrence

variable {t : Template} {o p q : Occurrence}

def Below (o p : Occurrence) : Prop :=
  ∃ position path, o.address = position :: path ++ p.address

theorem Below.trans (hop : o.Below p) (hpq : p.Below q) : o.Below q := by
  obtain ⟨i, path, o_eq⟩ := hop
  obtain ⟨j, path', p_eq⟩ := hpq
  exact ⟨i, path ++ j :: path', by simp [o_eq, p_eq]⟩

theorem Below.length_lt (h : o.Below p) : p.address.length < o.address.length := by
  obtain ⟨position, path, o_eq⟩ := h
  simp only [o_eq, List.cons_append, List.length_cons, List.length_append]
  omega

theorem Below.suffix (h : o.Below p) : p.address <:+ o.address := by
  obtain ⟨position, path, o_eq⟩ := h
  exact ⟨position :: path, o_eq.symm⟩

theorem Below.of_child {position : Nat} (address_eq : o.address = position :: p.address) :
    o.Below p :=
  ⟨position, [], address_eq⟩

/-- What lies above a node lies at or above its parent. -/
theorem Below.eq_or_below_parent {position : Nat} (h : o.Below q)
    (address_eq : o.address = position :: p.address) : p.address = q.address ∨ p.Below q := by
  obtain ⟨i, path, o_eq⟩ := h
  rw [address_eq, List.cons_append, List.cons.injEq] at o_eq
  cases path with
  | nil => exact .inl o_eq.2
  | cons j path => exact .inr ⟨j, path, o_eq.2⟩

theorem mem_siblings_iff {parent : Address} {position : Nat} {nodes : List Node} :
    o ∈ siblings parent position nodes ↔
      ∃ i node, nodes[i]? = some node ∧ o = ⟨(position + i) :: parent, node⟩ := by
  induction nodes generalizing position with
  | nil => simp [siblings]
  | cons first nodes ih =>
    rw [siblings, List.mem_cons, ih]
    constructor
    · rintro (rfl | ⟨i, node, found, rfl⟩)
      · exact ⟨0, first, rfl, rfl⟩
      · exact ⟨i + 1, node, found, by simp [Nat.add_assoc, Nat.add_comm 1 i]⟩
    · rintro ⟨i, node, found, rfl⟩
      cases i with
      | zero =>
        cases found
        exact .inl rfl
      | succ i => exact .inr ⟨i, node, found, by simp [Nat.add_assoc, Nat.add_comm 1 i]⟩

theorem mem_children_iff :
    o ∈ p.children ↔
      ∃ i, p.node.children[i]? = some o.node ∧ o.address = i :: p.address := by
  rw [children, mem_siblings_iff]
  constructor
  · rintro ⟨i, node, found, rfl⟩
    exact ⟨i, found, by simp⟩
  · rintro ⟨i, found, address_eq⟩
    refine ⟨i, o.node, found, ?_⟩
    cases o
    simp_all

theorem contains_of_mem_children (held : t.Contains p) (child : o ∈ p.children) :
    t.Contains o := by
  obtain ⟨i, found, address_eq⟩ := mem_children_iff.mp child
  rw [Template.Contains] at held ⊢
  rw [address_eq, Template.node?_cons, held]
  exact found

mutual

/-- Walking down from a node meets occurrences of its template only, at or below
the node. -/
theorem contains_of_mem_preorder {address : Address} {node : Node}
    (held : t.node? address = some node) (member : o ∈ preorder address node) :
    t.Contains o ∧ (o = ⟨address, node⟩ ∨ o.Below ⟨address, node⟩) := by
  cases node with
  | mk kind span children =>
    rw [preorder, List.mem_cons] at member
    rcases member with rfl | below
    · exact ⟨held, .inl rfl⟩
    · have all : ∀ i child, children[i]? = some child →
          t.node? ((0 + i) :: address) = some child := by
        intro i child found
        rw [Template.node?_cons, held, Nat.zero_add]
        exact found
      obtain ⟨contained, i, path, address_eq⟩ := contains_of_mem_preorderAll all below
      exact ⟨contained, .inr ⟨i, path, address_eq⟩⟩

theorem contains_of_mem_preorderAll {parent : Address} {position : Nat} {nodes : List Node}
    (held : ∀ i node, nodes[i]? = some node → t.node? ((position + i) :: parent) = some node)
    (member : o ∈ preorderAll parent position nodes) :
    t.Contains o ∧ ∃ i path, o.address = i :: path ++ parent := by
  cases nodes with
  | nil => simp [preorderAll] at member
  | cons node nodes =>
    rw [preorderAll, List.mem_append] at member
    rcases member with inside | later
    · obtain ⟨contained, rfl | ⟨i, path, address_eq⟩⟩ :=
        contains_of_mem_preorder (held 0 node rfl) inside
      · exact ⟨contained, position, [], rfl⟩
      · exact ⟨contained, i, path ++ [position], by simp [address_eq]⟩
    · refine contains_of_mem_preorderAll (fun i child found => ?_) later
      rw [Nat.add_assoc, Nat.add_comm 1 i]
      exact held (i + 1) child found

end

theorem preorder_eq (address : Address) (node : Node) :
    preorder address node = ⟨address, node⟩ :: preorderAll address 0 node.children := by
  cases node
  rfl

theorem mem_preorderAll_of_mem_siblings {parent : Address} {position : Nat} {nodes : List Node}
    (member : o ∈ siblings parent position nodes) : o ∈ preorderAll parent position nodes := by
  induction nodes generalizing position with
  | nil => exact absurd member List.not_mem_nil
  | cons node nodes ih =>
    rw [siblings, List.mem_cons] at member
    rw [preorderAll, List.mem_append, preorder_eq, List.mem_cons]
    rcases member with rfl | later
    · exact .inl (.inl rfl)
    · exact .inr (ih later)

mutual

theorem children_subset_preorder {address : Address} {node : Node}
    (member : p ∈ preorder address node) (child : o ∈ p.children) :
    o ∈ preorderAll address 0 node.children := by
  cases node with
  | mk kind span children =>
    rw [preorder, List.mem_cons] at member
    rcases member with rfl | below
    · exact mem_preorderAll_of_mem_siblings child
    · exact children_subset_preorderAll below child

theorem children_subset_preorderAll {parent : Address} {position : Nat} {nodes : List Node}
    (member : p ∈ preorderAll parent position nodes) (child : o ∈ p.children) :
    o ∈ preorderAll parent position nodes := by
  cases nodes with
  | nil => simp [preorderAll] at member
  | cons node nodes =>
    rw [preorderAll, List.mem_append] at member ⊢
    rcases member with inside | later
    · rw [preorder_eq]
      exact .inl (List.mem_cons_of_mem _ (children_subset_preorder inside child))
    · exact .inr (children_subset_preorderAll later child)

end

/-- The descendants of an occurrence are the occurrences below it. -/
theorem mem_descendants_iff (held : t.Contains p) :
    o ∈ p.descendants ↔ t.Contains o ∧ o.Below p := by
  constructor
  · intro member
    have all : ∀ i child, p.node.children[i]? = some child →
        t.node? ((0 + i) :: p.address) = some child := by
      intro i child found
      rw [Template.node?_cons, held, Nat.zero_add]
      exact found
    exact contains_of_mem_preorderAll all member
  · rintro ⟨contained, i, path, address_eq⟩
    -- Induction on the way up: the parent of `o` is `p` or a descendant of it.
    induction path generalizing o i with
    | nil =>
      obtain ⟨above, held', above_eq, child⟩ := contained.exists_parent address_eq
      cases held'.ext held above_eq
      exact mem_preorderAll_of_mem_siblings (mem_children_iff.mpr ⟨i, child, address_eq⟩)
    | cons j path ih =>
      obtain ⟨above, held', above_eq, child⟩ := contained.exists_parent address_eq
      refine children_subset_preorderAll (ih held' j above_eq) ?_
      exact mem_children_iff.mpr ⟨i, child, by rw [address_eq, above_eq]; rfl⟩

theorem contains_of_mem_descendants (held : t.Contains p) (member : o ∈ p.descendants) :
    t.Contains o :=
  ((mem_descendants_iff held).mp member).1

/-- Going up from an occurrence and stopping at `root` meets what lies between
the two. -/
theorem mem_ancestors_below_iff {root : Occurrence} (held : t.Contains o)
    (rooted : t.Contains root) (below : o.Below root) :
    p ∈ ((t.ancestors o).takeWhile fun above => !above.same root) ↔
      t.Contains p ∧ o.Below p ∧ p.Below root := by
  obtain ⟨i, path, address_eq⟩ := below
  rw [Template.ancestors, address_eq]
  change p ∈ ((t.upwardFrom (path ++ root.address)).takeWhile fun above => !above.same root) ↔ _
  induction path generalizing o i with
  | nil =>
    have stops : ((t.upwardFrom root.address).takeWhile fun above => !above.same root) = [] := by
      have found := rooted.occurrence?_eq
      cases root_eq : root.address with
      | nil =>
        rw [root_eq] at found
        simp [Template.upwardFrom, found, same]
      | cons j parent =>
        rw [root_eq] at found
        simp [Template.upwardFrom, found, same]
    rw [List.nil_append, stops]
    constructor
    · intro member
      exact absurd member List.not_mem_nil
    · rintro ⟨-, above, below⟩
      -- Nothing lies strictly between a node and its parent.
      have := above.length_lt
      have := below.length_lt
      simp only [address_eq, List.cons_append, List.nil_append, List.length_cons] at *
      omega
  | cons j path ih =>
    obtain ⟨above, held', above_eq, -⟩ := held.exists_parent address_eq
    change above.address = j :: (path ++ root.address) at above_eq
    have child_eq : o.address = i :: above.address := by
      rw [address_eq, above_eq]
      rfl
    have found : t.occurrence? (j :: (path ++ root.address)) = some above :=
      Template.occurrence?_eq_some_iff.mpr ⟨held', above_eq⟩
    have differs : (!above.same root) = true := by
      have longer : above.address ≠ root.address := by
        intro equal
        have := congrArg List.length (above_eq.symm.trans equal)
        simp only [List.length_cons, List.length_append] at this
        omega
      simpa [same] using longer
    have split : ((t.upwardFrom (j :: path ++ root.address)).takeWhile
        fun above => !above.same root) = above ::
          (t.upwardFrom (path ++ root.address)).takeWhile fun above => !above.same root := by
      simp [Template.upwardFrom, found, differs]
    rw [split, List.mem_cons, ih held' j above_eq]
    constructor
    · rintro (rfl | ⟨held'', between, below⟩)
      · exact ⟨held', .of_child child_eq, ⟨j, path, above_eq⟩⟩
      · exact ⟨held'', Below.trans (.of_child child_eq) between, below⟩
    · rintro ⟨held'', between, below⟩
      rcases between.eq_or_below_parent child_eq with equal | between
      · exact .inl (held''.ext held' equal.symm)
      · exact .inr ⟨held'', between, below⟩

end Occurrence

namespace Template

variable {t : Template} {o p : Occurrence} {address : Address}

theorem mem_upwardFrom_iff : p ∈ t.upwardFrom address ↔ t.Contains p ∧ p.address <:+ address := by
  induction address with
  | nil =>
    rw [upwardFrom, Option.mem_toList, occurrence?_eq_some_iff, List.suffix_nil]
  | cons position parent ih =>
    rw [upwardFrom, List.mem_append, Option.mem_toList, occurrence?_eq_some_iff, ih,
      List.suffix_cons_iff, ← and_or_left]

/-- The nodes above a node are those that it lies below. -/
theorem isAncestorOf_iff (held : t.Contains p) : t.isAncestorOf p o = true ↔ o.Below p := by
  rw [isAncestorOf, List.any_eq_true]
  cases address_eq : o.address with
  | nil =>
    constructor
    · rintro ⟨above, listed, -⟩
      simp [ancestors, address_eq] at listed
    · rintro ⟨position, path, same⟩
      simp [address_eq] at same
  | cons position parent =>
    have listed_iff : ∀ above, above ∈ t.ancestors o ↔
        t.Contains above ∧ above.address <:+ parent := by
      intro above
      rw [ancestors, address_eq, mem_upwardFrom_iff]
    constructor
    · rintro ⟨above, listed, same⟩
      obtain ⟨path, path_eq⟩ := ((listed_iff above).mp listed).2
      rw [Occurrence.same, beq_iff_eq] at same
      exact ⟨position, path, by rw [address_eq, same, List.cons_append, path_eq]⟩
    · rintro ⟨i, path, same⟩
      rw [address_eq, List.cons_append, List.cons.injEq] at same
      exact ⟨p, (listed_iff p).mpr ⟨held, path, same.2.symm⟩, beq_self_eq_true p.address⟩

end Template

end ComponentExtraction
