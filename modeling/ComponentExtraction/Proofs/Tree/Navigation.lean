import ComponentExtraction.Proofs.Tree.Enumeration

/-!
# Going down and going up a tree

Two ways lead down from a node. `Occurrence.descendants` recurs along the tree, and a walk
with a stack of nodes still to be visited (`Occurrence.visit`) needs no recursion; both
list the same nodes in the same order. Two ways lead from a node to its surroundings: the
nodes above it are met by going from parent to parent, and the sibling before it is looked
up by its place. What is met on the way down is what has the node above it, and the
siblings stand in the children of the parent as they are looked up
(`Template.Mirrors.navigable`).
-/

namespace ComponentExtraction

namespace Node

theorem sizeAll_append (nodes more : List Node) :
    sizeAll (nodes ++ more) = sizeAll nodes + sizeAll more := by
  induction nodes with
  | nil => rw [List.nil_append, sizeAll, Nat.zero_add]
  | cons node nodes ih => rw [List.cons_append, sizeAll, sizeAll, ih, Nat.add_assoc]

theorem size_eq (node : Node) : node.size = sizeAll node.children + 1 := by
  cases node
  rw [size, children_mk]

end Node

namespace Occurrence

variable {o : Occurrence}

/-- Visit what is on a stack, the top first. A node that is visited leaves its children on
the stack, the first of them on top. -/
def visit : List Occurrence → List Occurrence
  | [] => []
  | current :: stack => current :: visit (current.children ++ stack)
termination_by stack => Node.sizeAll (stack.map node)
decreasing_by
  rw [List.map_append, List.map_cons, Node.sizeAll_append, map_node_children, Node.sizeAll,
    Node.size_eq]
  omega

theorem preorderAll_eq_flatMap (parent : Address) (position : Nat) (nodes : List Node) :
    preorderAll parent position nodes =
      (siblings parent position nodes).flatMap fun o => preorder o.address o.node := by
  induction nodes generalizing position with
  | nil => rfl
  | cons node nodes ih => rw [preorderAll, siblings, List.flatMap_cons, ih]

theorem visit_eq_flatMap (stack : List Occurrence) :
    visit stack = stack.flatMap fun o => preorder o.address o.node := by
  fun_induction visit stack with
  | case1 => rfl
  | case2 current stack ih =>
    rw [ih, List.flatMap_append, List.flatMap_cons, preorder_eq, List.cons_append, children,
      ← preorderAll_eq_flatMap]

/-- The walk with a stack meets the nodes below a node as the recursion does. -/
theorem visit_children (o : Occurrence) : visit o.children = o.descendants := by
  rw [visit_eq_flatMap, children, ← preorderAll_eq_flatMap, descendants]

theorem descendants_eq_flatMap (o : Occurrence) :
    o.descendants = o.children.flatMap fun child => child :: child.descendants := by
  rw [descendants, preorderAll_eq_flatMap, children]
  simp only [preorder_eq, descendants]

end Occurrence

namespace Template

open Occurrence

variable {t : Template} {o p q : Occurrence}

/-- The nodes above a node are its parent and the nodes above that. -/
theorem Contains.ancestors_eq (held : t.Contains o) :
    t.ancestors o = match t.parent? o with
      | none => []
      | some above => above :: t.ancestors above := by
  cases address_eq : o.address with
  | nil => rw [ancestors, parent?, address_eq]
  | cons position parent =>
    obtain ⟨above, above_held, rfl, -⟩ := held.exists_parent address_eq
    have found := above_held.occurrence?_eq
    rw [above_held.parent?_eq address_eq, ancestors, address_eq]
    dsimp only
    rw [ancestors]
    cases above_eq : above.address with
    | nil =>
      rw [above_eq] at found
      rw [upwardFrom, found]
      rfl
    | cons next rest =>
      rw [above_eq] at found
      rw [upwardFrom, found]
      rfl

theorem mem_descendants_iff_isAncestorOf (hp : t.Contains p) (ho : t.Contains o) :
    o ∈ p.descendants ↔ t.isAncestorOf p o = true := by
  rw [mem_descendants_iff hp, isAncestorOf_iff hp]
  exact ⟨fun below => below.2, fun below => ⟨ho, below⟩⟩

theorem Contains.previousSibling?_eq_some_iff (held : t.Contains o) :
    t.previousSibling? o = some p ↔
      ∃ above, t.parent? o = some above ∧ [p, o] <:+: above.children := by
  constructor
  · intro found
    rw [previousSibling?] at found
    split at found
    · next position parent address_eq =>
      obtain ⟨above, above_held, rfl, child⟩ := held.exists_parent address_eq
      obtain ⟨p_held, p_eq⟩ := occurrence?_eq_some_iff.mp found
      obtain ⟨above', above_held', above_eq, child'⟩ := p_held.exists_parent p_eq
      cases above_held'.ext above_held above_eq
      refine ⟨above, above_held.parent?_eq address_eq, List.infix_iff_getElem?.mpr
        ⟨position, ?_, fun i inside => ?_⟩⟩
      · have := (List.getElem?_eq_some_iff.mp child).1
        have := congrArg List.length above.map_node_children
        simp only [List.length_map, List.length_cons, List.length_nil] at *
        omega
      · have listed : i = 0 ∨ i = 1 := by
          simp only [List.length_cons, List.length_nil] at inside
          omega
        rcases listed with rfl | rfl
        · rw [getElem?_children, Nat.zero_add, child']
          exact congrArg some (by rw [← p_eq]; rfl)
        · rw [getElem?_children, Nat.add_comm, child]
          exact congrArg some (by rw [← address_eq]; rfl)
    · cases found
  · rintro ⟨above, parent_eq, adjacent⟩
    obtain ⟨above_held, -⟩ := held.of_parent? parent_eq
    obtain ⟨position, -, places⟩ := List.infix_iff_getElem?.mp adjacent
    have first : above.children[position]? = some p := by simpa using places 0 (by simp)
    have second : above.children[position + 1]? = some o := by
      simpa [Nat.add_comm] using places 1 (by simp)
    have p_held := contains_of_mem_children above_held (List.mem_of_getElem? first)
    rw [getElem?_children] at first second
    obtain ⟨_, -, rfl⟩ := Option.map_eq_some_iff.mp first
    obtain ⟨_, -, rfl⟩ := Option.map_eq_some_iff.mp second
    exact p_held.occurrence?_eq

/-- Going down and going up a template agree. -/
structure Navigable (t : Template) : Prop where
  visited : ∀ p, t.Contains p → visit p.children = p.descendants
  recursive : ∀ p, t.Contains p →
    p.descendants = p.children.flatMap fun child => child :: child.descendants
  once : ∀ p, t.Contains p → (p.descendants.map Occurrence.address).Nodup
  ordered : ∀ p, t.Contains p →
    p.descendants.Pairwise fun first second => first.span.start ≤ second.span.start
  upward : ∀ o, t.Contains o → t.ancestors o = match t.parent? o with
    | none => []
    | some above => above :: t.ancestors above
  agree : ∀ p o, t.Contains p → t.Contains o →
    (o ∈ p.descendants ↔ t.isAncestorOf p o = true)
  previous : ∀ o, t.Contains o → ∀ p, t.previousSibling? o = some p ↔
    ∃ above, t.parent? o = some above ∧ [p, o] <:+: above.children

theorem Mirrors.start_le_of_descendants (h : t.Mirrors) (held : t.Contains p) :
    p.descendants.Pairwise fun first second => first.span.start ≤ second.span.start := by
  refine (h.pairwise_descendants held).imp_of_mem fun {first second} listed listed' relation => ?_
  have first_held := contains_of_mem_descendants held listed
  have second_held := contains_of_mem_descendants held listed'
  rcases relation with below | behind
  · exact (h.covers first_held second_held (.inr below)).1
  · exact Nat.le_trans (h.regular first_held).ordered behind

theorem Mirrors.navigable (h : t.Mirrors) : t.Navigable where
  visited := fun p _ => p.visit_children
  recursive := fun p _ => p.descendants_eq_flatMap
  once := fun p _ => nodup_preorderAll p.address 0 p.node.children
  ordered := fun _ held => h.start_le_of_descendants held
  upward := fun _ held => held.ancestors_eq
  agree := fun _ _ => mem_descendants_iff_isAncestorOf
  previous := fun _ held _ => held.previousSibling?_eq_some_iff

end Template

end ComponentExtraction
