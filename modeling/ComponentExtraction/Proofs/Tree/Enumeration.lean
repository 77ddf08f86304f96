import ComponentExtraction.Proofs.Tree.Placement
import Mathlib.Data.List.Chain

/-!
# Walking a template meets every node once

`Template.occurrences` lists the nodes of a template. Every node has a place of
its own and is listed there once, the root first. A template is `Template.Faithful`
when, besides, the spans of its nodes mirror its source. That is what everything
that works with byte positions of a template relies on. A walk follows the source: what
it meets later lies below what it met before, or behind it.
-/

namespace ComponentExtraction

namespace Occurrence

open Node

variable {o : Occurrence}

mutual

theorem suffix_of_mem_preorder {address : Address} {node : Node}
    (member : o ∈ preorder address node) : address <:+ o.address := by
  cases node with
  | mk kind span children =>
    rw [preorder, List.mem_cons] at member
    rcases member with rfl | below
    · exact List.suffix_rfl
    · obtain ⟨i, -, suffix⟩ := suffix_of_mem_preorderAll below
      exact (List.suffix_cons i address).trans suffix

/-- Siblings from a position on, and what lies below them, have that position or
a later one in their addresses. -/
theorem suffix_of_mem_preorderAll {parent : Address} {position : Nat} {nodes : List Node}
    (member : o ∈ preorderAll parent position nodes) :
    ∃ i, position ≤ i ∧ i :: parent <:+ o.address := by
  cases nodes with
  | nil => exact absurd member List.not_mem_nil
  | cons node nodes =>
    rw [preorderAll, List.mem_append] at member
    rcases member with inside | later
    · exact ⟨position, Nat.le_refl _, suffix_of_mem_preorder inside⟩
    · obtain ⟨i, behind, suffix⟩ := suffix_of_mem_preorderAll later
      exact ⟨i, Nat.le_of_succ_le behind, suffix⟩

end

/-- Of two addresses that end alike, neither lies in another child. -/
theorem eq_of_suffix_cons {i j : Nat} {parent address : Address} (h : i :: parent <:+ address)
    (h' : j :: parent <:+ address) : i = j := by
  have same : i :: parent = j :: parent :=
    (List.suffix_of_suffix_length_le h h' (Nat.le_refl _)).eq_of_length rfl
  exact (List.cons.inj same).1

mutual

theorem nodup_preorder (address : Address) (node : Node) :
    ((preorder address node).map Occurrence.address).Nodup := by
  cases node with
  | mk kind span children =>
    rw [preorder, List.map_cons, List.nodup_cons]
    refine ⟨?_, nodup_preorderAll address 0 children⟩
    intro listed
    obtain ⟨o, member, address_eq⟩ := List.mem_map.mp listed
    obtain ⟨i, -, suffix⟩ := suffix_of_mem_preorderAll member
    -- Nothing below the node has its address.
    have longer := suffix.length_le
    simp only [address_eq, List.length_cons] at longer
    omega

theorem nodup_preorderAll (parent : Address) (position : Nat) (nodes : List Node) :
    ((preorderAll parent position nodes).map Occurrence.address).Nodup := by
  cases nodes with
  | nil => exact List.nodup_nil
  | cons node nodes =>
    rw [preorderAll, List.map_append]
    refine List.nodup_append.mpr ⟨nodup_preorder (position :: parent) node,
      nodup_preorderAll parent (position + 1) nodes, ?_⟩
    intro address listed address' listed' same
    obtain ⟨o, member, rfl⟩ := List.mem_map.mp listed
    obtain ⟨p, member', rfl⟩ := List.mem_map.mp listed'
    obtain ⟨i, behind, suffix⟩ := suffix_of_mem_preorderAll member'
    have := eq_of_suffix_cons (suffix_of_mem_preorder member) (same ▸ suffix)
    omega

end

mutual

theorem length_preorder (address : Address) (node : Node) :
    (preorder address node).length = node.size := by
  cases node with
  | mk kind span children =>
    rw [preorder, List.length_cons, length_preorderAll, Node.size]

theorem length_preorderAll (parent : Address) (position : Nat) (nodes : List Node) :
    (preorderAll parent position nodes).length = Node.sizeAll nodes := by
  cases nodes with
  | nil => rfl
  | cons node nodes =>
    rw [preorderAll, List.length_append, length_preorder, length_preorderAll, Node.sizeAll]

end

variable {source : Text}

mutual

theorem covers_of_mem_preorder {address : Address} {node : Node}
    (regular : Everywhere (Regular source) node) (member : o ∈ preorder address node) :
    node.span.start ≤ o.span.start ∧ o.span.stop ≤ node.span.stop := by
  cases node with
  | mk kind span children =>
    rw [preorder, List.mem_cons] at member
    rcases member with rfl | below
    · exact ⟨Nat.le_refl _, Nat.le_refl _⟩
    · exact covers_of_mem_preorderAll regular.of_mem_children regular.here.fits below

theorem covers_of_mem_preorderAll {parent : Address} {position a b : Nat} {nodes : List Node}
    (regular : ∀ node ∈ nodes, Everywhere (Regular source) node) (fits : Fits a nodes b)
    (member : o ∈ preorderAll parent position nodes) : a ≤ o.span.start ∧ o.span.stop ≤ b := by
  cases nodes with
  | nil => exact absurd member List.not_mem_nil
  | cons node nodes =>
    obtain ⟨first, rest⟩ := List.forall_mem_cons.mp regular
    obtain ⟨start, ordered, later⟩ := fits
    rw [preorderAll, List.mem_append] at member
    rcases member with inside | behind
    · have covered := covers_of_mem_preorder first inside
      exact ⟨Nat.le_trans start covered.1, Nat.le_trans covered.2 later.le⟩
    · have covered := covers_of_mem_preorderAll rest later behind
      exact ⟨Nat.le_trans (Nat.le_trans start ordered) covered.1, covered.2⟩

end

mutual

theorem pairwise_preorder (address : Address) {node : Node}
    (regular : Everywhere (Regular source) node) :
    (preorder address node).Pairwise fun o p => p.Below o ∨ o.span.stop ≤ p.span.start := by
  cases node with
  | mk kind span children =>
    refine .cons (fun p member => .inl ?_)
      (pairwise_preorderAll address 0 regular.of_mem_children regular.here.fits)
    obtain ⟨i, -, path, address_eq⟩ := suffix_of_mem_preorderAll member
    cases path with
    | nil => exact ⟨i, [], address_eq.symm⟩
    | cons j path => exact ⟨j, path ++ [i], by simp [← address_eq]⟩

theorem pairwise_preorderAll (parent : Address) (position : Nat) {a b : Nat} {nodes : List Node}
    (regular : ∀ node ∈ nodes, Everywhere (Regular source) node) (fits : Fits a nodes b) :
    (preorderAll parent position nodes).Pairwise fun o p =>
      p.Below o ∨ o.span.stop ≤ p.span.start := by
  cases nodes with
  | nil => exact .nil
  | cons node nodes =>
    obtain ⟨first, rest⟩ := List.forall_mem_cons.mp regular
    refine List.pairwise_append.mpr ⟨pairwise_preorder (position :: parent) first,
      pairwise_preorderAll parent (position + 1) rest fits.2.2, ?_⟩
    intro o inside p behind
    have covered := covers_of_mem_preorder first inside
    have later := covers_of_mem_preorderAll rest fits.2.2 behind
    exact .inr (Nat.le_trans covered.2 later.1)

end

theorem nodup_siblings (parent : Address) (position : Nat) (nodes : List Node) :
    ((siblings parent position nodes).map Occurrence.address).Nodup := by
  induction nodes generalizing position with
  | nil => exact List.nodup_nil
  | cons node nodes ih =>
    rw [siblings, List.map_cons, List.nodup_cons]
    refine ⟨?_, ih (position + 1)⟩
    intro listed
    obtain ⟨o, member, address_eq⟩ := List.mem_map.mp listed
    obtain ⟨i, other, -, rfl⟩ := mem_siblings_iff.mp member
    have := (List.cons.inj address_eq).1
    omega

theorem map_node_siblings (parent : Address) (position : Nat) (nodes : List Node) :
    (siblings parent position nodes).map Occurrence.node = nodes := by
  induction nodes generalizing position with
  | nil => rfl
  | cons node nodes ih => rw [siblings, List.map_cons, ih]

theorem getElem?_siblings (parent : Address) (position i : Nat) (nodes : List Node) :
    (siblings parent position nodes)[i]? =
      nodes[i]?.map fun node => ⟨(position + i) :: parent, node⟩ := by
  induction nodes generalizing position i with
  | nil => rfl
  | cons node nodes ih =>
    cases i with
    | zero => rfl
    | succ i =>
      rw [siblings, List.getElem?_cons_succ, List.getElem?_cons_succ, ih, Nat.add_assoc,
        Nat.add_comm 1 i]

theorem getElem?_children (o : Occurrence) (i : Nat) :
    o.children[i]? = o.node.children[i]?.map fun node => ⟨i :: o.address, node⟩ := by
  rw [children, getElem?_siblings, Nat.zero_add]

theorem map_node_children (o : Occurrence) : o.children.map Occurrence.node = o.node.children :=
  map_node_siblings o.address 0 o.node.children

end Occurrence

namespace Template

variable {t : Template} {o p : Occurrence}

theorem contains_top (t : Template) : t.Contains t.top :=
  rfl

/-- What a walk below a node meets later lies below what it met before, or behind it. -/
theorem Mirrors.pairwise_descendants (h : t.Mirrors) (held : t.Contains p) :
    p.descendants.Pairwise fun o q => q.Below o ∨ o.span.stop ≤ q.span.start :=
  have regular := Node.Everywhere.of_contains h held
  Occurrence.pairwise_preorderAll p.address 0 regular.of_mem_children regular.here.fits

theorem occurrences_eq (t : Template) : t.occurrences = t.top :: t.top.descendants :=
  Occurrence.preorder_eq [] t.root

theorem mem_occurrences_iff : o ∈ t.occurrences ↔ t.Contains o := by
  rw [occurrences_eq, List.mem_cons, Occurrence.mem_descendants_iff t.contains_top]
  constructor
  · rintro (rfl | ⟨held, -⟩)
    · exact t.contains_top
    · exact held
  · intro held
    cases address_eq : o.address with
    | nil => exact .inl (held.ext t.contains_top address_eq)
    | cons position path =>
      refine .inr ⟨held, position, path, ?_⟩
      rw [address_eq]
      exact (List.append_nil _).symm

theorem Contains.exists_unique_parent (held : t.Contains o) (other : o ≠ t.top) :
    ∃ p, t.parent? o = some p ∧ t.Contains p ∧ o ∈ p.children ∧
      ∀ q, t.Contains q → o ∈ q.children → q = p := by
  cases address_eq : o.address with
  | nil => exact absurd (held.ext t.contains_top address_eq) other
  | cons position parent =>
    obtain ⟨p, p_held, rfl, child⟩ := held.exists_parent address_eq
    refine ⟨p, p_held.parent?_eq address_eq, p_held,
      Occurrence.mem_children_iff.mpr ⟨position, child, address_eq⟩, ?_⟩
    intro q q_held member
    obtain ⟨j, -, address_eq'⟩ := Occurrence.mem_children_iff.mp member
    exact q_held.ext p_held (List.cons.inj (address_eq'.symm.trans address_eq)).2

/-- The tree of a template lists each of its nodes once, and the spans of the
nodes are nested and ordered as the nodes are. -/
structure Faithful (t : Template) : Prop where
  root : t.root.kind = .root ∧ t.root.span = ⟨0, t.source.byteLength⟩
  walk : t.occurrences = t.top :: t.top.descendants
  listed : ∀ o, o ∈ t.occurrences ↔ t.Contains o
  once : (t.occurrences.map Occurrence.address).Nodup
  size : t.occurrences.length = t.size
  parent : ∀ o, t.Contains o → o ≠ t.top → ∃ p, t.parent? o = some p ∧ t.Contains p ∧
    o ∈ p.children ∧ ∀ q, t.Contains q → o ∈ q.children → q = p
  children_once : ∀ p, t.Contains p → (p.children.map Occurrence.address).Nodup
  spans : ∀ o, t.Contains o → o.span.start ≤ o.span.stop ∧ o.span.stop ≤ t.source.byteLength ∧
    t.source.isBoundary o.span.start = true ∧ t.source.isBoundary o.span.stop = true
  nested : ∀ p, t.Contains p → ∀ o ∈ p.children,
    p.span.start ≤ o.span.start ∧ o.span.stop ≤ p.span.stop
  ordered : ∀ p, t.Contains p →
    p.children.IsChain fun first second => first.span.stop ≤ second.span.start

/-- A template that mirrors its source below a root around all of it is faithful. -/
theorem Mirrors.faithful (h : t.Mirrors) (kind_eq : t.root.kind = .root)
    (span_eq : t.root.span = ⟨0, t.source.byteLength⟩) : t.Faithful where
  root := ⟨kind_eq, span_eq⟩
  walk := t.occurrences_eq
  listed := fun _ => mem_occurrences_iff
  once := Occurrence.nodup_preorder [] t.root
  size := Occurrence.length_preorder [] t.root
  parent := fun _ held other => held.exists_unique_parent other
  children_once := fun p _ => Occurrence.nodup_siblings p.address 0 p.node.children
  spans := by
    intro o held
    have regular := h.regular held
    exact ⟨regular.ordered, regular.stop.le, Text.isBoundary_iff.mpr regular.start,
      Text.isBoundary_iff.mpr regular.stop⟩
  nested := by
    intro p held o member
    obtain ⟨i, child, -⟩ := Occurrence.mem_children_iff.mp member
    exact h.covers_of_child held child
  ordered := by
    intro p held
    have siblings := (h.regular held).fits.ordered
    rw [← p.map_node_children, List.pairwise_map] at siblings
    exact siblings.isChain

end Template

end ComponentExtraction
