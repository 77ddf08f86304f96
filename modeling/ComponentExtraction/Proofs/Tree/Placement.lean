import ComponentExtraction.Proofs.Text.Boundary
import ComponentExtraction.Proofs.Tree.Occurrence

/-!
# How trees lie in their source

A tree mirrors its source when every node is `Node.Regular`: its span ends at
character boundaries, its children stand inside it one after the other, and
their kinds belong further inside a template than its own. `Node.Placed` says
this of trees that stand one after the other, which is what readers produce and
pass on. Of occurrences it follows that what lies below a node lies inside its
span (`Template.Mirrors.covers_of_below`), and that nodes of which neither lies
below the other have separate spans (`Template.Mirrors.separate`).

A leaf may be empty, where an expression lacks an operand. So that two nodes
with one start are told apart by their ends, a node with several children
starts with one that is not empty.
-/

namespace ComponentExtraction

namespace Kind

/-- How far inside a template the nodes of a kind stand: elements, what they
hold, what holds an expression, and expressions with their tokens. -/
def layer : Kind → Nat
  | root | element _ => 0
  | text | comment | plainAttribute _ | propertyBinding _ | bananaBox _ | event _
  | templateBindings _ | localDeclaration _ => 1
  | interpolation | binding | action | templateBinding _ | templateVariable _ => 2
  | _ => 3

/-- Whether nodes of one kind may stand directly below nodes of another. -/
def Admits (parent child : Kind) : Prop :=
  parent.layer = 0 ∨ min 3 (parent.layer + 1) ≤ child.layer

theorem Admits.layer_pos {parent child : Kind} (h : parent.Admits child)
    (inner : 0 < parent.layer) : 0 < child.layer := by
  rcases h with outer | deeper <;> omega

theorem layer_le (kind : Kind) : kind.layer ≤ 3 := by
  cases kind <;> simp [layer]

end Kind

namespace Node

def Solid (node : Node) : Prop :=
  node.span.start < node.span.stop

/-- Nodes stand one after the other between two positions. -/
def Fits : Nat → List Node → Nat → Prop
  | start, [], stop => start ≤ stop
  | start, node :: nodes, stop =>
    start ≤ node.span.start ∧ node.span.start ≤ node.span.stop ∧ Fits node.span.stop nodes stop

namespace Fits

variable {a b c : Nat} {nodes more : List Node} {node : Node}

theorem le (h : Fits a nodes b) : a ≤ b := by
  induction nodes generalizing a with
  | nil => exact h
  | cons first nodes ih =>
    obtain ⟨start, ordered, later⟩ := h
    have := ih later
    omega

theorem mono_start (h : Fits b nodes c) (before : a ≤ b) : Fits a nodes c := by
  cases nodes with
  | nil => exact Nat.le_trans before h
  | cons first nodes => exact ⟨Nat.le_trans before h.1, h.2⟩

theorem mono_stop (h : Fits a nodes b) (before : b ≤ c) : Fits a nodes c := by
  induction nodes generalizing a with
  | nil => exact Nat.le_trans h before
  | cons first nodes ih => exact ⟨h.1, h.2.1, ih h.2.2⟩

theorem append (h : Fits a nodes b) (h' : Fits b more c) : Fits a (nodes ++ more) c := by
  induction nodes generalizing a with
  | nil => exact h'.mono_start h
  | cons first nodes ih => exact ⟨h.1, h.2.1, ih h.2.2⟩

theorem of_mem (h : Fits a nodes b) (member : node ∈ nodes) :
    a ≤ node.span.start ∧ node.span.start ≤ node.span.stop ∧ node.span.stop ≤ b := by
  induction nodes generalizing a with
  | nil => exact absurd member List.not_mem_nil
  | cons first nodes ih =>
    obtain ⟨start, ordered, later⟩ := h
    rcases List.mem_cons.mp member with rfl | member
    · exact ⟨start, ordered, later.le⟩
    · obtain ⟨start', rest⟩ := ih later member
      exact ⟨by omega, rest⟩

theorem ordered (h : Fits a nodes b) : nodes.Pairwise fun m n => m.span.stop ≤ n.span.start := by
  induction nodes generalizing a with
  | nil => exact List.Pairwise.nil
  | cons first nodes ih =>
    refine List.Pairwise.cons ?_ (ih h.2.2)
    intro later member
    exact (h.2.2.of_mem member).1

theorem endOf (h : Fits a nodes b) :
    Fits a nodes (Node.endOf a nodes) ∧ a ≤ Node.endOf a nodes ∧ Node.endOf a nodes ≤ b := by
  rcases List.eq_nil_or_concat nodes with rfl | ⟨front, last, rfl⟩
  · exact ⟨Nat.le_refl a, Nat.le_refl a, h⟩
  · have member : last ∈ front.concat last := by simp
    obtain ⟨start, ordered, stop⟩ := h.of_mem member
    have end_eq : Node.endOf a (front.concat last) = last.span.stop := by
      simp only [Node.endOf, List.concat_eq_append, List.getLast?_append, List.getLast?_singleton,
        Option.some_or]
      omega
    rw [end_eq]
    refine ⟨?_, by omega, stop⟩
    -- Cutting the space behind the last node leaves every condition as it is.
    clear end_eq start stop member
    rw [List.concat_eq_append] at h ⊢
    induction front generalizing a with
    | nil => exact ⟨h.1, h.2.1, Nat.le_refl _⟩
    | cons first front ih => exact ⟨h.1, h.2.1, ih h.2.2⟩

end Fits

/-- The node lies in a source as its text does: its ends are
boundaries, and its children stand inside it one after the other. -/
structure Regular (source : Text) (node : Node) : Prop where
  start : source.Boundary node.span.start
  stop : source.Boundary node.span.stop
  fits : Fits node.span.start node.children node.span.stop
  leads : ∀ first second rest, node.children = first :: second :: rest → first.Solid
  admits : ∀ child ∈ node.children, node.kind.Admits child.kind

theorem Regular.ordered {source : Text} {node : Node} (h : node.Regular source) :
    node.span.start ≤ node.span.stop :=
  h.fits.le

/-- A node with at most one child need not start with a solid one. -/
theorem leads_of_length {nodes : List Node} (short : nodes.length ≤ 1) :
    ∀ first second rest, nodes = first :: second :: rest → first.Solid := by
  rintro first second rest rfl
  simp only [List.length_cons] at short
  omega

/-- A condition holds of a node and of everything below it. -/
inductive Everywhere (P : Node → Prop) : Node → Prop
  | intro {node : Node} (here : P node) (below : ∀ child ∈ node.children, Everywhere P child) :
      Everywhere P node

namespace Everywhere

variable {P Q : Node → Prop} {node : Node}

theorem here (h : Everywhere P node) : P node := by
  cases h with
  | intro here _ => exact here

theorem of_mem_children (h : Everywhere P node) : ∀ child ∈ node.children, Everywhere P child := by
  cases h with
  | intro _ below => exact below

theorem mono (h : Everywhere P node) (implies : ∀ node, P node → Q node) :
    Everywhere Q node := by
  induction h with
  | intro here _ ih => exact .intro (implies _ here) ih

/-- What holds everywhere below the root holds at every occurrence. -/
theorem of_contains {t : Template} {o : Occurrence} (h : Everywhere P t.root)
    (held : t.Contains o) : Everywhere P o.node := by
  obtain ⟨address, node⟩ := o
  induction address generalizing node with
  | nil =>
    cases held
    exact h
  | cons position parent ih =>
    obtain ⟨above, held', rfl, child⟩ := held.exists_parent rfl
    exact (ih above.node held').of_mem_children node (List.mem_of_getElem? child)

theorem of_below {t : Template} {o p : Occurrence} (h : ∀ child ∈ p.node.children, Everywhere P child)
    (ho : t.Contains o) (hp : t.Contains p) (below : o.Below p) : Everywhere P o.node := by
  obtain ⟨position, path, address_eq⟩ := below
  induction path generalizing o position with
  | nil =>
    obtain ⟨above, held, above_eq, child⟩ := ho.exists_parent address_eq
    cases held.ext hp above_eq
    exact h o.node (List.mem_of_getElem? child)
  | cons next path ih =>
    obtain ⟨above, held, above_eq, child⟩ := ho.exists_parent address_eq
    exact (ih held next above_eq).of_mem_children o.node (List.mem_of_getElem? child)

end Everywhere

/-- Regular trees, of some layer or further inside, stand one after the other
between two positions. -/
structure Placed (source : Text) (layer start : Nat) (nodes : List Node) (stop : Nat) : Prop where
  fits : Fits start nodes stop
  regular : ∀ node ∈ nodes, Everywhere (Regular source) node
  layers : ∀ node ∈ nodes, layer ≤ node.kind.layer

namespace Placed

variable {source : Text} {layer layer' a b c : Nat} {nodes more : List Node} {node : Node}
variable {kind : Kind}

theorem nil (ordered : a ≤ b) : Placed source layer a [] b :=
  ⟨ordered, by simp, by simp⟩

theorem single (regular : Everywhere (Regular source) node) (layers : layer ≤ node.kind.layer)
    (start : a ≤ node.span.start) (stop : node.span.stop ≤ b) :
    Placed source layer a [node] b := by
  refine ⟨⟨start, regular.here.ordered, stop⟩, ?_, ?_⟩
  · intro n member
    cases List.mem_singleton.mp member
    exact regular
  · intro n member
    cases List.mem_singleton.mp member
    exact layers

theorem append (h : Placed source layer a nodes b) (h' : Placed source layer b more c) :
    Placed source layer a (nodes ++ more) c := by
  refine ⟨h.fits.append h'.fits, ?_, ?_⟩
  · intro n member
    rcases List.mem_append.mp member with member | member
    · exact h.regular n member
    · exact h'.regular n member
  · intro n member
    rcases List.mem_append.mp member with member | member
    · exact h.layers n member
    · exact h'.layers n member

theorem cons (h : Placed source layer a [node] b) (h' : Placed source layer b more c) :
    Placed source layer a (node :: more) c :=
  h.append h'

theorem mono (h : Placed source layer b nodes c) {d : Nat} (before : a ≤ b) (behind : c ≤ d) :
    Placed source layer a nodes d :=
  ⟨(h.fits.mono_start before).mono_stop behind, h.regular, h.layers⟩

theorem mono_start (h : Placed source layer b nodes c) (before : a ≤ b) :
    Placed source layer a nodes c :=
  h.mono before (Nat.le_refl c)

theorem mono_layer (h : Placed source layer a nodes b) (outer : layer' ≤ layer) :
    Placed source layer' a nodes b :=
  ⟨h.fits, h.regular, fun n member => Nat.le_trans outer (h.layers n member)⟩

theorem regular_mk (h : Placed source layer a nodes b) (start : source.Boundary a)
    (stop : source.Boundary b) (deeper : kind.layer = 0 ∨ min 3 (kind.layer + 1) ≤ layer)
    (leads : ∀ first second rest, nodes = first :: second :: rest → first.Solid) :
    Everywhere (Regular source) (Node.mk kind ⟨a, b⟩ nodes) := by
  refine .intro ⟨start, stop, h.fits, leads, ?_⟩ h.regular
  intro child member
  have := h.layers child member
  rcases deeper with outer | deeper
  · exact .inl outer
  · refine .inr ?_
    rw [kind_mk]
    omega

theorem regular_leaf {span : Span} (start : source.Boundary span.start)
    (stop : source.Boundary span.stop) (ordered : span.start ≤ span.stop) :
    Everywhere (Regular source) (leaf span) := by
  have empty : Placed source 3 span.start [] span.stop := nil ordered
  change Everywhere (Regular source) (Node.mk .token ⟨span.start, span.stop⟩ [])
  exact empty.regular_mk start stop (.inr (Nat.le_refl 3)) (by simp)

/-- The last of some placed nodes ends at a boundary, and so does an empty list. -/
theorem boundary_endOf (h : Placed source layer a nodes b) (start : source.Boundary a) :
    source.Boundary (Node.endOf a nodes) := by
  unfold Node.endOf
  split
  · next last last_eq =>
    have member := List.mem_of_getLast? last_eq
    obtain ⟨start', ordered, -⟩ := h.fits.of_mem member
    rw [Nat.max_eq_right (by omega)]
    exact (h.regular last member).here.stop
  · exact start

theorem enclosing (h : Placed source layer a nodes b) (start : source.Boundary a)
    (deeper : kind.layer = 0 ∨ min 3 (kind.layer + 1) ≤ layer)
    (leads : ∀ first second rest, nodes = first :: second :: rest → first.Solid) :
    Placed source kind.layer a [Node.enclosing kind a nodes] b := by
  obtain ⟨fits, -, stop⟩ := h.fits.endOf
  have cut : Placed source layer a nodes (Node.endOf a nodes) := ⟨fits, h.regular, h.layers⟩
  exact single (cut.regular_mk start (h.boundary_endOf start) deeper leads) (Nat.le_refl _)
    (Nat.le_refl a) stop

end Placed

end Node

namespace Template

/-- Every node of the template lies in its source as its text does. -/
def Mirrors (t : Template) : Prop :=
  Node.Everywhere (Node.Regular t.source) t.root

namespace Mirrors

variable {t : Template} {o p q : Occurrence}

theorem regular (h : t.Mirrors) (held : t.Contains o) : o.node.Regular t.source :=
  (Node.Everywhere.of_contains h held).here

theorem covers_of_child (h : t.Mirrors) (held : t.Contains p) {i : Nat}
    (child : p.node.children[i]? = some o.node) :
    p.span.start ≤ o.span.start ∧ o.span.stop ≤ p.span.stop := by
  obtain ⟨start, -, stop⟩ := (h.regular held).fits.of_mem (List.mem_of_getElem? child)
  exact ⟨start, stop⟩

theorem covers_of_below (h : t.Mirrors) (held : t.Contains p) (held' : t.Contains o)
    (below : o.Below p) : p.span.start ≤ o.span.start ∧ o.span.stop ≤ p.span.stop := by
  obtain ⟨i, path, address_eq⟩ := below
  -- Induction on the way up from `o` to `p`.
  induction path generalizing o i with
  | nil =>
    obtain ⟨above, above_held, above_eq, child⟩ := held'.exists_parent address_eq
    cases above_held.ext held above_eq
    exact h.covers_of_child held child
  | cons j path ih =>
    obtain ⟨above, above_held, above_eq, child⟩ := held'.exists_parent address_eq
    have inner := h.covers_of_child above_held child
    have outer := ih above_held j above_eq
    omega

theorem stop_le_start_of_children (h : t.Mirrors) (held : t.Contains p) {i j : Nat}
    (first : p.node.children[i]? = some o.node) (second : p.node.children[j]? = some q.node)
    (before : i < j) : o.span.stop ≤ q.span.start := by
  obtain ⟨hi, first_eq⟩ := List.getElem?_eq_some_iff.mp first
  obtain ⟨hj, second_eq⟩ := List.getElem?_eq_some_iff.mp second
  have := List.pairwise_iff_getElem.mp (h.regular held).fits.ordered i j hi hj before
  rw [first_eq, second_eq] at this
  exact this

/-- A child behind the first starts strictly behind the start of its parent,
unless it is empty. -/
theorem start_lt_of_later_child (h : t.Mirrors) (held : t.Contains p) {i : Nat}
    (child : p.node.children[i + 1]? = some o.node) : p.span.start < o.span.start := by
  have regular := h.regular held
  cases children_eq : p.node.children with
  | nil => exact absurd child (by simp [children_eq])
  | cons first rest =>
    cases rest with
    | nil => exact absurd child (by simp [children_eq])
    | cons second rest =>
      have solid : first.span.start < first.span.stop := regular.leads first second rest children_eq
      have fits := regular.fits
      rw [children_eq] at fits child
      have start : p.span.start ≤ first.span.start := fits.1
      have behind := (fits.2.2.of_mem (List.mem_of_getElem? (i := i) child)).1
      have : first.span.stop ≤ o.span.start := behind
      omega

end Mirrors

end Template

namespace Occurrence

variable {t : Template} {o p : Occurrence}

/-- Two places are the same, one lies below the other, or both lie in different
children of one node. -/
theorem address_cases (o p : Occurrence) : o.address = p.address ∨ o.Below p ∨ p.Below o ∨
    ∃ i j path path' common, i ≠ j ∧ o.address = path ++ i :: common ∧
      p.address = path' ++ j :: common := by
  -- Compare the places from the root on.
  have compare : ∀ a b : List Nat, a = b ∨ (∃ k l, a = b ++ k :: l) ∨ (∃ k l, b = a ++ k :: l) ∨
      ∃ i j l l' common, i ≠ j ∧ a = common ++ i :: l ∧ b = common ++ j :: l' := by
    intro a
    induction a with
    | nil =>
      intro b
      cases b with
      | nil => exact .inl rfl
      | cons k l => exact .inr (.inr (.inl ⟨k, l, rfl⟩))
    | cons i a ih =>
      intro b
      cases b with
      | nil => exact .inr (.inl ⟨i, a, rfl⟩)
      | cons j b =>
        by_cases same : i = j
        · subst same
          rcases ih b with rfl | ⟨k, l, rfl⟩ | ⟨k, l, rfl⟩ | ⟨i', j', l, l', common, ne, rfl, rfl⟩
          · exact .inl rfl
          · exact .inr (.inl ⟨k, l, rfl⟩)
          · exact .inr (.inr (.inl ⟨k, l, rfl⟩))
          · exact .inr (.inr (.inr ⟨i', j', l, l', i :: common, ne, rfl, rfl⟩))
        · exact .inr (.inr (.inr ⟨i, j, a, b, [], same, rfl, rfl⟩))
  have flip : ∀ {a b : Address} {k : Nat} {l : List Nat}, a.reverse = b.reverse ++ k :: l →
      ∃ position path, a = position :: path ++ b := by
    intro a b k l same
    have := congrArg List.reverse same
    simp only [List.reverse_reverse, List.reverse_append, List.reverse_cons] at this
    cases l_eq : l.reverse with
    | nil => exact ⟨k, [], by simp [this, l_eq]⟩
    | cons position path => exact ⟨position, path ++ [k], by simp [this, l_eq]⟩
  rcases compare o.address.reverse p.address.reverse with same | ⟨k, l, same⟩ | ⟨k, l, same⟩ |
    ⟨i, j, l, l', common, ne, o_eq, p_eq⟩
  · exact .inl (List.reverse_inj.mp same)
  · exact .inr (.inl (flip same))
  · exact .inr (.inr (.inl (flip same)))
  · refine .inr (.inr (.inr ⟨i, j, l.reverse, l'.reverse, common.reverse, ne, ?_, ?_⟩))
    · simpa using congrArg List.reverse o_eq
    · simpa using congrArg List.reverse p_eq

end Occurrence

namespace Template

variable {t : Template} {o p q : Occurrence}

/-- Every place at or above a node is taken by a node. -/
theorem Contains.exists_above {path address : Address} (held : t.Contains o)
    (address_eq : o.address = path ++ address) :
    ∃ above, t.Contains above ∧ above.address = address ∧ (o = above ∨ o.Below above) := by
  induction path generalizing o with
  | nil => exact ⟨o, held, address_eq, .inl rfl⟩
  | cons position path ih =>
    obtain ⟨parent, parent_held, parent_eq, -⟩ := held.exists_parent address_eq
    obtain ⟨above, above_held, above_eq, relation⟩ := ih parent_held parent_eq
    have step : o.Below parent := .of_child (by rw [address_eq, parent_eq]; rfl)
    refine ⟨above, above_held, above_eq, .inr ?_⟩
    rcases relation with rfl | below
    · exact step
    · exact step.trans below

namespace Mirrors

theorem covers (h : t.Mirrors) (held : t.Contains p) (held' : t.Contains o)
    (relation : o = p ∨ o.Below p) : p.span.start ≤ o.span.start ∧ o.span.stop ≤ p.span.stop := by
  rcases relation with rfl | below
  · exact ⟨Nat.le_refl _, Nat.le_refl _⟩
  · exact h.covers_of_below held held' below

/-- Nodes of which neither lies below the other have separate spans. -/
theorem separate (h : t.Mirrors) (ho : t.Contains o) (hp : t.Contains p) (differ : o ≠ p)
    (notBelow : ¬ o.Below p) (notAbove : ¬ p.Below o) :
    o.span.stop ≤ p.span.start ∨ p.span.stop ≤ o.span.start := by
  rcases o.address_cases p with same | below | above | ⟨i, j, path, path', common, ne, o_eq, p_eq⟩
  · exact absurd (ho.ext hp same) differ
  · exact absurd below notBelow
  · exact absurd above notAbove
  · obtain ⟨x, x_held, x_eq, x_above⟩ := ho.exists_above o_eq
    obtain ⟨y, y_held, y_eq, y_above⟩ := hp.exists_above p_eq
    obtain ⟨parent, parent_held, parent_eq, x_child⟩ := x_held.exists_parent x_eq
    obtain ⟨parent', parent_held', parent_eq', y_child⟩ := y_held.exists_parent y_eq
    cases parent_held.ext parent_held' (parent_eq.trans parent_eq'.symm)
    have o_inside := h.covers x_held ho x_above
    have p_inside := h.covers y_held hp y_above
    rcases Nat.lt_or_gt_of_ne ne with before | behind
    · have := h.stop_le_start_of_children parent_held x_child y_child before
      exact .inl (by omega)
    · have := h.stop_le_start_of_children parent_held y_child x_child behind
      exact .inr (by omega)

theorem layer_of_below (h : t.Mirrors) (held : t.Contains p) (held' : t.Contains o)
    (below : o.Below p) (inner : 0 < p.kind.layer) :
    min 3 (p.kind.layer + 1) ≤ o.kind.layer := by
  obtain ⟨i, path, address_eq⟩ := below
  induction path generalizing o i with
  | nil =>
    obtain ⟨above, above_held, above_eq, child⟩ := held'.exists_parent address_eq
    cases above_held.ext held above_eq
    rcases (h.regular held).admits _ (List.mem_of_getElem? child) with outer | deeper
    · exact absurd outer (Nat.ne_of_gt inner)
    · exact deeper
  | cons j path ih =>
    obtain ⟨above, above_held, above_eq, child⟩ := held'.exists_parent address_eq
    have higher := ih above_held j above_eq
    have high : above.node.kind.layer ≤ 3 := Kind.layer_le _
    have same : above.kind.layer = above.node.kind.layer := rfl
    have same' : o.kind.layer = o.node.kind.layer := rfl
    rcases (h.regular above_held).admits _ (List.mem_of_getElem? child) with outer | deeper
    · omega
    · omega

end Mirrors

end Template

end ComponentExtraction
