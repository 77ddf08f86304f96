import ComponentExtraction.Proofs.Text.Edit
import ComponentExtraction.Proofs.Tree.Enumeration

/-!
# Rewriting a tree by its nodes

A `Rewriting` says of single nodes what text takes their place, and what text is
put behind them. The text of a tree is then rewritten from the inside out: a node
whose place is taken contributes that text alone, every other node its source
with its children rewritten. Where marks do not get in each other's way
(`Rewriting.Legal`), the same text results from the edits of all marks, applied
to the source in order (`Rewriting.applyAll?_eq_rewrite`).
-/

namespace ComponentExtraction

/-- The texts that take the place of nodes, and those that are put behind nodes.
Nodes are told by their places, so equal ones may be rewritten differently. -/
structure Rewriting where
  cut : Occurrence → Option Text
  tail : Occurrence → Option Text

namespace Rewriting

mutual

/-- The text of a node with everything at and below it rewritten.
Below a node whose place is taken nothing is looked at. -/
def rewriteNode (t : Template) (r : Rewriting) (address : Address) : Node → Text
  | .mk kind span children =>
    match r.cut ⟨address, .mk kind span children⟩ with
    | some text => text
    | none => rewriteChildren t r address 0 span.start span.stop children
        ++ (r.tail ⟨address, .mk kind span children⟩).getD []

def rewriteChildren (t : Template) (r : Rewriting) (parent : Address) (position cursor stop : Nat) :
    List Node → Text
  | [] => t.textAt ⟨cursor, stop⟩
  | node :: nodes =>
    t.textAt ⟨cursor, node.span.start⟩ ++ rewriteNode t r (position :: parent) node
      ++ rewriteChildren t r parent (position + 1) node.span.stop stop nodes

end

def rewrite (r : Rewriting) (t : Template) (o : Occurrence) : Text :=
  rewriteNode t r o.address o.node

/-- The edit that puts a text in the place of a node. -/
def cutEdit? (r : Rewriting) (o : Occurrence) : Option Edit :=
  (r.cut o).map fun text => ⟨o.span, text⟩

def tailEdit? (r : Rewriting) (o : Occurrence) : Option Edit :=
  (r.tail o).map fun text => Edit.insertion o.span.stop text

def EditOf (r : Rewriting) (o : Occurrence) (e : Edit) : Prop :=
  r.cutEdit? o = some e ∨ r.tailEdit? o = some e

mutual

/-- The edits of a node and of everything below it: what takes its place, what is
below, and what is put behind it. -/
def editsOfNode (r : Rewriting) (address : Address) : Node → List Edit
  | .mk kind span children =>
    (r.cutEdit? ⟨address, .mk kind span children⟩).toList ++ editsOfChildren r address 0 children
      ++ (r.tailEdit? ⟨address, .mk kind span children⟩).toList

def editsOfChildren (r : Rewriting) (parent : Address) (position : Nat) : List Node → List Edit
  | [] => []
  | node :: nodes =>
    editsOfNode r (position :: parent) node ++ editsOfChildren r parent (position + 1) nodes

end

variable {t : Template} {r : Rewriting} {o p : Occurrence} {e e' : Edit}

mutual

theorem mem_editsOfNode_iff {address : Address} {node : Node} :
    e ∈ editsOfNode r address node ↔ ∃ o ∈ Occurrence.preorder address node, r.EditOf o e := by
  cases node with
  | mk kind span children =>
    simp only [editsOfNode, Occurrence.preorder, List.mem_append, Option.mem_toList,
      List.exists_mem_cons_iff, mem_editsOfChildren_iff]
    exact or_right_comm

theorem mem_editsOfChildren_iff {parent : Address} {position : Nat} {nodes : List Node} :
    e ∈ editsOfChildren r parent position nodes ↔
      ∃ o ∈ Occurrence.preorderAll parent position nodes, r.EditOf o e := by
  cases nodes with
  | nil => simp [editsOfChildren, Occurrence.preorderAll]
  | cons node nodes =>
    rw [editsOfChildren, Occurrence.preorderAll, List.mem_append, mem_editsOfNode_iff,
      mem_editsOfChildren_iff]
    simp only [List.mem_append, or_and_right, exists_or]

end

/-- Marked nodes are not empty; a node has one mark; nothing is put behind a node
below a marked one; and of nested nodes whose places are taken, the inner one
starts later. -/
structure Legal (t : Template) (r : Rewriting) : Prop where
  solid : ∀ o e, t.Contains o → r.EditOf o e → o.node.Solid
  single : ∀ o text, t.Contains o → r.cut o = some text → r.tail o = none
  outermost : ∀ o p e, t.Contains o → t.Contains p → p.Below o → r.EditOf o e → r.tail p = none
  deferred : ∀ o p text text', t.Contains o → t.Contains p → p.Below o → r.cut o = some text →
    r.cut p = some text' → o.span.start < p.span.start

namespace Legal

theorem inside (legal : r.Legal t) (held : t.Contains o) (edit : r.EditOf o e) :
    o.span.start ≤ e.span.start ∧ e.span.start ≤ e.span.stop ∧ e.span.stop ≤ o.span.stop ∧
      o.span.start < e.span.stop := by
  have solid : o.span.start < o.span.stop := legal.solid o e held edit
  rcases edit with cut | tail
  · obtain ⟨text, -, rfl⟩ := Option.map_eq_some_iff.mp cut
    exact ⟨Nat.le_refl _, Nat.le_of_lt solid, Nat.le_refl _, solid⟩
  · obtain ⟨text, -, rfl⟩ := Option.map_eq_some_iff.mp tail
    exact ⟨Nat.le_of_lt solid, Nat.le_refl _, Nat.le_refl _, solid⟩

/-- Below a marked node places are taken, but nothing is put behind. -/
theorem cut_of_below (legal : r.Legal t) (held : t.Contains o) (held' : t.Contains p)
    (below : p.Below o) (edit : r.EditOf o e) (edit' : r.EditOf p e') :
    r.cutEdit? p = some e' := by
  rcases edit' with cut | tail
  · exact cut
  · rw [tailEdit?, legal.outermost o p e held held' below edit] at tail
    exact absurd tail (by simp)

/-- What takes the place of a node comes before the edits below the node. -/
theorem before_of_cut (legal : r.Legal t) (held : t.Contains o) (held' : t.Contains p)
    (below : p.Below o) (cut : r.cutEdit? o = some e) (edit' : r.EditOf p e') : e.Before e' := by
  have cut' := legal.cut_of_below held held' below (.inl cut) edit'
  obtain ⟨text, text_eq, rfl⟩ := Option.map_eq_some_iff.mp cut
  obtain ⟨text', text_eq', rfl⟩ := Option.map_eq_some_iff.mp cut'
  exact .inl (legal.deferred o p text text' held held' below text_eq text_eq')

theorem before_of_tail (legal : r.Legal t) (mirrors : t.Mirrors) (held : t.Contains o)
    (held' : t.Contains p) (below : p.Below o) (tail : r.tailEdit? o = some e)
    (edit' : r.EditOf p e') : e'.Before e := by
  have cut' := legal.cut_of_below held held' below (.inr tail) edit'
  have solid : p.span.start < p.span.stop := legal.solid p e' held' edit'
  have covered := mirrors.covers_of_below held held' below
  obtain ⟨text, text_eq, rfl⟩ := Option.map_eq_some_iff.mp tail
  obtain ⟨text', text_eq', rfl⟩ := Option.map_eq_some_iff.mp cut'
  exact .inl (Nat.lt_of_lt_of_le solid covered.2)

theorem before_of_le (legal : r.Legal t) (held : t.Contains o) (held' : t.Contains p)
    (apart : o.span.stop ≤ p.span.start) (edit : r.EditOf o e) (edit' : r.EditOf p e') :
    e.Before e' := by
  obtain ⟨-, forward, stop, -⟩ := legal.inside held edit
  obtain ⟨start, -, -, behind⟩ := legal.inside held' edit'
  unfold Edit.Before
  omega

theorem edit_ne (legal : r.Legal t) (mirrors : t.Mirrors) (held : t.Contains o)
    (held' : t.Contains p) (differ : o ≠ p) (edit : r.EditOf o e) (edit' : r.EditOf p e') :
    e ≠ e' := by
  have nested : ∀ {o p e e'}, t.Contains o → t.Contains p → p.Below o → r.EditOf o e →
      r.EditOf p e' → e ≠ e' := by
    intro o p e e' held held' below edit edit'
    rcases edit with cut | tail
    · exact (legal.before_of_cut held held' below cut edit').ne
    · exact (legal.before_of_tail mirrors held held' below tail edit').ne.symm
  by_cases below : p.Below o
  · exact nested held held' below edit edit'
  by_cases above : o.Below p
  · exact (nested held' held above edit' edit).symm
  rcases mirrors.separate held held' differ above below with before | behind
  · exact (legal.before_of_le held held' before edit edit').ne
  · exact (legal.before_of_le held' held behind edit' edit).ne.symm

end Legal

/-- The nodes of a list are siblings of a template from a position on. -/
def AreSiblings (t : Template) (parent : Address) (position : Nat) (nodes : List Node) : Prop :=
  ∀ i node, nodes[i]? = some node → t.node? ((position + i) :: parent) = some node

theorem areSiblings_children {address : Address} {node : Node}
    (held : t.node? address = some node) : AreSiblings t address 0 node.children := by
  intro i child found
  rw [Template.node?_cons, held, Nat.zero_add]
  exact found

theorem AreSiblings.head {parent : Address} {position : Nat} {node : Node} {nodes : List Node}
    (siblings : AreSiblings t parent position (node :: nodes)) :
    t.node? (position :: parent) = some node :=
  siblings 0 node rfl

theorem AreSiblings.later {parent : Address} {position : Nat} {node : Node} {nodes : List Node}
    (siblings : AreSiblings t parent position (node :: nodes)) :
    AreSiblings t parent (position + 1) nodes := by
  intro i child found
  rw [Nat.add_assoc, Nat.add_comm 1 i]
  exact siblings (i + 1) child found

theorem of_mem_editsOfNode {address : Address} {node : Node} (mirrors : t.Mirrors)
    (held : t.node? address = some node) (member : e ∈ editsOfNode r address node) :
    ∃ o, t.Contains o ∧ r.EditOf o e ∧
      node.span.start ≤ o.span.start ∧ o.span.stop ≤ node.span.stop := by
  obtain ⟨o, listed, edit⟩ := mem_editsOfNode_iff.mp member
  obtain ⟨held', relation⟩ := Occurrence.contains_of_mem_preorder held listed
  have top : t.Contains ⟨address, node⟩ := held
  exact ⟨o, held', edit, mirrors.covers top held' relation⟩

/-- The edits of siblings lie where the siblings do, below their parent. -/
theorem of_mem_editsOfChildren {parent : Address} {position a b : Nat} {nodes : List Node}
    (mirrors : t.Mirrors) (siblings : AreSiblings t parent position nodes)
    (fits : Node.Fits a nodes b) (member : e ∈ editsOfChildren r parent position nodes) :
    ∃ o, t.Contains o ∧ r.EditOf o e ∧ a ≤ o.span.start ∧ o.span.stop ≤ b := by
  induction nodes generalizing position a with
  | nil => exact absurd member List.not_mem_nil
  | cons node nodes ih =>
    obtain ⟨before, forward, behind⟩ := fits
    rw [editsOfChildren, List.mem_append] at member
    rcases member with member | member
    · obtain ⟨o, held, edit, start, stop⟩ := of_mem_editsOfNode mirrors siblings.head member
      exact ⟨o, held, edit, by omega, Nat.le_trans stop behind.le⟩
    · obtain ⟨o, held, edit, start, stop⟩ := ih siblings.later behind member
      exact ⟨o, held, edit, by omega, stop⟩

theorem below_of_mem_editsOfChildren {parent : Occurrence} (held : t.Contains parent)
    (member : e ∈ editsOfChildren r parent.address 0 parent.node.children) :
    ∃ o, t.Contains o ∧ o.Below parent ∧ r.EditOf o e := by
  obtain ⟨o, listed, edit⟩ := mem_editsOfChildren_iff.mp member
  obtain ⟨held', below⟩ := (Occurrence.mem_descendants_iff held).mp listed
  exact ⟨o, held', below, edit⟩

mutual

theorem pairwise_editsOfNode (legal : r.Legal t) (mirrors : t.Mirrors) {address : Address}
    {node : Node} (held : t.node? address = some node) :
    (editsOfNode r address node).Pairwise Edit.Before := by
  cases node with
  | mk kind span children =>
    have top : t.Contains ⟨address, .mk kind span children⟩ := held
    have fits : Node.Fits span.start children span.stop := (mirrors.regular top).fits
    have nested := pairwise_editsOfChildren legal mirrors (areSiblings_children held) fits
    rw [editsOfNode]
    refine List.pairwise_append.mpr ⟨List.pairwise_append.mpr ⟨?_, nested, ?_⟩, ?_, ?_⟩
    · cases r.cutEdit? _ <;> simp
    · intro e cut e' member
      obtain ⟨p, held', below, edit'⟩ := below_of_mem_editsOfChildren top member
      exact legal.before_of_cut top held' below (Option.mem_toList.mp cut) edit'
    · cases r.tailEdit? _ <;> simp
    · intro e member e' tail
      have tail := Option.mem_toList.mp tail
      rcases List.mem_append.mp member with cut | member
      · -- One node is never marked twice.
        obtain ⟨text, text_eq, -⟩ := Option.map_eq_some_iff.mp (Option.mem_toList.mp cut)
        rw [tailEdit?, legal.single _ text top text_eq] at tail
        exact absurd tail (by simp)
      · obtain ⟨p, held', below, edit⟩ := below_of_mem_editsOfChildren top member
        exact legal.before_of_tail mirrors top held' below tail edit

theorem pairwise_editsOfChildren (legal : r.Legal t) (mirrors : t.Mirrors) {parent : Address}
    {position a b : Nat} {nodes : List Node} (siblings : AreSiblings t parent position nodes)
    (fits : Node.Fits a nodes b) :
    (editsOfChildren r parent position nodes).Pairwise Edit.Before := by
  cases nodes with
  | nil => exact .nil
  | cons node nodes =>
    obtain ⟨-, -, behind⟩ := fits
    rw [editsOfChildren]
    refine List.pairwise_append.mpr ⟨pairwise_editsOfNode legal mirrors siblings.head,
      pairwise_editsOfChildren legal mirrors siblings.later behind, ?_⟩
    intro e member e' member'
    obtain ⟨o, held, edit, -, stop⟩ := of_mem_editsOfNode mirrors siblings.head member
    obtain ⟨p, held', edit', start, -⟩ :=
      of_mem_editsOfChildren mirrors siblings.later behind member'
    exact legal.before_of_le held held' (Nat.le_trans stop start) edit edit'

end

theorem slice?_eq_textAt {a b : Nat} (start : t.source.Boundary a) (stop : t.source.Boundary b)
    (ordered : a ≤ b) : t.source.slice? a b = some (t.textAt ⟨a, b⟩) := by
  obtain ⟨slice, found⟩ := start.exists_slice? stop ordered
  rw [Template.textAt, Span.textIn?, found]
  rfl

theorem applySorted?_tailEdit? {stop : Nat} {rest : List Edit} {after : Text}
    (ends : t.source.Boundary o.span.stop)
    (after_eq : Edit.applySorted? t.source stop o.span.stop rest = some after) :
    Edit.applySorted? t.source stop o.span.stop ((r.tailEdit? o).toList ++ rest) =
      some ((r.tail o).getD [] ++ after) := by
  rw [tailEdit?]
  cases r.tail o with
  | none => exact after_eq
  | some text =>
    have here : t.source.Boundary (Edit.insertion o.span.stop text).span.start := ends
    exact Edit.applySorted?_here here after_eq

mutual

/-- The edits of a node, followed by edits behind it, turn its text into the
rewritten one. -/
theorem applySorted?_editsOfNode (legal : r.Legal t) (mirrors : t.Mirrors) {address : Address}
    {node : Node} (held : t.node? address = some node) {stop : Nat} {rest : List Edit}
    {after : Text} (behind : ∀ e ∈ rest, node.span.stop ≤ e.span.start)
    (after_eq : Edit.applySorted? t.source stop node.span.stop rest = some after) :
    Edit.applySorted? t.source stop node.span.start (editsOfNode r address node ++ rest) =
      some (rewriteNode t r address node ++ after) := by
  cases node with
  | mk kind span children =>
    have top : t.Contains ⟨address, .mk kind span children⟩ := held
    have regular := mirrors.regular top
    rw [editsOfNode, rewriteNode, List.append_assoc, List.append_assoc]
    cases cut_eq : r.cut ⟨address, .mk kind span children⟩ with
    | some text =>
      have cut : r.cutEdit? ⟨address, .mk kind span children⟩ = some ⟨span, text⟩ := by
        rw [cutEdit?, cut_eq]
        rfl
      have tail : r.tailEdit? ⟨address, .mk kind span children⟩ = none := by
        rw [tailEdit?, legal.single _ text top cut_eq]
        rfl
      -- The edits below start before the end of the node.
      have passed : ∀ e ∈ editsOfChildren r address 0 children, e.span.start < span.stop := by
        intro e member
        obtain ⟨p, held', below, edit⟩ := below_of_mem_editsOfChildren top member
        have covered := mirrors.covers_of_below top held' below
        have solid : p.span.start < p.span.stop := legal.solid p e held' edit
        obtain ⟨text', -, rfl⟩ := Option.map_eq_some_iff.mp
          (legal.cut_of_below top held' below (.inl cut) edit)
        exact Nat.lt_of_lt_of_le solid covered.2
      have nested_skipped : Edit.applySorted? t.source stop span.stop
          (editsOfChildren r address 0 children ++ rest) = some after := by
        rw [Edit.applySorted?_skip passed]
        exact after_eq
      rw [cut, tail]
      have here : t.source.Boundary (Edit.mk span text).span.start := regular.start
      exact Edit.applySorted?_here here nested_skipped
    | none =>
      have cut : r.cutEdit? ⟨address, .mk kind span children⟩ = none := by
        rw [cutEdit?, cut_eq]
        rfl
      have after_eq' := applySorted?_tailEdit? (r := r) (o := ⟨address, .mk kind span children⟩)
        regular.stop after_eq
      have behind' : ∀ e ∈ (r.tailEdit? ⟨address, .mk kind span children⟩).toList ++ rest,
          span.stop ≤ e.span.start := by
        intro e member
        rcases List.mem_append.mp member with member | member
        · obtain ⟨text, -, rfl⟩ := Option.map_eq_some_iff.mp (Option.mem_toList.mp member)
          exact Nat.le_refl _
        · exact behind e member
      rw [cut]
      dsimp only
      rw [List.append_assoc]
      exact applySorted?_editsOfChildren legal mirrors (areSiblings_children held) regular.fits
        regular.start regular.stop behind' after_eq'

theorem applySorted?_editsOfChildren (legal : r.Legal t) (mirrors : t.Mirrors) {parent : Address}
    {position cursor limit : Nat} {nodes : List Node}
    (siblings : AreSiblings t parent position nodes) (fits : Node.Fits cursor nodes limit)
    (begins : t.source.Boundary cursor) (ends : t.source.Boundary limit) {stop : Nat}
    {rest : List Edit} {after : Text} (behind : ∀ e ∈ rest, limit ≤ e.span.start)
    (after_eq : Edit.applySorted? t.source stop limit rest = some after) :
    Edit.applySorted? t.source stop cursor (editsOfChildren r parent position nodes ++ rest) =
      some (rewriteChildren t r parent position cursor limit nodes ++ after) := by
  cases nodes with
  | nil => exact Edit.applySorted?_advance (slice?_eq_textAt begins ends fits) fits behind after_eq
  | cons node nodes =>
    obtain ⟨before, forward, fits'⟩ := fits
    have top : t.Contains ⟨position :: parent, node⟩ := siblings.head
    have regular : node.Regular t.source := mirrors.regular top
    have later := applySorted?_editsOfChildren legal mirrors siblings.later fits' regular.stop ends
      behind after_eq
    have behind' : ∀ e ∈ editsOfChildren r parent (position + 1) nodes ++ rest,
        node.span.stop ≤ e.span.start := by
      intro e member
      rcases List.mem_append.mp member with member | member
      · obtain ⟨o, held, edit, start, -⟩ :=
          of_mem_editsOfChildren mirrors siblings.later fits' member
        exact Nat.le_trans start (legal.inside held edit).1
      · exact Nat.le_trans fits'.le (behind e member)
    have here := applySorted?_editsOfNode legal mirrors siblings.head behind' later
    have behind_node : ∀ e ∈ editsOfNode r (position :: parent) node ++
        (editsOfChildren r parent (position + 1) nodes ++ rest),
        node.span.start ≤ e.span.start := by
      intro e member
      rcases List.mem_append.mp member with member | member
      · obtain ⟨o, held, edit, start, -⟩ := of_mem_editsOfNode mirrors siblings.head member
        exact Nat.le_trans start (legal.inside held edit).1
      · exact Nat.le_trans forward (behind' e member)
    rw [editsOfChildren, rewriteChildren, List.append_assoc, List.append_assoc, List.append_assoc]
    exact Edit.applySorted?_advance (slice?_eq_textAt begins regular.start before) before
      behind_node here

end

def edits (r : Rewriting) (o : Occurrence) : List Edit :=
  editsOfNode r o.address o.node

/-- Applying edits to the span of a node rewrites it, if those inside the span are
the edits of the node. -/
theorem applyAll?_eq_rewrite (legal : r.Legal t) (mirrors : t.Mirrors) (held : t.Contains o)
    {pool : List Edit} (perm : (pool.filter fun e => o.span.covers e.span).Perm (r.edits o)) :
    Edit.applyAll? t.source o.span pool = some (r.rewrite t o) := by
  have ordered := pairwise_editsOfNode legal mirrors held
  have finished : Edit.applySorted? t.source o.span.stop o.span.stop [] = some [] :=
    Text.slice?_self (mirrors.regular held).stop
  have applied := applySorted?_editsOfNode legal mirrors held (by simp) finished
  rw [List.append_nil, List.append_nil] at applied
  rw [Edit.applyAll?, Edit.inside_eq_of_perm perm ordered]
  exact applied

end Rewriting

end ComponentExtraction
