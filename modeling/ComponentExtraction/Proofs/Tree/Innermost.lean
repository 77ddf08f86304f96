import ComponentExtraction.Proofs.Tree.Enumeration

/-!
# The innermost node at a byte

The search goes down into the first child that contains the byte and never comes back.
It misses nothing, as two nodes that contain one byte lie one below the other where the
spans of a tree mirror its source (`Template.Mirrors.nested`). So its answer is the
innermost node of an accepted kind (`Template.Mirrors.innermostAt_eq_some_iff`).
-/

namespace ComponentExtraction

namespace Node

variable {t : Template} {o : Occurrence} {offset : Nat} {accept : Kind → Bool}

mutual

/-- The innermost node that contains a byte is a node of the template, of an
accepted kind, and does contain the byte. -/
theorem contains_of_innermostAt {address : Address} {found : Option Occurrence} {node : Node}
    (held : t.node? address = some node)
    (ok : ∀ p, found = some p →
      t.Contains p ∧ accept p.kind = true ∧ p.span.contains offset = true)
    (result : node.innermostAt offset accept address found = some o) :
    t.Contains o ∧ accept o.kind = true ∧ o.span.contains offset = true := by
  cases node with
  | mk kind span children =>
    rw [innermostAt] at result
    refine contains_of_innermostAmong (fun i child child_eq => ?_) ok result
    rw [Template.node?_cons, held, Nat.zero_add]
    exact child_eq

theorem contains_of_innermostAmong {parent : Address} {position : Nat}
    {found : Option Occurrence} {nodes : List Node}
    (held : ∀ i node, nodes[i]? = some node → t.node? ((position + i) :: parent) = some node)
    (ok : ∀ p, found = some p →
      t.Contains p ∧ accept p.kind = true ∧ p.span.contains offset = true)
    (result : innermostAmong offset accept parent position found nodes = some o) :
    t.Contains o ∧ accept o.kind = true ∧ o.span.contains offset = true := by
  cases nodes with
  | nil => exact ok o result
  | cons node nodes =>
    rw [innermostAmong] at result
    split at result
    · next inside =>
      refine contains_of_innermostAt (held 0 node rfl) ?_ result
      intro p found_eq
      split at found_eq
      · next accepted =>
        cases found_eq
        exact ⟨held 0 node rfl, accepted, inside⟩
      · exact ok p found_eq
    · refine contains_of_innermostAmong (fun i child child_eq => ?_) ok result
      rw [Nat.add_assoc, Nat.add_comm 1 i]
      exact held (i + 1) child child_eq

end

/-- Among siblings the search goes on in one that contains the byte, if there is one. -/
theorem innermostAmong_cases (offset : Nat) (accept : Kind → Bool) (parent : Address)
    (position : Nat) (found : Option Occurrence) (nodes : List Node) :
    ((∀ c ∈ Occurrence.siblings parent position nodes, c.span.contains offset = false) ∧
      innermostAmong offset accept parent position found nodes = found) ∨
    ∃ c ∈ Occurrence.siblings parent position nodes, c.span.contains offset = true ∧
      innermostAmong offset accept parent position found nodes =
        c.node.innermostAt offset accept c.address (if accept c.kind then some c else found) := by
  induction nodes generalizing position with
  | nil => exact .inl ⟨by simp [Occurrence.siblings], rfl⟩
  | cons node nodes ih =>
    rw [innermostAmong, Occurrence.siblings]
    by_cases inside : node.span.contains offset = true
    · rw [if_pos inside]
      exact .inr ⟨_, List.mem_cons_self, inside, rfl⟩
    · rw [if_neg inside]
      rcases ih (position + 1) with ⟨none, result⟩ | ⟨c, member, rest⟩
      · exact .inl ⟨List.forall_mem_cons.mpr ⟨Bool.not_eq_true _ ▸ inside, none⟩, result⟩
      · exact .inr ⟨c, List.mem_cons_of_mem _ member, rest⟩

end Node

namespace Occurrence

variable {t : Template} {o p : Occurrence} {offset : Nat} {accept : Kind → Bool}

/-- The node is of an accepted kind and contains a byte. -/
structure Meets (offset : Nat) (accept : Kind → Bool) (o : Occurrence) : Prop where
  accepted : accept o.kind = true
  inside : o.span.contains offset = true

theorem innermostAt_cases (offset : Nat) (accept : Kind → Bool) (p : Occurrence)
    (found : Option Occurrence) :
    ((∀ c ∈ p.children, c.span.contains offset = false) ∧
      p.node.innermostAt offset accept p.address found = found) ∨
    ∃ c ∈ p.children, c.span.contains offset = true ∧
      p.node.innermostAt offset accept p.address found =
        c.node.innermostAt offset accept c.address (if accept c.kind then some c else found) := by
  obtain ⟨address, kind, span, children⟩ := p
  exact Node.innermostAmong_cases offset accept address 0 found children

theorem Below.exists_child (below : o.Below p) (ho : t.Contains o) (hp : t.Contains p) :
    ∃ c ∈ p.children, t.Contains c ∧ (o = c ∨ o.Below c) := by
  obtain ⟨position, path, address_eq⟩ := below
  obtain ⟨front, i, path_eq⟩ : ∃ front i, position :: path = front ++ [i] :=
    ⟨_, _, (List.dropLast_append_getLast (List.cons_ne_nil position path)).symm⟩
  have above : o.address = front ++ i :: p.address := by
    rw [address_eq, path_eq, List.append_assoc]
    rfl
  obtain ⟨c, held, c_eq, relation⟩ := ho.exists_above above
  obtain ⟨parent, parent_held, parent_eq, child⟩ := held.exists_parent c_eq
  cases parent_held.ext hp parent_eq
  exact ⟨c, mem_children_iff.mpr ⟨i, child, c_eq⟩, held, relation⟩

end Occurrence

namespace Template

open Occurrence Node

variable {t : Template} {o p q : Occurrence} {offset : Nat} {accept : Kind → Bool}

/-- The innermost node of an accepted kind that contains a byte: every other one, the root
included, is an ancestor of it. -/
structure IsInnermostAt (t : Template) (offset : Nat) (accept : Kind → Bool) (o : Occurrence) :
    Prop where
  contains : t.Contains o
  notRoot : o.address ≠ []
  accepted : accept o.kind = true
  inside : o.span.contains offset = true
  around : ∀ p, t.Contains p → accept p.kind = true → p.span.contains offset = true →
    p = o ∨ t.isAncestorOf p o = true

theorem below_top_iff : o.Below t.top ↔ o.address ≠ [] := by
  refine ⟨fun below root => ?_, fun other => ?_⟩
  · exact absurd below.length_lt (by simp [root])
  · obtain ⟨position, path, address_eq⟩ := List.exists_cons_of_ne_nil other
    exact ⟨position, path, address_eq.trans (List.append_nil _).symm⟩

namespace Mirrors

/-- Nodes that contain one byte lie one below the other. -/
theorem nested (mirrors : t.Mirrors) (ho : t.Contains o) (hp : t.Contains p)
    (inside : o.span.contains offset = true) (inside' : p.span.contains offset = true) :
    o = p ∨ o.Below p ∨ p.Below o := by
  by_contra apart
  obtain ⟨differ, notBelow, notAbove⟩ := by simpa only [not_or] using apart
  have separate := mirrors.separate ho hp differ notBelow notAbove
  simp only [Span.contains, Bool.and_eq_true, decide_eq_true_eq] at inside inside'
  omega

theorem contains_of_covers (mirrors : t.Mirrors) (hp : t.Contains p) (ho : t.Contains o)
    (relation : o = p ∨ o.Below p) (inside : o.span.contains offset = true) :
    p.span.contains offset = true := by
  have covered := mirrors.covers hp ho relation
  simp only [Span.contains, Bool.and_eq_true, decide_eq_true_eq] at inside ⊢
  omega

theorem eq_or_below_child (mirrors : t.Mirrors) (hp : t.Contains p) (hq : t.Contains q)
    (child : o ∈ p.children) (inside : o.span.contains offset = true) (below : q.Below p)
    (inside' : q.span.contains offset = true) : q = o ∨ q.Below o := by
  have ho := contains_of_mem_children hp child
  obtain ⟨i, -, address_eq⟩ := mem_children_iff.mp child
  rcases mirrors.nested hq ho inside' inside with same | lower | higher
  · exact .inl same
  · exact .inr lower
  · -- Nothing lies between a node and its child.
    rcases higher.eq_or_below_parent address_eq with same | above
    · exact absurd below.length_lt (by rw [same]; exact Nat.lt_irrefl _)
    · exact absurd below.length_lt (Nat.lt_asymm above.length_lt)

/-- Below a node the search finds the innermost node, or nothing is to be found there. -/
theorem innermostAt_below (mirrors : t.Mirrors) (offset : Nat) (accept : Kind → Bool)
    (hp : t.Contains p) (found : Option Occurrence) :
    (p.node.innermostAt offset accept p.address found = found ∧
      ∀ q, t.Contains q → q.Below p → ¬ q.Meets offset accept) ∨
    ∃ o, p.node.innermostAt offset accept p.address found = some o ∧ o.Below p ∧
      ∀ q, t.Contains q → q.Below p → q.Meets offset accept → q = o ∨ o.Below q := by
  -- Induction on the tree below `p`.
  obtain ⟨address, node⟩ := p
  have tree : Everywhere (Regular t.source) node := Everywhere.of_contains mirrors hp
  induction tree generalizing address found with
  | @intro node regular _ ih =>
    rcases innermostAt_cases offset accept ⟨address, node⟩ found with
      ⟨empty, result⟩ | ⟨c, child, inside, result⟩
    · refine .inl ⟨result, fun q hq below meets => ?_⟩
      obtain ⟨c, child, hc, relation⟩ := below.exists_child hq hp
      have covered := mirrors.contains_of_covers hc hq relation meets.inside
      exact absurd covered (by simp [empty c child])
    · have hc := contains_of_mem_children hp child
      obtain ⟨i, child_eq, address_eq⟩ := mem_children_iff.mp child
      have inner : ∀ q, t.Contains q → q.Below ⟨address, node⟩ → q.Meets offset accept →
          q = c ∨ q.Below c := fun q hq below meets =>
        mirrors.eq_or_below_child hp hq child inside below meets.inside
      rcases ih c.node (List.mem_of_getElem? child_eq) (if accept c.kind then some c else found)
        c.address hc with ⟨stays, empty⟩ | ⟨o, found_eq, lower, least⟩
      · by_cases accepted : accept c.kind = true
        · refine .inr ⟨c, ?_, .of_child address_eq, fun q hq below meets => .inl ?_⟩
          · rw [result, stays, if_pos accepted]
          · exact (inner q hq below meets).resolve_right fun deeper => empty q hq deeper meets
        · refine .inl ⟨?_, fun q hq below meets => ?_⟩
          · rw [result, stays, if_neg accepted]
          · rcases inner q hq below meets with rfl | deeper
            · exact accepted meets.accepted
            · exact empty q hq deeper meets
      · refine .inr ⟨o, result.trans found_eq, lower.trans (.of_child address_eq), ?_⟩
        intro q hq below meets
        rcases inner q hq below meets with rfl | deeper
        · exact .inr lower
        · exact least q hq deeper meets

theorem innermostAt_eq_some_iff (mirrors : t.Mirrors) :
    t.innermostAt offset accept = some o ↔ t.IsInnermostAt offset accept o := by
  have search := mirrors.innermostAt_below offset accept t.contains_top none
  constructor
  · intro result
    obtain ⟨held, accepted, inside⟩ := contains_of_innermostAt t.contains_top (by simp) result
    rcases search with ⟨nothing, -⟩ | ⟨o', found_eq, below, least⟩
    · cases nothing.symm.trans result
    · cases found_eq.symm.trans result
      refine ⟨held, below_top_iff.mp below, accepted, inside, fun p hp accepted' inside' => ?_⟩
      by_cases root : p.address = []
      · cases hp.ext t.contains_top root
        exact .inr ((isAncestorOf_iff hp).mpr below)
      · exact (least p hp (below_top_iff.mpr root) ⟨accepted', inside'⟩).imp_right
          (isAncestorOf_iff hp).mpr
  · intro innermost
    have below : o.Below t.top := below_top_iff.mpr innermost.notRoot
    have meets : o.Meets offset accept := ⟨innermost.accepted, innermost.inside⟩
    rcases search with ⟨-, empty⟩ | ⟨o', found_eq, -, least⟩
    · exact absurd meets (empty o innermost.contains below)
    · obtain ⟨held, accepted, inside⟩ := contains_of_innermostAt t.contains_top (by simp) found_eq
      rcases least o innermost.contains below meets with rfl | lower
      · exact found_eq
      · rcases innermost.around o' held accepted inside with rfl | higher
        · exact found_eq
        · have := ((isAncestorOf_iff held).mp higher).length_lt
          exact absurd lower.length_lt (Nat.lt_asymm this)

/-- The search answers with nothing where there is nothing to be found. -/
theorem innermostAt_eq_none_iff (mirrors : t.Mirrors) : t.innermostAt offset accept = none ↔
    ∀ o, t.Contains o → o.address ≠ [] → accept o.kind = true →
      o.span.contains offset = false := by
  rcases mirrors.innermostAt_below offset accept t.contains_top none with
    ⟨nothing, empty⟩ | ⟨o, found_eq, below, -⟩
  · refine ⟨fun _ o held other accepted => ?_, fun _ => nothing⟩
    exact Bool.eq_false_iff.mpr fun inside =>
      empty o held (below_top_iff.mpr other) ⟨accepted, inside⟩
  · obtain ⟨held, accepted, inside⟩ := contains_of_innermostAt t.contains_top (by simp) found_eq
    refine ⟨fun nothing => ?_, fun empty => ?_⟩
    · cases found_eq.symm.trans nothing
    · exact absurd inside (by simp [empty o held (below_top_iff.mp below) accepted])

end Mirrors

end Template

end ComponentExtraction
