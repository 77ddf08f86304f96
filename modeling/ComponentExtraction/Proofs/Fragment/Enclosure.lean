import ComponentExtraction.Proofs.Extraction.Tiling
import ComponentExtraction.Proofs.Markup.Closing
import ComponentExtraction.Proofs.Markup.Cut

/-!
# Selections are closed

The start of a selection is widened to the outermost markup that starts there, so
nothing that holds the selected siblings starts where they start. Markup that starts
within the span of the siblings therefore stops within it (`enclosed_of_select`).
-/

namespace ComponentExtraction

/-- What is known of all occurrences holds everywhere below the root. -/
theorem Node.Everywhere.of_occurrences {P Q : Node → Prop} {t : Template}
    (tree : Everywhere Q t.root) (each : ∀ o, t.Contains o → P o.node) : Everywhere P t.root := by
  suffices ∀ node, Everywhere Q node → ∀ address, t.Contains ⟨address, node⟩ → Everywhere P node from
    this t.root tree [] rfl
  intro node below
  induction below with
  | @intro node _ _ ih =>
    intro address held
    refine .intro (each _ held) fun child member => ?_
    obtain ⟨position, child_eq⟩ := List.getElem?_of_mem member
    refine ih child member (position :: address) ?_
    rw [Template.Contains, Template.node?_cons, held]
    exact child_eq

namespace Fragment

open Markup.Nesting (Enclosed Ended)
open Node (Everywhere)

variable {t : Template} {roots : List Occurrence} {first last : Nat}

theorem climbWhile_eq {accept : Node → Bool} {address parent : Address} {position : Nat}
    {node : Node} (climbed : climbWhile t accept address = position :: parent)
    (held : t.node? parent = some node) : accept node = false := by
  induction address with
  | nil => exact absurd climbed (by simp [climbWhile])
  | cons index above ih =>
    rw [climbWhile] at climbed
    split at climbed
    · next other other_eq =>
      split at climbed
      · exact ih climbed
      · next refused =>
        cases climbed
        cases other_eq.symm.trans held
        exact Bool.not_eq_true _ ▸ refused
    · next missing =>
      cases climbed
      exact absurd (missing.symm.trans held) (by simp)

/-- Nothing around the roots is markup that starts with the first of them. -/
def Outermost (t : Template) (roots : List Occurrence) : Prop :=
  ∃ parent, t.Contains parent ∧ roots <:+: parent.children ∧ ∀ root ∈ roots.head?,
    parent.kind.isMarkup = true → parent.span.start ≠ root.span.start

theorem outermost_of_selectContent (selected : selectContent t first last = .ok roots) :
    Outermost t roots := by
  obtain ⟨o, p, first_eq, -, run_eq⟩ := of_selectContent selected
  obtain ⟨held, -⟩ := Node.contains_of_innermostAt t.contains_top (by simp) first_eq
  obtain ⟨node, node_eq, reached⟩ := exists_node?_climbWhile
    (fun node => node.kind.isMarkup && node.span.start == o.span.start) held
  obtain ⟨parent, parent_held, inside, head⟩ := of_siblingRun? node_eq run_eq
  refine ⟨parent, parent_held, inside, fun root member markup same => ?_⟩
  cases head.symm.trans member
  have start_eq : node.span.start = o.span.start := by
    rcases reached with rfl | accepted
    · rfl
    · rw [Bool.and_eq_true, beq_iff_eq] at accepted
      exact accepted.2
  obtain ⟨position, -, address_eq⟩ :=
    Occurrence.mem_children_iff.mp (inside.subset (List.mem_of_mem_head? head))
  have refused := climbWhile_eq address_eq parent_held
  rw [Bool.and_eq_false_iff, beq_eq_false_iff_ne] at refused
  rcases refused with other | apart
  · exact absurd (markup.symm.trans other) (by simp)
  · exact apart (same.trans start_eq)

/-- Markup that starts within the span of the roots stops within it, if only the root
of the template can hold markup without being markup. -/
theorem Outermost.enclosed {span : Span} (outermost : Outermost t roots) (mirrors : t.Mirrors)
    (span_eq : spanOf? roots = some span) (markup : ∀ root ∈ roots, root.kind.isMarkup = true)
    (rooted : ∀ o, t.Contains o → o.kind.layer = 0 → o.kind.isMarkup = true ∨ o.address = [])
    {o : Occurrence} (held : t.Contains o) (plain : o.kind.isMarkup = true) :
    Enclosed span.start span.stop o.span.start o.span.stop := by
  intro behind before
  obtain ⟨parent, parent_held, inside, apart⟩ := outermost
  obtain ⟨head, head_eq, start_eq⟩ := Option.map_eq_some_iff.mp (head?_of_spanOf? span_eq)
  obtain ⟨tail, tail_eq, stop_eq⟩ := Option.map_eq_some_iff.mp (getLast?_of_spanOf? span_eq)
  have tail_child := inside.subset (List.mem_of_getLast? tail_eq)
  have tail_held := Occurrence.contains_of_mem_children parent_held tail_child
  have head_child := inside.subset (List.mem_of_head? head_eq)
  by_cases same : o = tail
  · rw [same, stop_eq]
  by_cases below : o.Below tail
  · exact Nat.le_trans (mirrors.covers_of_below tail_held held below).2 (Nat.le_of_eq stop_eq)
  by_cases above : tail.Below o
  · -- Then the parent of the roots starts with them, and so it is the root.
    obtain ⟨position, child, address_eq⟩ := Occurrence.mem_children_iff.mp tail_child
    obtain ⟨index, child', -⟩ := Occurrence.mem_children_iff.mp head_child
    have head_inside := (mirrors.covers_of_child parent_held child').1
    have outer : parent.kind.layer = 0 := by
      refine ((mirrors.regular parent_held).admits _ (List.mem_of_getElem? child)).layer_eq_zero ?_
      exact Kind.layer_le_of_isMarkup (markup tail (List.mem_of_getLast? tail_eq))
    rcases above.eq_or_below_parent address_eq with at_parent | above
    · cases parent_held.ext held at_parent
      exact absurd (by omega) (apart head head_eq plain)
    · have around := (mirrors.covers_of_below held parent_held above).1
      rcases rooted parent parent_held outer with element | top
      · exact absurd (by omega) (apart head head_eq element)
      · obtain ⟨i, path, below_eq⟩ := above
        exact absurd (top.symm.trans below_eq) (by simp)
  · rcases mirrors.separate held tail_held same below above with first | last
    · have ordered := (mirrors.regular tail_held).ordered
      change tail.span.start ≤ tail.span.stop at ordered
      omega
    · omega

variable {source url : Text}

/-- In a parsed template, markup that starts within the span of a selection stops
within it. -/
theorem enclosed_of_select {start stop : Nat} {span : Span}
    (selected : select (Markup.parse source url).template start stop = .ok roots)
    (span_eq : spanOf? roots = some span) :
    Everywhere (Ended (Enclosed span.start span.stop)) (Markup.parse source url).template.root := by
  have mirrors := Markup.mirrors_parse source url
  obtain ⟨_, -, -, content⟩ := of_select selected
  have run := (isRun_of_select (Markup.sound_parse source url) selected).1
  refine .of_occurrences mirrors fun o held markup => ?_
  exact (outermost_of_selectContent content).enclosed mirrors span_eq run.markup
    (fun o held => Markup.markup_of_layer_parse source url held) held markup

end Fragment

end ComponentExtraction
