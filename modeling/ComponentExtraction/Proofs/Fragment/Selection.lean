import ComponentExtraction.Fragment.Selection
import ComponentExtraction.Proofs.Markup.Nesting
import Mathlib.Data.List.TakeWhile

/-!
# What a selection denotes

A selection starts at a markup node, and behind a markup node all siblings are
markup, so it denotes a run of sibling markup nodes (`isRun_of_select`). Between
two nodes of a run there is nothing, or an error (`IsRun.bridged`).
-/

namespace ComponentExtraction

namespace Text

theorem byteLength_trimStart_le (text : Text) : text.trimStart.byteLength ≤ text.byteLength := by
  have split := List.takeWhile_append_dropWhile (p := isBlank) (l := text)
  have length_eq := congrArg byteLength split
  rw [byteLength_append] at length_eq
  exact Nat.le.intro (by rw [Nat.add_comm]; exact length_eq)

theorem byteLength_trimEnd_le (text : Text) : text.trimEnd.byteLength ≤ text.byteLength := by
  have split := List.takeWhile_append_dropWhile (p := isBlank) (l := text.reverse)
  have length_eq := congrArg (fun text => byteLength text.reverse) split
  simp only [List.reverse_append, List.reverse_reverse, byteLength_append] at length_eq
  exact Nat.le.intro length_eq

theorem trimEnd_ne_nil {text : Text} (visible : text.trim ≠ []) : text.trimEnd ≠ [] := by
  intro blank
  apply visible
  have all : ∀ c ∈ text, isBlank c = true := by
    simpa [trimEnd, List.dropWhile_eq_nil_iff] using blank
  rw [trim, trimStart, List.dropWhile_eq_nil_iff.mpr all]
  rfl

end Text

namespace Kind

theorem layer_le_of_isMarkup {kind : Kind} (markup : kind.isMarkup = true) : kind.layer ≤ 1 := by
  unfold isMarkup at markup
  split at markup
  · exact Nat.zero_le 1
  · exact Nat.le_refl 1
  · exact Nat.le_refl 1
  · exact absurd markup (by simp)

/-- Markup and attributes stand directly below elements, or below the root. -/
theorem Admits.layer_eq_zero {parent child : Kind} (h : parent.Admits child)
    (outer : child.layer ≤ 1) : parent.layer = 0 := by
  rcases h with zero | deeper
  · exact zero
  · omega

end Kind

namespace Fragment

open Node

variable {t : Template} {roots : List Occurrence} {first last : Nat}

theorem exists_node?_climbWhile (accept : Node → Bool) {address : Address} {node : Node}
    (held : t.node? address = some node) :
    ∃ reached, t.node? (climbWhile t accept address) = some reached ∧
      (reached = node ∨ accept reached = true) := by
  induction address generalizing node with
  | nil => exact ⟨node, held, .inl rfl⟩
  | cons position parent ih =>
    rw [climbWhile]
    split
    · next above above_eq =>
      split
      · next accepted =>
        obtain ⟨reached, reached_eq, same | accepted'⟩ := ih above_eq
        · exact ⟨reached, reached_eq, .inr (same ▸ accepted)⟩
        · exact ⟨reached, reached_eq, .inr accepted'⟩
      · exact ⟨node, held, .inl rfl⟩
    · exact ⟨node, held, .inl rfl⟩

/-- Some sibling markup nodes that stand next to each other.
Selections denote runs, and nothing else is extracted. -/
structure IsRun (t : Template) (roots : List Occurrence) : Prop where
  siblings : ∃ parent, t.Contains parent ∧ roots <:+: parent.children
  markup : ∀ root ∈ roots, root.kind.isMarkup = true

theorem of_siblingRun? {address address' : Address} {node : Node}
    (held : t.node? address = some node)
    (found : siblingRun? t address address' = some roots) :
    ∃ parent, t.Contains parent ∧ roots <:+: parent.children ∧
      roots.head? = some ⟨address, node⟩ := by
  unfold siblingRun? at found
  split at found
  · next i above j above' =>
    split at found
    · next aligned =>
      obtain ⟨parent, parent_eq, rfl⟩ := Option.map_eq_some_iff.mp found
      obtain ⟨parent_held, rfl⟩ := Template.occurrence?_eq_some_iff.mp parent_eq
      refine ⟨parent, parent_held, ?_, ?_⟩
      · have taken := List.take_prefix (j + 1) parent.children
        exact (List.drop_suffix i _).isInfix.trans taken.isInfix
      · rw [List.head?_drop, List.getElem?_take_of_lt (Nat.lt_succ_of_le aligned.2),
          Occurrence.getElem?_children]
        rw [Template.node?_cons, parent_held, Option.bind_some] at held
        rw [held]
        rfl
    · exact absurd found (by simp)
  · exact absurd found (by simp)

/-- The ends of the content of a selection are the first and the last byte of what
is left of it without blanks. -/
theorem contentEnds_eq {selected : Text} {start stop : Nat}
    (length_eq : stop = start + selected.byteLength) (visible : selected.trim ≠ []) :
    (contentEnds selected start stop).1 + selected.trimStart.byteLength = stop ∧
      (contentEnds selected start stop).2 + 1 = start + selected.trimEnd.byteLength := by
  have leading := Text.byteLength_trimStart_le selected
  have trailing := Text.byteLength_trimEnd_le selected
  have positive := Text.byteLength_pos (Text.trimEnd_ne_nil visible)
  simp only [contentEnds]
  omega

variable {found : List Diagnostic}

theorem packed_of_child (sound : Everywhere (Sound t.source found) t.root)
    {child parent : Occurrence} (held : t.Contains parent) (member : child ∈ parent.children)
    (outer : child.kind.layer ≤ 1) : parent.node.Packed t.source found := by
  have sound_parent := (sound.of_contains held).here
  have member' : child.node ∈ parent.node.children := by
    rw [← parent.map_node_children]
    exact List.mem_map_of_mem member
  exact sound_parent.packed ((sound_parent.regular.admits child.node member').layer_eq_zero outer)

/-- In a parsed template, siblings that start with a markup node are a run. -/
theorem isRun_of_head (sound : Everywhere (Sound t.source found) t.root) {parent : Occurrence}
    (held : t.Contains parent) (inside : roots <:+: parent.children) {root : Occurrence}
    (head : roots.head? = some root) (markup : root.kind.isMarkup = true) : IsRun t roots := by
  refine ⟨⟨parent, held, inside⟩, ?_⟩
  obtain ⟨rest, rfl⟩ := List.head?_eq_some_iff.mp head
  have packed := packed_of_child sound held (inside.subset List.mem_cons_self)
    (Kind.layer_le_of_isMarkup markup)
  have behind := packed.markup_behind
  rw [← parent.map_node_children, List.pairwise_map] at behind
  have ordered := List.pairwise_cons.mp (behind.sublist inside.sublist)
  intro other member
  rcases List.mem_cons.mp member with rfl | member
  · exact markup
  · exact ordered.1 other member markup

theorem of_selectContent (selected : selectContent t first last = .ok roots) : ∃ o p,
    t.innermostAt first Kind.isMarkup = some o ∧ t.innermostAt last Kind.isMarkup = some p ∧
      siblingRun? t (widenStart t o) (widenStop t p) = some roots := by
  unfold selectContent at selected
  split at selected
  · next o p first_eq last_eq =>
    dsimp only at selected
    split at selected
    · exact absurd selected (by simp)
    · split at selected
      · next run run_eq =>
        cases selected
        exact ⟨o, p, first_eq, last_eq, run_eq⟩
      · exact absurd selected (by simp)
  · exact absurd selected (by simp)

/-- What is selected is the content of the text in the range, which is not blank. -/
theorem of_select {start stop : Nat} (selected : select t start stop = .ok roots) : ∃ text,
    t.source.slice? start (min stop t.source.byteLength) = some text ∧ text.trim ≠ [] ∧
      selectContent t (contentEnds text start (min stop t.source.byteLength)).1
        (contentEnds text start (min stop t.source.byteLength)).2 = .ok roots := by
  unfold select at selected
  dsimp only at selected
  split at selected
  · exact absurd selected (by simp)
  · split at selected
    · exact absurd selected (by simp)
    · split at selected
      · exact absurd selected (by simp)
      · next text found =>
        split at selected
        · exact absurd selected (by simp)
        · next visible => exact ⟨text, found, by simpa using visible, selected⟩

theorem isRun_of_selectContent (sound : Everywhere (Sound t.source found) t.root)
    (selected : selectContent t first last = .ok roots) : IsRun t roots ∧ roots ≠ [] := by
  obtain ⟨o, p, first_eq, -, run_eq⟩ := of_selectContent selected
  obtain ⟨held, markup, -⟩ := contains_of_innermostAt (t.contains_top) (by simp) first_eq
  obtain ⟨node, node_eq, reached⟩ := exists_node?_climbWhile
    (fun node => node.kind.isMarkup && node.span.start == o.span.start) held
  obtain ⟨parent, parent_held, inside, head⟩ := of_siblingRun? node_eq run_eq
  have markup' : node.kind.isMarkup = true := by
    rcases reached with rfl | accepted
    · exact markup
    · rw [Bool.and_eq_true] at accepted
      exact accepted.1
  refine ⟨isRun_of_head sound parent_held inside head markup', ?_⟩
  rintro rfl
  exact absurd head (by simp)

/-- A selection denotes a run of sibling markup nodes. -/
theorem isRun_of_select (sound : Everywhere (Sound t.source found) t.root) {start stop : Nat}
    (selected : select t start stop = .ok roots) : IsRun t roots ∧ roots ≠ [] := by
  obtain ⟨_, -, -, content⟩ := of_select selected
  exact isRun_of_selectContent sound content

namespace IsRun

theorem contains (run : IsRun t roots) : ∀ root ∈ roots, t.Contains root := by
  obtain ⟨parent, held, inside⟩ := run.siblings
  intro root member
  exact Occurrence.contains_of_mem_children held (inside.subset member)

theorem exists_packed (run : IsRun t roots) (sound : Everywhere (Sound t.source found) t.root)
    (nonempty : roots ≠ []) : ∃ parent, t.Contains parent ∧ roots <:+: parent.children ∧
      parent.node.Packed t.source found := by
  obtain ⟨parent, held, inside⟩ := run.siblings
  obtain ⟨root, rest, rfl⟩ := List.exists_cons_of_ne_nil nonempty
  exact ⟨parent, held, inside, packed_of_child sound held (inside.subset List.mem_cons_self)
    (Kind.layer_le_of_isMarkup (run.markup root List.mem_cons_self))⟩

/-- Nothing stands between two roots that follow each other, errors apart. -/
theorem bridged (run : IsRun t roots) (sound : Everywhere (Sound t.source found) t.root) :
    roots.IsChain fun root next => Bridged found root.span.stop next.span.start := by
  by_cases nonempty : roots = []
  · rw [nonempty]
    exact .nil
  obtain ⟨parent, held, inside, packed⟩ := run.exists_packed sound nonempty
  have chain := packed.bridged
  rw [← parent.map_node_children, List.isChain_map] at chain
  have within := List.IsChain.infix chain inside
  refine within.imp_of_mem_imp ?_
  intro root next member _ gap
  exact gap (run.markup root member)

theorem solid (run : IsRun t roots) (sound : Everywhere (Sound t.source found) t.root) :
    ∀ root ∈ roots, root.node.Solid := by
  intro root member
  obtain ⟨parent, held, inside, packed⟩ := run.exists_packed sound (List.ne_nil_of_mem member)
  apply packed.solid
  rw [← parent.map_node_children]
  exact List.mem_map_of_mem (inside.subset member)

theorem ordered (run : IsRun t roots) (mirrors : t.Mirrors) :
    roots.Pairwise fun root later => root.span.stop ≤ later.span.start := by
  obtain ⟨parent, held, inside⟩ := run.siblings
  have siblings := (mirrors.regular held).fits.ordered
  rw [← parent.map_node_children, List.pairwise_map] at siblings
  exact siblings.sublist inside.sublist

end IsRun

end Fragment

end ComponentExtraction
