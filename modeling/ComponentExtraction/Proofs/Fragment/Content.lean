import ComponentExtraction.Proofs.Fragment.Selection
import ComponentExtraction.Proofs.Tree.Path

/-!
# What a selection covers

Of a selected range only the content counts, which is what is left without the blanks at
both ends (`Selects`). The fragment starts with a node that contains the first byte of the
content and ends with a node that contains its last one, as widening leads from a node to
nodes around it.
-/

namespace ComponentExtraction

namespace Text

/-- A text consists of blanks around a core that starts and ends with a character which
is not blank. -/
structure Frames (text leading core trailing : Text) : Prop where
  text_eq : text = leading ++ core ++ trailing
  leading : ∀ c ∈ leading, isBlank c = true
  trailing : ∀ c ∈ trailing, isBlank c = true
  first : ∃ c more, core = c :: more ∧ isBlank c = false
  last : ∃ more c, core = more ++ [c] ∧ isBlank c = false

namespace Frames

variable {text leading core trailing : Text}

theorem core_ne_nil (h : text.Frames leading core trailing) : core ≠ [] := by
  obtain ⟨c, more, core_eq, -⟩ := h.first
  rw [core_eq]
  exact List.cons_ne_nil c more

theorem trimStart_eq (h : text.Frames leading core trailing) : text.trimStart = core ++ trailing := by
  obtain ⟨c, more, core_eq, visible⟩ := h.first
  rw [trimStart, h.text_eq, List.append_assoc, List.dropWhile_append_of_pos h.leading, core_eq,
    List.cons_append, List.dropWhile_cons_of_neg (by simp [visible])]

theorem trimEnd_eq (h : text.Frames leading core trailing) : text.trimEnd = leading ++ core := by
  obtain ⟨more, c, core_eq, visible⟩ := h.last
  have blank : ∀ a ∈ trailing.reverse, isBlank a = true := by
    intro a member
    exact h.trailing a (List.mem_reverse.mp member)
  have reverse_eq : text.reverse = trailing.reverse ++ c :: (leading ++ more).reverse := by
    simp [h.text_eq, core_eq]
  rw [trimEnd, reverse_eq, List.dropWhile_append_of_pos blank,
    List.dropWhile_cons_of_neg (by simp [visible]), core_eq]
  simp

theorem trim_eq (h : text.Frames leading core trailing) : text.trim = core := by
  have tail : (core ++ trailing).Frames [] core trailing :=
    ⟨rfl, by simp, h.trailing, h.first, h.last⟩
  rw [trim, h.trimStart_eq, tail.trimEnd_eq, List.nil_append]

end Frames

theorem exists_frames {text : Text} (visible : text.trim ≠ []) :
    ∃ leading core trailing, text.Frames leading core trailing := by
  let rest := text.dropWhile isBlank
  let trailing := (rest.reverse.takeWhile isBlank).reverse
  have rest_eq : rest = text.trim ++ trailing := by
    have split := List.takeWhile_append_dropWhile (p := isBlank) (l := rest.reverse)
    have reversed := congrArg List.reverse split
    rw [List.reverse_append, List.reverse_reverse] at reversed
    exact reversed.symm
  refine ⟨text.takeWhile isBlank, text.trim, trailing, ?_, ?_, ?_, ?_, ?_⟩
  · rw [List.append_assoc, ← rest_eq]
    exact List.takeWhile_append_dropWhile.symm
  · exact List.all_eq_true.mp List.all_takeWhile
  · intro c member
    exact List.all_eq_true.mp List.all_takeWhile c (List.mem_reverse.mp member)
  · obtain ⟨c, more, core_eq⟩ := List.exists_cons_of_ne_nil visible
    refine ⟨c, more, core_eq, ?_⟩
    have ends := List.head?_dropWhile_not isBlank text
    rw [show text.dropWhile isBlank = text.trim ++ trailing from rest_eq, core_eq] at ends
    exact ends
  · have ends := List.head?_dropWhile_not isBlank rest.reverse
    cases kept : rest.reverse.dropWhile isBlank with
    | nil => exact absurd (congrArg List.reverse kept) visible
    | cons c more =>
      rw [kept] at ends
      exact ⟨more.reverse, c, (congrArg List.reverse kept).trans List.reverse_cons, ends⟩

end Text

namespace Fragment

open Node

variable {t : Template} {roots : List Occurrence} {source core : Text}
variable {start stop position first last : Nat}

/-- The content of a range of a source, which stands at a position: what is left of the text
of the range without the blanks at its ends. A range may reach behind the end of the source. -/
structure Selects (source : Text) (start stop position : Nat) (core : Text) : Prop where
  framed : ∃ selected leading trailing : Text,
    source.slice? start (min stop source.byteLength) = some selected ∧
      selected.Frames leading core trailing ∧ position = start + leading.byteLength

theorem select_eq_selectContent (h : Selects t.source start stop position core) :
    select t start stop = selectContent t position (position + core.byteLength - 1) := by
  obtain ⟨selected, leading, trailing, found, frames, rfl⟩ := h.framed
  have visible : selected.trim ≠ [] := frames.trim_eq ▸ frames.core_ne_nil
  have length_eq : min stop t.source.byteLength = start + selected.byteLength := by
    obtain ⟨_, _, -, start_eq, stop_eq⟩ := Text.slice?_eq_some_iff.mp found
    omega
  have nonempty : selected.byteLength ≠ 0 := by
    have positive := Text.byteLength_pos frames.core_ne_nil
    rw [frames.text_eq, Text.byteLength_append, Text.byteLength_append]
    omega
  obtain ⟨first_eq, last_eq⟩ := contentEnds_eq length_eq visible
  have isContent : selected.trim.isEmpty = false := by simpa using visible
  unfold select
  dsimp only
  rw [if_neg (by simp; omega), if_neg (by omega), found]
  dsimp only
  rw [isContent, if_neg Bool.false_ne_true]
  congr 1
  · rw [frames.trimStart_eq, Text.byteLength_append] at first_eq
    rw [frames.text_eq, Text.byteLength_append, Text.byteLength_append] at length_eq
    omega
  · rw [frames.trimEnd_eq, Text.byteLength_append] at last_eq
    omega

theorem exists_selects (selected : select t start stop = .ok roots) :
    ∃ position core, Selects t.source start stop position core := by
  obtain ⟨text, found, visible, -⟩ := of_select selected
  obtain ⟨leading, core, trailing, frames⟩ := Text.exists_frames visible
  exact ⟨_, core, text, leading, trailing, found, frames, rfl⟩

theorem climbWhile_suffix (accept : Node → Bool) (address : Address) :
    climbWhile t accept address <:+ address := by
  induction address with
  | nil => exact List.suffix_rfl
  | cons position parent ih =>
    rw [climbWhile]
    split
    · split
      · exact ih.trans (List.suffix_cons position parent)
      · exact List.suffix_rfl
    · exact List.suffix_rfl

/-- Climbing leads to a node that contains what the node below contains. -/
theorem exists_contains_climbWhile (mirrors : t.Mirrors) (accept : Node → Bool) {o : Occurrence}
    {offset : Nat} (held : t.Contains o) (inside : o.span.contains offset = true) :
    ∃ node, t.node? (climbWhile t accept o.address) = some node ∧
      node.span.contains offset = true := by
  obtain ⟨node, node_eq, -⟩ := exists_node?_climbWhile accept held
  obtain ⟨path, path_eq⟩ := climbWhile_suffix (t := t) accept o.address
  let reached : Occurrence := ⟨climbWhile t accept o.address, node⟩
  have reached_held : t.Contains reached := node_eq
  have relation : o = reached ∨ o.Below reached :=
    (Occurrence.eq_or_below_of_address path_eq.symm).imp_left (held.ext reached_held)
  obtain ⟨start_le, le_stop⟩ := mirrors.covers reached_held held relation
  refine ⟨node, node_eq, ?_⟩
  simp only [Span.contains, Bool.and_eq_true, decide_eq_true_eq] at inside ⊢
  exact ⟨Nat.le_trans start_le inside.1, Nat.lt_of_lt_of_le inside.2 le_stop⟩

theorem getLast?_of_siblingRun? {address address' : Address} {node : Node}
    (held : t.node? address' = some node)
    (found : siblingRun? t address address' = some roots) :
    roots.getLast? = some ⟨address', node⟩ := by
  unfold siblingRun? at found
  split at found
  · next i above j above' =>
    split at found
    · next aligned =>
      obtain ⟨parent, parent_eq, rfl⟩ := Option.map_eq_some_iff.mp found
      obtain ⟨parent_held, rfl⟩ := Template.occurrence?_eq_some_iff.mp parent_eq
      rw [← aligned.1, Template.node?_cons, parent_held, Option.bind_some] at held
      have last : parent.children[j]? = some ⟨j :: parent.address, node⟩ := by
        rw [Occurrence.getElem?_children, held]
        rfl
      obtain ⟨inside, -⟩ := List.getElem?_eq_some_iff.mp last
      rw [List.take_add_one, last, List.drop_append_of_le_length, ← aligned.1]
      · exact List.getLast?_concat
      · rw [List.length_take]
        omega
    · cases found
  · cases found

theorem contains_ends_of_selectContent (mirrors : t.Mirrors)
    (selected : selectContent t first last = .ok roots) :
    (∀ root ∈ roots.head?, root.span.contains first = true) ∧
      ∀ root ∈ roots.getLast?, root.span.contains last = true := by
  obtain ⟨o, p, first_eq, last_eq, run_eq⟩ := of_selectContent selected
  obtain ⟨o_held, -, o_contains⟩ := contains_of_innermostAt t.contains_top (by simp) first_eq
  obtain ⟨p_held, -, p_contains⟩ := contains_of_innermostAt t.contains_top (by simp) last_eq
  obtain ⟨node, node_eq, inside⟩ := exists_contains_climbWhile mirrors
    (fun node => node.kind.isMarkup && node.span.start == o.span.start) o_held o_contains
  obtain ⟨node', node_eq', inside'⟩ := exists_contains_climbWhile mirrors
    (fun node => node.kind.isMarkup && node.span.stop == p.span.stop) p_held p_contains
  obtain ⟨-, -, -, head⟩ := of_siblingRun? node_eq run_eq
  have ending := getLast?_of_siblingRun? node_eq' run_eq
  constructor
  · intro root member
    cases head.symm.trans member
    exact inside
  · intro root member
    cases ending.symm.trans member
    exact inside'

/-- What a selection denotes: some siblings that are markup and cover the content of the
range from its first to its last byte, whatever blanks stand around the content. -/
structure Denotes (t : Template) (start stop : Nat) (roots : List Occurrence) : Prop where
  nonempty : roots ≠ []
  run : IsRun t roots
  covers : ∃ position core, Selects t.source start stop position core ∧
    (∀ root ∈ roots.head?, root.span.contains position = true) ∧
    (∀ root ∈ roots.getLast?, root.span.contains (position + core.byteLength - 1) = true) ∧
    ∀ start' stop', Selects t.source start' stop' position core →
      select t start' stop' = .ok roots

theorem denotes_of_select (source url : Text)
    (selected : select (Markup.parse source url).template start stop = .ok roots) :
    Denotes (Markup.parse source url).template start stop roots := by
  obtain ⟨run, nonempty⟩ := isRun_of_select (Markup.sound_parse source url) selected
  obtain ⟨position, core, content⟩ := exists_selects selected
  have selected' := (select_eq_selectContent content).symm.trans selected
  obtain ⟨head, ending⟩ :=
    contains_ends_of_selectContent (Markup.mirrors_parse source url) selected'
  refine ⟨nonempty, run, position, core, content, head, ending, fun start' stop' other => ?_⟩
  exact (select_eq_selectContent other).trans selected'

/-- Two elements that are selected with the blanks around them. -/
theorem denotes_elements : ∃ roots, roots.map Occurrence.span = [⟨5, 15⟩, ⟨15, 25⟩] ∧
    Denotes (Markup.parse "<ul> <li>a</li><li>b</li> </ul>".toList []).template 4 26 roots := by
  have passed : (select (Markup.parse "<ul> <li>a</li><li>b</li> </ul>".toList []).template
      4 26).toOption.map (List.map Occurrence.span) = some [⟨5, 15⟩, ⟨15, 25⟩] := by
    decide +kernel
  obtain ⟨roots, found, spans_eq⟩ := Option.map_eq_some_iff.mp passed
  refine ⟨roots, spans_eq, denotes_of_select _ _ ?_⟩
  cases result : select (Markup.parse "<ul> <li>a</li><li>b</li> </ul>".toList []).template 4 26 with
  | ok other =>
    rw [result] at found
    cases found
    rfl
  | error failure =>
    rw [result] at found
    cases found

end Fragment

end ComponentExtraction
