import ComponentExtraction.Proofs.Fragment.Content
import ComponentExtraction.Proofs.Markup.Opening

/-!
# Selecting a whole element

An element that an end tag of its own closes (`ClosedByTag`) is selected from the mark of
its start tag to the mark of its end tag. At both marks it is the innermost markup. Its
start is not widened, as an element starts in front of what it holds. Its end is widened
where the element around it was closed without an end tag at the same place, and then the
two ends are no siblings and the selection is refused (`select_closedByTag`).
-/

namespace ComponentExtraction

theorem Kind.eq_element_of_isMarkup {kind : Kind} (markup : kind.isMarkup = true)
    (outer : kind.layer = 0) : ∃ name, kind = .element name := by
  cases kind with
  | element name => exact ⟨name, rfl⟩
  | _ => simp [layer, isMarkup] at outer markup

namespace Fragment

open Diagnostic Markup Node

variable {source url : Text} {t : Template} {o p : Occurrence} {offset : Nat}

/-- An end tag with its name is the last piece of an element, behind all that it holds. -/
def ClosedByTag (t : Template) (o : Occurrence) : Prop :=
  ∃ name tag written, o.kind = .element name ∧ (tag, written) ∈ endTags t.source ∧
    Text.sameIgnoringCase name written = true ∧ tag.stop = o.span.stop ∧
    ∀ child ∈ o.node.children, child.span.stop ≤ tag.start

/-- The markup directly around a node ends where the node does. -/
def EndsWithParent (t : Template) (o : Occurrence) : Prop :=
  ∃ p, t.parent? o = some p ∧ p.kind.isMarkup = true ∧ p.span.stop = o.span.stop

theorem climbWhile_of_refused {accept : Node → Bool} (held : t.Contains o)
    (refused : ∀ p, t.parent? o = some p → accept p.node = false) :
    climbWhile t accept o.address = o.address := by
  cases address_eq : o.address with
  | nil => rfl
  | cons position parent =>
    obtain ⟨above, above_held, rfl, -⟩ := held.exists_parent address_eq
    rw [climbWhile, show t.node? above.address = some above.node from above_held]
    dsimp only
    rw [refused above (above_held.parent?_eq address_eq), if_neg Bool.false_ne_true]

/-- Where the node above is accepted, climbing leads there or further. -/
theorem climbWhile_of_accepted {accept : Node → Bool} {position : Nat} (held : t.Contains p)
    (accepted : accept p.node = true) :
    climbWhile t accept (position :: p.address) <:+ p.address := by
  rw [climbWhile, show t.node? p.address = some p.node from held]
  dsimp only
  rw [if_pos accepted]
  exact climbWhile_suffix accept p.address

theorem siblingRun?_self (held : t.Contains o) (other : o.address ≠ []) :
    siblingRun? t o.address o.address = some [o] := by
  obtain ⟨position, parent, address_eq⟩ := List.exists_cons_of_ne_nil other
  obtain ⟨above, above_held, rfl, child⟩ := held.exists_parent address_eq
  have member : above.children[position]? = some o := by
    rw [Occurrence.getElem?_children, child, Option.map_some, ← address_eq]
  obtain ⟨inside, -⟩ := List.getElem?_eq_some_iff.mp member
  have front : (above.children.take position).length = position :=
    List.length_take_of_le (Nat.le_of_lt inside)
  rw [address_eq, siblingRun?, if_pos ⟨rfl, Nat.le_refl _⟩, above_held.occurrence?_eq,
    Option.map_some, List.take_add_one, member,
    List.drop_append_of_le_length (Nat.le_of_eq front.symm)]
  rw [List.drop_eq_nil_of_le (Nat.le_of_eq front)]
  rfl

theorem siblingRun?_outer {position : Nat} {parent address : Address}
    (outer : address <:+ parent) : siblingRun? t (position :: parent) address = none := by
  cases address with
  | nil => rfl
  | cons j above =>
    rw [siblingRun?, if_neg]
    rintro ⟨rfl, -⟩
    exact absurd outer.length_le (by simp)

theorem frames_of_marks {core : Text} {start stop : Nat}
    (found : source.slice? start stop = some core) (nonempty : start < stop)
    (opens : Text.StandsAt ['<'] start source)
    (closes : ∃ front back : Text, source = front ++ '>' :: back ∧
      stop = front.byteLength + 1) : core.Frames [] core [] := by
  obtain ⟨before, after, source_eq, start_eq, stop_eq⟩ := Text.slice?_eq_some_iff.mp found
  have core_ne : core ≠ [] := by
    rintro rfl
    rw [Text.byteLength_nil] at stop_eq
    omega
  refine ⟨by simp, by simp, by simp, ?_, ?_⟩
  · obtain ⟨front, back, front_eq, offset_eq⟩ := opens
    rw [source_eq, List.append_assoc, List.append_assoc] at front_eq
    obtain ⟨-, rest_eq⟩ := Text.append_inj_of_byteLength front_eq (start_eq.symm.trans offset_eq)
    obtain ⟨c, more, rfl⟩ := List.exists_cons_of_ne_nil core_ne
    cases rest_eq
    exact ⟨'<', more, rfl, by decide⟩
  · obtain ⟨front, back, front_eq, offset_eq⟩ := closes
    have split : before ++ core ++ after = front ++ ['>'] ++ back := by
      rw [← source_eq, front_eq, List.append_assoc]
      rfl
    have length_eq : (before ++ core).byteLength = (front ++ ['>']).byteLength := by
      rw [Text.byteLength_append, Text.byteLength_append, ← stop_eq, offset_eq]
      rfl
    obtain ⟨same, -⟩ := Text.append_inj_of_byteLength split length_eq
    obtain ⟨more, c, rfl⟩ := (List.eq_nil_or_concat core).resolve_left core_ne
    have last := congrArg List.getLast? same
    rw [List.concat_eq_append, ← List.append_assoc, List.getLast?_concat,
      List.getLast?_concat] at last
    cases last
    exact ⟨more, '>', List.concat_eq_append, by decide⟩

theorem address_ne_nil_of_isMarkup (held : (parse source url).template.Contains o)
    (markup : o.kind.isMarkup = true) : o.address ≠ [] := by
  intro root
  cases held.ext (Template.contains_top _) root
  cases markup

theorem solid_of_isMarkup (held : (parse source url).template.Contains o)
    (markup : o.kind.isMarkup = true) : o.span.start < o.span.stop := by
  obtain ⟨position, parent, address_eq⟩ :=
    List.exists_cons_of_ne_nil (address_ne_nil_of_isMarkup held markup)
  obtain ⟨above, above_held, rfl, child⟩ := held.exists_parent address_eq
  have packed := packed_of_child (sound_parse source url) above_held
    (Occurrence.mem_children_iff.mpr ⟨position, child, address_eq⟩)
    (Kind.layer_le_of_isMarkup markup)
  exact packed.solid o.node (List.mem_of_getElem? child)

theorem start_lt_of_below (ho : (parse source url).template.Contains o)
    (hp : (parse source url).template.Contains p) (markup : o.kind.isMarkup = true)
    (markup' : p.kind.isMarkup = true) (below : p.Below o) : o.span.start < p.span.start := by
  have mirrors := mirrors_parse source url
  have outermost : ∀ q, (parse source url).template.Contains q → p.Below q → q.kind.layer = 0 := by
    intro q hq lower
    by_contra inner
    have deeper := mirrors.layer_of_below hq hp lower (Nat.pos_of_ne_zero inner)
    have := Kind.layer_le_of_isMarkup markup'
    omega
  obtain ⟨c, child, hc, relation⟩ := below.exists_child hp ho
  obtain ⟨i, child_eq, address_eq⟩ := Occurrence.mem_children_iff.mp child
  have covered := mirrors.covers hc hp relation
  have inner : c.kind.isMarkup = true := by
    rcases relation with rfl | lower
    · exact markup'
    · refine (markup_of_layer_parse source url hc (outermost c hc lower)).resolve_right ?_
      rw [address_eq]
      exact List.cons_ne_nil _ _
  obtain ⟨name, element⟩ := Kind.eq_element_of_isMarkup markup (outermost o ho below)
  have tagged := ((tagged_parse source url).of_contains ho).here name element
  exact Nat.lt_of_lt_of_le (tagged.2 c.node (List.mem_of_getElem? child_eq) inner) covered.1

/-- Markup is the innermost markup at a byte that no markup inside it contains. -/
theorem isInnermostAt_of_outside (held : (parse source url).template.Contains o)
    (markup : o.kind.isMarkup = true) (inside : o.span.contains offset = true)
    (outside : ∀ p, (parse source url).template.Contains p → p.kind.isMarkup = true →
      p.Below o → p.span.contains offset = false) :
    (parse source url).template.IsInnermostAt offset Kind.isMarkup o := by
  refine ⟨held, address_ne_nil_of_isMarkup held markup, markup, inside, ?_⟩
  intro p hp markup' inside'
  rcases (mirrors_parse source url).nested hp held inside' inside with same | lower | higher
  · exact .inl same
  · exact absurd inside' (by simp [outside p hp markup' lower])
  · exact .inr ((Template.isAncestorOf_iff hp).mpr higher)

namespace ClosedByTag

theorem isMarkup (closed : ClosedByTag t o) : o.kind.isMarkup = true := by
  obtain ⟨name, _, _, kind_eq, -⟩ := closed
  rw [kind_eq]
  rfl

theorem ends (clean : (parse source url).hasErrors = false)
    (closed : ClosedByTag (parse source url).template o) :
    (∃ front back : Text, source = front ++ '>' :: back ∧
        o.span.stop = front.byteLength + 1) ∧
      ∀ child ∈ o.node.children, child.span.stop < o.span.stop := by
  obtain ⟨_, tag, _, -, listed, -, stop_eq, inner⟩ := closed
  obtain ⟨ordered, mark⟩ := mark_of_endTag clean listed
  rw [← stop_eq]
  exact ⟨mark, fun child member => Nat.lt_of_le_of_lt (inner child member) ordered⟩

theorem selects (clean : (parse source url).hasErrors = false)
    (held : (parse source url).template.Contains o)
    (closed : ClosedByTag (parse source url).template o) :
    ∃ core, Selects source o.span.start o.span.stop o.span.start core ∧
      o.span.start + core.byteLength = o.span.stop := by
  have regular := ((mirrors_parse source url).of_contains held).here
  have solid := solid_of_isMarkup held closed.isMarkup
  have mark := (closed.ends clean).1
  obtain ⟨name, _, _, kind_eq, -⟩ := closed
  have opens := (((tagged_parse source url).of_contains held).here name kind_eq).1
  obtain ⟨core, found⟩ := regular.start.exists_slice? regular.stop regular.ordered
  have found : source.slice? o.span.start o.span.stop = some core := found
  refine ⟨core, ⟨core, [], [], ?_, frames_of_marks found solid opens mark, rfl⟩, ?_⟩
  · rw [Nat.min_eq_left (show o.span.stop ≤ source.byteLength from regular.stop.le)]
    exact found
  · obtain ⟨_, _, -, start_eq, stop_eq⟩ := Text.slice?_eq_some_iff.mp found
    rw [start_eq, stop_eq]

theorem innermost_first (held : (parse source url).template.Contains o)
    (closed : ClosedByTag (parse source url).template o) :
    (parse source url).template.IsInnermostAt o.span.start Kind.isMarkup o := by
  have solid := solid_of_isMarkup held closed.isMarkup
  refine isInnermostAt_of_outside held closed.isMarkup (by simp [Span.contains, solid]) ?_
  intro p hp markup below
  have later := start_lt_of_below held hp closed.isMarkup markup below
  simp [Span.contains, later]

theorem innermost_last (clean : (parse source url).hasErrors = false)
    (held : (parse source url).template.Contains o)
    (closed : ClosedByTag (parse source url).template o) :
    (parse source url).template.IsInnermostAt (o.span.stop - 1) Kind.isMarkup o := by
  have solid := solid_of_isMarkup held closed.isMarkup
  have inside : o.span.contains (o.span.stop - 1) = true := by
    simp only [Span.contains, Bool.and_eq_true, decide_eq_true_eq]
    omega
  refine isInnermostAt_of_outside held closed.isMarkup inside fun p hp _ below => ?_
  obtain ⟨c, child, hc, relation⟩ := below.exists_child hp held
  obtain ⟨i, child_eq, -⟩ := Occurrence.mem_children_iff.mp child
  have covered := (mirrors_parse source url).covers hc hp relation
  have ends := (closed.ends clean).2 c.node (List.mem_of_getElem? child_eq)
  have ends : c.span.stop < o.span.stop := ends
  simp only [Span.contains, Bool.and_eq_false_iff, decide_eq_false_iff_not]
  omega

theorem widenStart_eq (held : (parse source url).template.Contains o)
    (closed : ClosedByTag (parse source url).template o) :
    widenStart (parse source url).template o = o.address := by
  refine climbWhile_of_refused held fun p parent_eq => ?_
  obtain ⟨hp, position, address_eq, -⟩ := held.of_parent? parent_eq
  refine Bool.and_eq_false_iff.mpr ?_
  by_cases markup : p.kind.isMarkup = true
  · have later := start_lt_of_below hp held markup closed.isMarkup (.of_child address_eq)
    exact .inr (beq_eq_false_iff_ne.mpr (Nat.ne_of_lt later))
  · exact .inl (Bool.eq_false_iff.mpr markup)

/-- What is selected are the siblings from the element to where its end is widened to. -/
theorem select_eq (clean : (parse source url).hasErrors = false)
    (held : (parse source url).template.Contains o)
    (closed : ClosedByTag (parse source url).template o) :
    select (parse source url).template o.span.start o.span.stop =
      (siblingRun? (parse source url).template o.address
        (widenStop (parse source url).template o)).elim (.error .invalidPosition) .ok := by
  obtain ⟨core, selects, length_eq⟩ := closed.selects clean held
  have mirrors := mirrors_parse source url
  have solid := solid_of_isMarkup held closed.isMarkup
  rw [select_eq_selectContent selects, length_eq, selectContent,
    mirrors.innermostAt_eq_some_iff.mpr (closed.innermost_first held),
    mirrors.innermostAt_eq_some_iff.mpr (closed.innermost_last clean held)]
  dsimp only
  rw [closed.widenStart_eq held, if_neg (by omega)]
  split
  · next run found => rw [found, Option.elim_some]
  · next found => rw [found, Option.elim_none]

end ClosedByTag

/-- An element that an end tag of its own closes is selected from mark to mark, unless the
markup around it was closed without an end tag at the same place: then nothing is. -/
theorem select_closedByTag (clean : (parse source url).hasErrors = false)
    (held : (parse source url).template.Contains o)
    (closed : ClosedByTag (parse source url).template o) :
    (select (parse source url).template o.span.start o.span.stop = .ok [o] ↔
      ¬ EndsWithParent (parse source url).template o) ∧
    (EndsWithParent (parse source url).template o →
      select (parse source url).template o.span.start o.span.stop = .error .invalidPosition) := by
  have selected := closed.select_eq clean held
  by_cases ends : EndsWithParent (parse source url).template o
  · -- The end is widened to what lies around the element.
    obtain ⟨p, parent_eq, markup, stop_eq⟩ := id ends
    obtain ⟨hp, position, address_eq, -⟩ := held.of_parent? parent_eq
    have outer : widenStop (parse source url).template o <:+ p.address := by
      rw [widenStop, address_eq]
      exact climbWhile_of_accepted hp (Bool.and_eq_true_iff.mpr ⟨markup, beq_iff_eq.mpr stop_eq⟩)
    rw [address_eq, siblingRun?_outer outer] at selected
    refine ⟨?_, fun _ => selected⟩
    rw [selected]
    exact ⟨nofun, fun alone => absurd ends alone⟩
  · have stays : widenStop (parse source url).template o = o.address := by
      refine climbWhile_of_refused held fun p parent_eq => ?_
      refine Bool.and_eq_false_iff.mpr (or_iff_not_imp_left.mpr fun markup => ?_)
      refine beq_eq_false_iff_ne.mpr fun stop_eq => ends ⟨p, parent_eq, ?_, stop_eq⟩
      exact Bool.not_eq_false _ |>.mp markup
    rw [stays, siblingRun?_self held (address_ne_nil_of_isMarkup held closed.isMarkup)] at selected
    exact ⟨⟨fun _ => ends, fun _ => selected⟩, fun ends' => absurd ends' ends⟩

theorem exists_closedByTag (address : Address) (name written : Text) (span tag : Span)
    (inner : List Span)
    (found : (t.occurrence? address).map (fun o =>
      (o.kind, o.span, o.node.children.map Node.span)) = some (.element name, span, inner))
    (listed : (tag, written) ∈ endTags t.source)
    (same : Text.sameIgnoringCase name written = true) (stop_eq : tag.stop = span.stop)
    (behind : ∀ child ∈ inner, child.stop ≤ tag.start) :
    ∃ o, t.Contains o ∧ o.address = address ∧ o.span = span ∧ ClosedByTag t o := by
  obtain ⟨o, occurrence_eq, facts⟩ := Option.map_eq_some_iff.mp found
  obtain ⟨held, address_eq⟩ := Template.occurrence?_eq_some_iff.mp occurrence_eq
  obtain ⟨kind_eq, span_eq, inner_eq⟩ := by simpa only [Prod.mk.injEq] using facts
  refine ⟨o, held, address_eq, span_eq, name, tag, written, kind_eq, listed, same, ?_, ?_⟩
  · rw [stop_eq, span_eq]
  · intro child member
    rw [← inner_eq] at behind
    exact behind child.span (List.mem_map_of_mem member)

/-- The first item of a list that ends with the list. -/
theorem select_closedByTag_item : ∃ o,
    (parse "<ul><li>a</li> <li>b</ul>".toList []).template.Contains o ∧
    ClosedByTag (parse "<ul><li>a</li> <li>b</ul>".toList []).template o ∧
    select (parse "<ul><li>a</li> <li>b</ul>".toList []).template 4 14 = .ok [o] := by
  obtain ⟨o, held, address_eq, span_eq, closed⟩ :=
    exists_closedByTag (t := (parse "<ul><li>a</li> <li>b</ul>".toList []).template) [0, 0]
      "li".toList "li".toList ⟨4, 14⟩ ⟨9, 14⟩ [⟨8, 9⟩] (by decide +kernel) (by decide +kernel)
      (by decide) rfl (by decide)
  refine ⟨o, held, closed, ?_⟩
  have inside : ¬ EndsWithParent (parse "<ul><li>a</li> <li>b</ul>".toList []).template o := by
    rintro ⟨p, parent_eq, -, stop_eq⟩
    obtain ⟨hp, position, above, -⟩ := held.of_parent? parent_eq
    have outer : ((parse "<ul><li>a</li> <li>b</ul>".toList []).template.occurrence? [0]).map
        Occurrence.span = some ⟨0, 25⟩ := by decide +kernel
    rw [address_eq] at above
    rw [(List.cons.inj above).2, hp.occurrence?_eq] at outer
    rw [span_eq, Option.some.inj outer] at stop_eq
    exact absurd stop_eq (by decide)
  have selected := (select_closedByTag (by decide +kernel) held closed).1.mpr inside
  rwa [span_eq] at selected

/-- An element that ends with an item that the end tag of the list closes is not selected. -/
theorem not_select_closedByTag_last : ∃ o,
    '\x00' ∉ "<ul><li><b></b></ul>".toList ∧
    (parse "<ul><li><b></b></ul>".toList []).hasErrors = false ∧
    (parse "<ul><li><b></b></ul>".toList []).template.Contains o ∧
    ClosedByTag (parse "<ul><li><b></b></ul>".toList []).template o ∧
    select (parse "<ul><li><b></b></ul>".toList []).template o.span.start o.span.stop ≠
      .ok [o] := by
  obtain ⟨o, held, -, span_eq, closed⟩ :=
    exists_closedByTag (t := (parse "<ul><li><b></b></ul>".toList []).template) [0, 0, 0]
      "b".toList "b".toList ⟨8, 15⟩ ⟨11, 15⟩ [] (by decide +kernel) (by decide +kernel)
      (by decide) rfl (by decide)
  refine ⟨o, by decide, by decide +kernel, held, closed, fun selected => ?_⟩
  have refused : (select (parse "<ul><li><b></b></ul>".toList []).template 8 15).toOption.map
      List.length = none := by decide +kernel
  rw [span_eq] at selected
  rw [selected] at refused
  cases refused

end Fragment

end ComponentExtraction
