import ComponentExtraction.Extraction.Selection
import ComponentExtraction.Proofs.Source.Diagnostic
import Mathlib.Data.List.Induction

/-!
# Lines of a source

Lines are counted in two ways: a selection looks them up in a table of byte offsets, from one
on, and a location counts them, from zero on, together with the characters of the last one.
Both are computed from a source that is cut at its line breaks (`WholeLines`): the number of
breaks in front of the cut is the number of the line. `lines_agree` says what lines are
selected, and that a position lies in the line which its location names.
-/

namespace ComponentExtraction

namespace Text

/-- A text of whole lines, each of them with its break. -/
def EndsLine (text : Text) : Prop :=
  text = [] ∨ ∃ earlier, text = earlier ++ ['\n']

/-- What stands behind a line: its break and more, or nothing. -/
def FollowsLine (text : Text) : Prop :=
  text = [] ∨ ∃ later, text = '\n' :: later

/-- The lines of a text are one more than its breaks. -/
theorem length_splitOn_newline (text : Text) :
    (text.splitOn '\n').length = text.count '\n' + 1 := by
  induction text with
  | nil => rfl
  | cons c text ih =>
    rw [List.splitOn_cons_eq_if_modifyHead, List.count_cons]
    split
    · rw [List.length_cons, ih]
    · rw [List.length_modifyHead, ih]

theorem exists_followsLine {text : Text} {line : Nat} (within : line ≤ text.count '\n') :
    ∃ front back, text = front ++ back ∧ front.count '\n' = line ∧ FollowsLine back := by
  induction text generalizing line with
  | nil => exact ⟨[], [], rfl, (Nat.le_zero.mp within).symm, .inl rfl⟩
  | cons c text ih =>
    by_cases ends : c = '\n'
    · subst ends
      cases line with
      | zero => exact ⟨[], _, rfl, rfl, .inr ⟨text, rfl⟩⟩
      | succ line =>
        rw [List.count_cons_self] at within
        obtain ⟨front, back, rfl, count_eq, follows⟩ := ih (Nat.le_of_succ_le_succ within)
        exact ⟨'\n' :: front, back, rfl, by rw [List.count_cons_self, count_eq], follows⟩
    · rw [List.count_cons_of_ne ends] at within
      obtain ⟨front, back, rfl, count_eq, follows⟩ := ih within
      exact ⟨c :: front, back, rfl, by rw [List.count_cons_of_ne ends, count_eq], follows⟩

theorem exists_endsLine {text : Text} {line : Nat} (within : line ≤ text.count '\n') :
    ∃ front back, text = front ++ back ∧ front.count '\n' = line ∧ EndsLine front := by
  cases line with
  | zero => exact ⟨[], text, rfl, rfl, .inl rfl⟩
  | succ line =>
    obtain ⟨front, back, rfl, count_eq, rfl | ⟨later, rfl⟩⟩ :=
      exists_followsLine (Nat.le_of_succ_le within)
    · rw [List.append_nil, count_eq] at within
      exact absurd within (Nat.not_succ_le_self line)
    · exact ⟨front ++ ['\n'], later, by simp, by simp [count_eq], .inr ⟨front, rfl⟩⟩

theorem exists_lastLine (text : Text) :
    ∃ front last, text = front ++ last ∧ EndsLine front ∧ '\n' ∉ last := by
  induction text using List.reverseRecOn with
  | nil => exact ⟨[], [], rfl, .inl rfl, List.not_mem_nil⟩
  | append_singleton text c ih =>
    by_cases ends : c = '\n'
    · exact ⟨text ++ [c], [], by simp, .inr ⟨text, by rw [ends]⟩, List.not_mem_nil⟩
    · obtain ⟨front, last, rfl, endsLine, unbroken⟩ := ih
      exact ⟨front, last ++ [c], List.append_assoc _ _ _, endsLine,
        by simp [unbroken, Ne.symm ends]⟩

theorem exists_firstLine (text : Text) :
    ∃ first back, text = first ++ back ∧ '\n' ∉ first ∧ FollowsLine back := by
  by_cases broken : '\n' ∈ text
  · obtain ⟨first, later, rfl, unbroken⟩ := List.eq_append_cons_of_mem broken
    exact ⟨first, '\n' :: later, rfl, unbroken, .inr ⟨later, rfl⟩⟩
  · exact ⟨text, [], (List.append_nil text).symm, broken, .inl rfl⟩

end Text

namespace Location

/-- The line of the end of a text is the number of its breaks. -/
theorem fst_foldl_advance (text : Text) (l : Nat × Nat) :
    (text.foldl advance l).1 = l.1 + text.count '\n' := by
  induction text generalizing l with
  | nil => rfl
  | cons c text ih =>
    rw [List.foldl_cons, ih, advance]
    split
    · next ends =>
      subst ends
      rw [List.count_cons_self]
      omega
    · next other => rw [List.count_cons_of_ne other]

theorem foldl_advance_of_notMem {text : Text} (unbroken : '\n' ∉ text) (l : Nat × Nat) :
    text.foldl advance l = (l.1, l.2 + text.length) := by
  induction text generalizing l with
  | nil => rfl
  | cons c text ih =>
    rw [List.mem_cons, not_or] at unbroken
    rw [List.foldl_cons, advance, if_neg (Ne.symm unbroken.1), ih unbroken.2, List.length_cons,
      Nat.add_assoc, Nat.add_comm 1]

theorem endOf_of_endsLine {text : Text} (ends : text.EndsLine) :
    endOf text = (text.count '\n', 0) := by
  obtain rfl | ⟨earlier, rfl⟩ := ends
  · rfl
  · rw [endOf, List.foldl_append, List.count_append]
    have counted := fst_foldl_advance earlier (0, 0)
    rw [Nat.zero_add] at counted
    rw [← counted]
    rfl

theorem endOf_append {front last : Text} (ends : front.EndsLine) (unbroken : '\n' ∉ last) :
    endOf (front ++ last) = (front.count '\n', last.length) := by
  have front_eq := endOf_of_endsLine ends
  rw [endOf] at front_eq ⊢
  rw [List.foldl_append, front_eq, foldl_advance_of_notMem unbroken, Nat.zero_add]

/-- A position is located by the lines in front of it and by what precedes it in its own. -/
theorem ofOffset?_eq {front last : Text} (ends : front.EndsLine) (unbroken : '\n' ∉ last)
    (back : Text) : ofOffset? ((front ++ last) ++ back) (front ++ last).byteLength =
      some ⟨(front ++ last).byteLength, front.count '\n', last.length⟩ := by
  have within : (front ++ last).byteLength ≤ ((front ++ last) ++ back).byteLength := by
    rw [Text.byteLength_append (front ++ last)]
    exact Nat.le_add_right _ _
  rw [ofOffset?, Nat.min_eq_left within]
  simp only [Text.takeBytes?_byteLength, Option.map_some, endOf_append ends unbroken]

end Location

namespace Extraction

variable {source before part after : Text}

/-- A part of a source that is made of whole lines, without the break behind the last one. -/
structure WholeLines (source before part after : Text) : Prop where
  split : source = before ++ (part ++ after)
  begins : before.EndsLine
  ends : after.FollowsLine

theorem length_lineStartsFrom (offset : Nat) (text : Text) :
    (lineStartsFrom offset text).length = text.count '\n' := by
  induction text generalizing offset with
  | nil => rfl
  | cons c text ih =>
    rw [lineStartsFrom]
    split
    · next ends => rw [ends, List.count_cons_self, List.length_cons, ih]
    · next other => rw [List.count_cons_of_ne other, ih]

theorem length_lineStarts (source : Text) :
    (lineStarts source).length = 1 + source.count '\n' := by
  rw [lineStarts, List.length_cons, length_lineStartsFrom, Nat.add_comm]

theorem getElem?_lineStartsFrom (offset : Nat) (front later : Text) :
    (lineStartsFrom offset (front ++ '\n' :: later))[front.count '\n']? =
      some (offset + front.byteLength + 1) := by
  induction front generalizing offset with
  | nil =>
    rw [List.nil_append, lineStartsFrom, if_pos rfl]
    rfl
  | cons c front ih =>
    rw [List.cons_append, lineStartsFrom]
    split
    · next ends =>
      rw [ends, List.count_cons_self, List.getElem?_cons_succ, ih, Text.byteLength_cons,
        ← Nat.add_assoc]
      rfl
    · next other =>
      rw [List.count_cons_of_ne other, ih, Text.byteLength_cons, ← Nat.add_assoc]

/-- The start of a line is found under the number of the breaks in front of it. -/
theorem getElem?_lineStarts (ends : before.EndsLine) (rest : Text) :
    (lineStarts (before ++ rest))[before.count '\n']? = some before.byteLength := by
  obtain rfl | ⟨earlier, rfl⟩ := ends
  · rfl
  · rw [List.count_append, List.count_singleton_self, lineStarts, List.getElem?_cons_succ,
      List.append_assoc, List.singleton_append, getElem?_lineStartsFrom, Text.byteLength_append,
      Nat.zero_add]
    rfl

namespace WholeLines

theorem toOffsets_eq (h : WholeLines source before part after) :
    (Selection.lines (before.count '\n' + 1) ((before ++ part).count '\n' + 1)).toOffsets source =
      .ok (before.byteLength, (before ++ part).byteLength) := by
  obtain ⟨rfl, begins, ends⟩ := h
  have start_eq := getElem?_lineStarts begins (part ++ after)
  have inside : (before ++ part).count '\n' ≤ (before ++ (part ++ after)).count '\n' :=
    (List.Sublist.append_left (List.sublist_append_left part after) before).count_le '\n'
  have length_eq := length_lineStarts (before ++ (part ++ after))
  simp only [Selection.toOffsets]
  rw [if_neg (by simp), if_neg (by omega), Nat.add_sub_cancel, List.getD_eq_getElem?_getD,
    start_eq, Option.getD_some, ← List.append_assoc]
  obtain rfl | ⟨later, rfl⟩ := ends
  · have past : (lineStarts (before ++ part ++ []))[(before ++ part).count '\n' + 1]? = none := by
      rw [List.getElem?_eq_none_iff, length_lineStarts, List.append_nil]
      omega
    rw [past, List.append_nil]
  · have next : (lineStarts (before ++ part ++ '\n' :: later))[(before ++ part).count '\n' + 1]? =
        some ((before ++ part).byteLength + 1) := by
      rw [lineStarts, List.getElem?_cons_succ, getElem?_lineStartsFrom, Nat.zero_add]
    rw [next]
    rfl

theorem lines_eq (h : WholeLines source before part after) :
    ((source.splitOn '\n').take ((before ++ part).count '\n' + 1)).drop (before.count '\n') =
      part.splitOn '\n' := by
  obtain ⟨rfl, begins, ends⟩ := h
  have taken : ∀ text : Text, ((text ++ after).splitOn '\n').take (text.count '\n' + 1) =
      text.splitOn '\n' := by
    intro text
    rw [← Text.length_splitOn_newline]
    obtain rfl | ⟨later, rfl⟩ := ends
    · rw [List.append_nil, List.take_length]
    · rw [List.splitOn_append_cons_self, List.take_left]
  rw [← List.append_assoc, taken]
  obtain rfl | ⟨earlier, rfl⟩ := begins
  · rfl
  · rw [List.append_assoc, List.singleton_append, List.splitOn_append_cons_self, List.count_append,
      List.count_singleton_self, ← Text.length_splitOn_newline, List.drop_left]

theorem slice?_eq (h : WholeLines source before part after) :
    source.slice? before.byteLength (before ++ part).byteLength = some part := by
  obtain ⟨rfl, -, -⟩ := h
  exact Text.slice?_eq_some_iff.mpr
    ⟨before, after, (List.append_assoc _ _ _).symm, rfl, Text.byteLength_append _ _⟩

end WholeLines

/-- Some lines of a source are a part of it, if the source has as many. -/
theorem exists_wholeLines {first last : Nat} (ordered : first ≤ last)
    (within : last ≤ source.count '\n') : ∃ before part after,
      WholeLines source before part after ∧ before.count '\n' = first ∧
        (before ++ part).count '\n' = last := by
  obtain ⟨before, rest, rfl, first_eq, begins⟩ :=
    Text.exists_endsLine (Nat.le_trans ordered within)
  rw [List.count_append] at within
  obtain ⟨part, after, rfl, part_eq, ends⟩ :=
    Text.exists_followsLine (show last - first ≤ rest.count '\n' by omega)
  refine ⟨before, part, after, ⟨rfl, begins, ends⟩, first_eq, ?_⟩
  rw [List.count_append]
  omega

/-- Lines can be selected exactly if the source has them. -/
theorem exists_toOffsets_iff {first last : Nat} :
    (∃ span, (Selection.lines first last).toOffsets source = .ok span) ↔
      1 ≤ first ∧ first ≤ last ∧ last ≤ 1 + source.count '\n' := by
  have length_eq := length_lineStarts source
  simp only [Selection.toOffsets]
  split
  · next invalid =>
    simp only [Bool.or_eq_true, decide_eq_true_eq] at invalid
    simp only [reduceCtorEq, exists_false, false_iff]
    omega
  · next valid =>
    simp only [Bool.or_eq_true, decide_eq_true_eq] at valid
    split
    · next past =>
      simp only [reduceCtorEq, exists_false, false_iff]
      omega
    · next within => exact ⟨fun _ => by omega, fun _ => ⟨_, rfl⟩⟩

theorem slice?_of_toOffsets {first last start stop : Nat}
    (selected : (Selection.lines first last).toOffsets source = .ok (start, stop)) :
    source.slice? start stop =
      some (['\n'].intercalate (((source.splitOn '\n').take last).drop (first - 1))) := by
  obtain ⟨positive, ordered, within⟩ := exists_toOffsets_iff.mp ⟨_, selected⟩
  have inside : last - 1 ≤ source.count '\n' := by omega
  obtain ⟨before, part, after, whole, first_eq, last_eq⟩ :=
    exists_wholeLines (show first - 1 ≤ last - 1 by omega) inside
  have selected' := whole.toOffsets_eq
  have lines_eq := whole.lines_eq
  rw [first_eq, last_eq, Nat.sub_add_cancel positive,
    Nat.sub_add_cancel (Nat.le_trans positive ordered), selected] at selected'
  rw [first_eq, last_eq, Nat.sub_add_cancel (Nat.le_trans positive ordered)] at lines_eq
  cases selected'
  rw [lines_eq, List.intercalate_splitOn]
  exact whole.slice?_eq

/-- Lines are selected exactly if the source has them, and then the selection is these lines.
A position of the source lies in the line that its location names, and the column is the
number of characters of that line in front of it. -/
theorem lines_agree (source : Text) :
    (∀ first last, ((∃ span, (Selection.lines first last).toOffsets source = .ok span) ↔
        1 ≤ first ∧ first ≤ last ∧ last ≤ 1 + source.count '\n') ∧
      ∀ start stop, (Selection.lines first last).toOffsets source = .ok (start, stop) →
        source.slice? start stop =
          some (['\n'].intercalate (((source.splitOn '\n').take last).drop (first - 1)))) ∧
    ∀ offset, source.Boundary offset →
      ∃ location, Location.ofOffset? source offset = some location ∧
      ∃ start stop, (Selection.lines (location.line + 1) (location.line + 1)).toOffsets source =
          .ok (start, stop) ∧
        start ≤ offset ∧ offset ≤ stop ∧
        ∃ text, source.slice? start offset = some text ∧ location.column = text.length := by
  refine ⟨fun first last => ⟨exists_toOffsets_iff, fun _ _ => slice?_of_toOffsets⟩, ?_⟩
  rintro _ ⟨front, back, rfl, rfl⟩
  -- The line of the position goes back to the last break in front of it and on to the next one.
  obtain ⟨before, last, rfl, begins, unbroken⟩ := Text.exists_lastLine front
  obtain ⟨rest, after, rfl, unbroken', ends⟩ := Text.exists_firstLine back
  have whole : WholeLines ((before ++ last) ++ (rest ++ after)) before (last ++ rest) after :=
    ⟨by simp, begins, ends⟩
  have selected := whole.toOffsets_eq
  have same : (before ++ (last ++ rest)).count '\n' = before.count '\n' := by
    rw [List.count_append, List.count_append, List.count_eq_zero.mpr unbroken,
      List.count_eq_zero.mpr unbroken', Nat.add_zero]
  rw [same] at selected
  refine ⟨_, Location.ofOffset?_eq begins unbroken _, _, _, selected, ?_, ?_, last, ?_, rfl⟩
  · rw [Text.byteLength_append]
    exact Nat.le_add_right _ _
  · rw [← List.append_assoc, Text.byteLength_append _ rest]
    exact Nat.le_add_right _ _
  · exact Text.slice?_eq_some_iff.mpr
      ⟨before, rest ++ after, rfl, rfl, Text.byteLength_append _ _⟩

/-- An empty line between two lines that end in letters of two bytes. -/
theorem lines_agree_accents : ∃ source : Text, source = "\u00e9\n\nx\u00e9".toList ∧
    (Selection.lines 2 3).toOffsets source = .ok (3, 7) ∧
    source.slice? 3 7 =
      some (['\n'].intercalate (((source.splitOn '\n').take 3).drop (2 - 1))) ∧
    source.Boundary 5 ∧ ∃ location, Location.ofOffset? source 5 = some location ∧
      ∃ start stop, (Selection.lines (location.line + 1) (location.line + 1)).toOffsets source =
          .ok (start, stop) ∧
        start ≤ 5 ∧ 5 ≤ stop ∧
        ∃ text, source.slice? start 5 = some text ∧ location.column = text.length := by
  have selected : (Selection.lines 2 3).toOffsets "\u00e9\n\nx\u00e9".toList = .ok (3, 7) := rfl
  have inside : Text.Boundary "\u00e9\n\nx\u00e9".toList 5 :=
    ⟨"\u00e9\n\nx".toList, "\u00e9".toList, rfl, rfl⟩
  obtain ⟨lines, positions⟩ := lines_agree "\u00e9\n\nx\u00e9".toList
  exact ⟨_, rfl, selected, (lines 2 3).2 3 7 selected, inside, positions 5 inside⟩

end Extraction

end ComponentExtraction
