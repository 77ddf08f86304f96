import ComponentExtraction.Proofs.Text.Edit
import Mathlib.Data.List.Chain

/-!
# A batch of edits and its edits one by one

The edits inside a range are sorted stably (`stablySorted_inside`), so only the order of
edits of one span matters. Where none of them overlaps the next one, the offsets in front of an
edit do not move when the edits behind it are applied first. Applying the edits one by one,
the last one first, then rewrites the range to the text of the batch and leaves the source
around it as it was (`applyInTurn?_of_applySorted?`). `applyAll?_agrees` puts this together.
-/

namespace ComponentExtraction

namespace Text

instance (text : Text) (n : Nat) : Decidable (text.Boundary n) :=
  decidable_of_iff _ isBoundary_iff

theorem slice?_whole (text : Text) : text.slice? 0 text.byteLength = some text :=
  slice?_eq_some_iff.mpr ⟨[], [], (List.append_nil text).symm, rfl, (Nat.zero_add _).symm⟩

theorem byteLength_of_slice? {text front : Text} {stop : Nat}
    (found : text.slice? 0 stop = some front) : stop = front.byteLength := by
  obtain ⟨before, _, -, start_eq, stop_eq⟩ := slice?_eq_some_iff.mp found
  rw [stop_eq, ← start_eq, Nat.zero_add]

end Text

namespace Edit

variable {source text front back : Text} {e : Edit} {edits edits' sorted sorted' : List Edit}
variable {range : Span} {cursor stop : Nat}

/-- The edits inside a range by start and then by stop, those of one span as they stood. -/
structure StablySorted (range : Span) (edits sorted : List Edit) : Prop where
  ordered : sorted.Pairwise fun e e' => e.precedes e' = true
  stable : ∀ span, sorted.filter (fun e => e.span = span) =
    (edits.filter fun e => range.covers e.span).filter fun e => e.span = span

/-- The edits of every span stand in the same order in both
lists. Edits of different spans may have changed places. -/
def Rearranges (edits edits' : List Edit) : Prop :=
  ∀ span, edits.filter (fun e => e.span = span) = edits'.filter fun e => e.span = span

theorem stablySorted_inside (range : Span) (edits : List Edit) :
    StablySorted range edits (inside range edits) where
  ordered := Sequence.pairwise_sort precedes_total precedes_trans _
  stable span := by
    apply Sequence.filter_sort
    intro e e' here here'
    rw [decide_eq_true_eq] at here here'
    rw [precedes_iff, here, here']
    omega

/-- There is one way to sort edits stably, however they are arranged. -/
theorem StablySorted.unique (h : StablySorted range edits sorted)
    (h' : StablySorted range edits' sorted') (same : Rearranges edits edits') :
    sorted = sorted' := by
  refine Sequence.eq_of_filter_key Edit.span ?_ h.ordered h'.ordered fun span => ?_
  · intro e e' forth back
    rw [precedes_iff] at forth back
    have start_eq : e.span.start = e'.span.start := by omega
    have stop_eq : e.span.stop = e'.span.stop := by omega
    exact congrArg₂ Span.mk start_eq stop_eq
  · rw [h.stable, h'.stable, List.filter_comm, same span, List.filter_comm]

/-- The source with one edit after the other applied to it, the last
one first, so that no edit moves what is still to be edited. -/
def applyInTurn? (source : Text) : List Edit → Option Text
  | [] => some source
  | e :: edits => (applyInTurn? source edits).bind e.applyTo?

/-- Where no edit starts in front of the cursor or of the end of the one before it, the
edits one by one give what the sorted edits give from the cursor on, with the source in
front of the cursor and behind the range around it. -/
theorem applyInTurn?_of_applySorted? (fits : ∀ e ∈ edits, e.Fits source)
    (apart : edits.IsChain fun e e' => e.span.stop ≤ e'.span.start)
    (behind : ∀ e ∈ edits.head?, cursor ≤ e.span.start)
    (front_eq : source.slice? 0 cursor = some front)
    (back_eq : source.slice? stop source.byteLength = some back)
    (text_eq : applySorted? source stop cursor edits = some text) :
    applyInTurn? source edits = some (front ++ text ++ back) := by
  -- Induction on the edits; what is applied before an edit lies behind its end.
  induction edits generalizing cursor front text with
  | nil =>
    have whole := Text.slice?_append (Text.slice?_append front_eq text_eq) back_eq
    rw [Text.slice?_whole] at whole
    exact whole
  | cons e edits ih =>
    have ahead : ¬ e.span.start < cursor := Nat.not_lt.mpr (behind e rfl)
    obtain ⟨fits_e, fits_rest⟩ := List.forall_mem_cons.mp fits
    obtain ⟨next, apart_rest⟩ := List.isChain_cons.mp apart
    rw [applySorted?, if_neg ahead] at text_eq
    obtain ⟨gap, gap_eq, text_eq⟩ := Option.bind_eq_some_iff.mp text_eq
    obtain ⟨later, later_eq, rfl⟩ := Option.map_eq_some_iff.mp text_eq
    obtain ⟨old, old_eq⟩ := fits_e.start.exists_slice? fits_e.stop fits_e.ordered
    have before_eq := Text.slice?_append front_eq gap_eq
    have through_eq := Text.slice?_append before_eq old_eq
    have rest_eq := ih fits_rest apart_rest next through_eq later_eq
    rw [applyInTurn?, rest_eq, Option.bind_some, List.append_assoc _ later back]
    rw [applyTo?_append (Text.byteLength_of_slice? before_eq)
      (Text.byteLength_of_slice? through_eq)]
    simp only [List.append_assoc]

/-- A range and edits of a source, all of them between boundaries. -/
structure Editable (source : Text) (range : Span) (edits : List Edit) : Prop where
  start : source.Boundary range.start
  stop : source.Boundary range.stop
  ordered : range.start ≤ range.stop
  fits : ∀ e ∈ edits, e.Fits source

instance (source : Text) (e : Edit) : Decidable (e.Fits source) :=
  decidable_of_iff (source.Boundary e.span.start ∧ source.Boundary e.span.stop ∧
      e.span.start ≤ e.span.stop)
    ⟨fun ⟨start, stop, ordered⟩ => ⟨start, stop, ordered⟩,
      fun fits => ⟨fits.start, fits.stop, fits.ordered⟩⟩

instance (source : Text) (range : Span) (edits : List Edit) :
    Decidable (Editable source range edits) :=
  decidable_of_iff (source.Boundary range.start ∧ source.Boundary range.stop ∧
      range.start ≤ range.stop ∧ ∀ e ∈ edits, e.Fits source)
    ⟨fun ⟨start, stop, ordered, fits⟩ => ⟨start, stop, ordered, fits⟩,
      fun h => ⟨h.start, h.stop, h.ordered, h.fits⟩⟩

/-- A batch of edits always gives a text. It is the text the edits inside the range leave
there one by one, from the last to the first, if none of them overlaps the next one; and it
is the same however edits of different spans are arranged. -/
theorem applyAll?_agrees (h : Editable source range edits) :
    ∃ text, applyAll? source range edits = some text ∧
      (∀ sorted, StablySorted range edits sorted →
        (sorted.IsChain fun e e' => e.span.stop ≤ e'.span.start) →
        ∃ front back, source.slice? 0 range.start = some front ∧
          source.slice? range.stop source.byteLength = some back ∧
          applyInTurn? source sorted = some (front ++ text ++ back)) ∧
      ∀ edits', Rearranges edits edits' → applyAll? source range edits' = some text := by
  obtain ⟨text, text_eq⟩ := exists_applyAll? h.start h.stop h.ordered h.fits
  have sorts := stablySorted_inside range edits
  refine ⟨text, text_eq, fun sorted sorted_eq apart => ?_, fun edits' same => ?_⟩
  · cases sorted_eq.unique sorts fun _ => rfl
    obtain ⟨front, front_eq⟩ := (Text.boundary_zero source).exists_slice? h.start (Nat.zero_le _)
    obtain ⟨back, back_eq⟩ := h.stop.exists_slice? (Text.boundary_byteLength source) h.stop.le
    refine ⟨front, back, front_eq, back_eq, ?_⟩
    refine applyInTurn?_of_applySorted? ?_ apart ?_ front_eq back_eq text_eq
    · intro e member
      exact h.fits e (mem_inside_iff.mp member).1
    · intro e first
      have covered := (mem_inside_iff.mp (List.mem_of_mem_head? first)).2
      rw [Span.covers, Bool.and_eq_true, decide_eq_true_eq] at covered
      exact covered.1
  · rw [applyAll?, ← sorts.unique (stablySorted_inside range edits') same]
    exact text_eq

/-- Two insertions at the start of a replacement, and edits outside of the range. -/
theorem applyAll?_agrees_insertions : ∃ text,
    applyAll? "abcdef".toList ⟨1, 5⟩ [⟨⟨4, 5⟩, "E".toList⟩, insertion 2 "x".toList,
      ⟨⟨2, 3⟩, "C".toList⟩, ⟨⟨4, 6⟩, "F".toList⟩, insertion 2 "y".toList] = some text ∧
    applyInTurn? "abcdef".toList [insertion 2 "x".toList, insertion 2 "y".toList,
      ⟨⟨2, 3⟩, "C".toList⟩, ⟨⟨4, 5⟩, "E".toList⟩] = some ("a".toList ++ text ++ "f".toList) := by
  obtain ⟨text, text_eq, agrees, -⟩ := applyAll?_agrees
    (show Editable "abcdef".toList ⟨1, 5⟩ [⟨⟨4, 5⟩, "E".toList⟩, insertion 2 "x".toList,
      ⟨⟨2, 3⟩, "C".toList⟩, ⟨⟨4, 6⟩, "F".toList⟩, insertion 2 "y".toList] by decide)
  obtain ⟨front, back, front_eq, back_eq, turned⟩ :=
    agrees _ (stablySorted_inside _ _) (by decide)
  cases front_eq
  cases back_eq
  exact ⟨text, text_eq, turned⟩

end Edit

end ComponentExtraction
