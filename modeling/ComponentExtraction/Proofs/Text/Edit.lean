import ComponentExtraction.Proofs.Sequence.Sorted
import ComponentExtraction.Proofs.Text.Boundary
import ComponentExtraction.Text.Edit

/-!
# Applying several edits

Edits between boundaries can always be applied (`exists_applyAll?`). Which text
results follows from two facts about the cursor: source without edits is copied
(`applySorted?_advance`), and edits that start before the cursor are passed over
(`applySorted?_skip`).
-/

namespace ComponentExtraction

namespace Edit

variable {source : Text} {e e' : Edit} {edits rest : List Edit} {range : Span}
variable {cursor stop : Nat}

def Before (e e' : Edit) : Prop :=
  e.span.start < e'.span.start ∨ e.span.start = e'.span.start ∧ e.span.stop < e'.span.stop

theorem Before.ne (h : e.Before e') : e ≠ e' := by
  rintro rfl
  rcases h with h | h <;> omega

theorem precedes_iff : e.precedes e' = true ↔
    e.span.start < e'.span.start ∨ e.span.start = e'.span.start ∧ e.span.stop ≤ e'.span.stop := by
  simp [precedes]

theorem precedes_total (e e' : Edit) : e.precedes e' = true ∨ e'.precedes e = true := by
  rw [precedes_iff, precedes_iff]
  omega

theorem precedes_trans (e e' e'' : Edit) (first : e.precedes e' = true)
    (second : e'.precedes e'' = true) : e.precedes e'' = true := by
  rw [precedes_iff] at first second ⊢
  omega

/-- Edits inside a range, in any strict order of them, are what is applied. -/
theorem inside_eq_of_perm (perm : (edits.filter fun e => range.covers e.span).Perm rest)
    (ordered : rest.Pairwise Before) : inside range edits = rest := by
  refine Sequence.sort_eq_of_perm precedes_total precedes_trans perm ordered ?_ ?_
  · intro e e' before
    rw [precedes_iff]
    rcases before with before | before <;> omega
  · intro e e' before
    rw [precedes_iff]
    rcases before with before | before <;> omega

theorem mem_inside_iff : e ∈ inside range edits ↔ e ∈ edits ∧ range.covers e.span = true := by
  rw [inside, (Sequence.perm_sort precedes _).mem_iff, List.mem_filter]

/-- The edit lies between boundaries of a source. -/
structure Fits (source : Text) (e : Edit) : Prop where
  start : source.Boundary e.span.start
  stop : source.Boundary e.span.stop
  ordered : e.span.start ≤ e.span.stop

theorem exists_applySorted? (begins : source.Boundary cursor) (ends : source.Boundary stop)
    (ordered : cursor ≤ stop) (fits : ∀ e ∈ edits, e.Fits source ∧ e.span.stop ≤ stop) :
    ∃ text, applySorted? source stop cursor edits = some text := by
  induction edits generalizing cursor with
  | nil => exact begins.exists_slice? ends ordered
  | cons e edits ih =>
    obtain ⟨⟨fits_e, before⟩, fits_rest⟩ := List.forall_mem_cons.mp fits
    rw [applySorted?]
    split
    · exact ih begins ordered fits_rest
    · next behind =>
      obtain ⟨copied, copied_eq⟩ := begins.exists_slice? fits_e.start (Nat.le_of_not_lt behind)
      obtain ⟨after, after_eq⟩ := ih fits_e.stop before fits_rest
      rw [copied_eq, after_eq]
      exact ⟨_, rfl⟩

theorem exists_applyAll? (begins : source.Boundary range.start) (ends : source.Boundary range.stop)
    (ordered : range.start ≤ range.stop) (fits : ∀ e ∈ edits, e.Fits source) :
    ∃ text, applyAll? source range edits = some text := by
  apply exists_applySorted? begins ends ordered
  intro e member
  obtain ⟨listed, covered⟩ := mem_inside_iff.mp member
  rw [Span.covers, Bool.and_eq_true, decide_eq_true_eq, decide_eq_true_eq] at covered
  exact ⟨fits e listed, covered.2⟩

/-- An edit of the whole source succeeds between boundaries. -/
theorem Fits.exists_applyTo? (h : e.Fits source) : ∃ text, e.applyTo? source = some text := by
  obtain ⟨before, before_eq⟩ := h.start.takeBytes?
  obtain ⟨after, after_eq⟩ := h.stop.dropBytes?
  rw [applyTo?, before_eq, after_eq]
  exact ⟨_, rfl⟩

/-- An edit leaves what stands in front of its span and behind it. -/
theorem applyTo?_append {front old back : Text} (start_eq : e.span.start = front.byteLength)
    (stop_eq : e.span.stop = (front ++ old).byteLength) :
    e.applyTo? (front ++ old ++ back) = some (front ++ e.replacement ++ back) := by
  have before : Text.takeBytes? e.span.start (front ++ old ++ back) = some front := by
    rw [start_eq, List.append_assoc]
    exact Text.takeBytes?_byteLength front _
  have after : Text.dropBytes? e.span.stop (front ++ old ++ back) = some back := by
    rw [stop_eq]
    exact Text.dropBytes?_byteLength _ back
  rw [applyTo?, before, Option.bind_some, after]
  rfl

theorem applySorted?_advance {copied after : Text} {next : Nat}
    (copied_eq : source.slice? cursor next = some copied) (ordered : cursor ≤ next)
    (behind : ∀ e ∈ edits, next ≤ e.span.start)
    (after_eq : applySorted? source stop next edits = some after) :
    applySorted? source stop cursor edits = some (copied ++ after) := by
  cases edits with
  | nil => exact Text.slice?_append copied_eq after_eq
  | cons e edits =>
    have start := behind e List.mem_cons_self
    rw [applySorted?, if_neg (by omega)] at after_eq ⊢
    obtain ⟨gap, gap_eq, after_eq⟩ := Option.bind_eq_some_iff.mp after_eq
    obtain ⟨later, later_eq, rfl⟩ := Option.map_eq_some_iff.mp after_eq
    rw [Text.slice?_append copied_eq gap_eq, later_eq]
    simp [List.append_assoc]

theorem applySorted?_here {after : Text} (begins : source.Boundary e.span.start)
    (after_eq : applySorted? source stop e.span.stop edits = some after) :
    applySorted? source stop e.span.start (e :: edits) = some (e.replacement ++ after) := by
  rw [applySorted?, if_neg (Nat.lt_irrefl _), Text.slice?_self begins, Option.bind_some, after_eq]
  rfl

theorem applySorted?_skip (before : ∀ e ∈ edits, e.span.start < cursor) :
    applySorted? source stop cursor (edits ++ rest) = applySorted? source stop cursor rest := by
  induction edits with
  | nil => rfl
  | cons e edits ih =>
    obtain ⟨start, before_rest⟩ := List.forall_mem_cons.mp before
    rw [List.cons_append, applySorted?, if_pos start]
    exact ih before_rest

end Edit

end ComponentExtraction
