import ComponentExtraction.Text.Cursor

/-!
# Character boundaries

A position of a text is a boundary when the text splits there into two texts.
Between two boundaries in order there is always a slice, slices that meet join,
and what a cursor has reached is a boundary. A text that stands at a boundary of
a source has its own boundaries there, moved to the right.
-/

namespace ComponentExtraction

namespace Text

variable {source text : Text} {n m : Nat}

theorem byteLength_pos (nonempty : text ≠ []) : 0 < text.byteLength := by
  cases text with
  | nil => exact absurd rfl nonempty
  | cons c cs =>
    have := c.utf8Size_pos
    rw [byteLength_cons]
    omega

/-- Of two ways to split a text, those with as many bytes in front are the same. -/
theorem append_inj_of_byteLength {s t s' t' : Text} (same : s ++ t = s' ++ t')
    (length_eq : s.byteLength = s'.byteLength) : s = s' ∧ t = t' := by
  induction s generalizing s' with
  | nil =>
    cases s' with
    | nil => exact ⟨rfl, same⟩
    | cons c cs =>
      have := byteLength_pos (List.cons_ne_nil c cs)
      rw [byteLength_nil] at length_eq
      omega
  | cons c cs ih =>
    cases s' with
    | nil =>
      have := byteLength_pos (List.cons_ne_nil c cs)
      rw [byteLength_nil] at length_eq
      omega
    | cons c' cs' =>
      rw [List.cons_append, List.cons_append, List.cons.injEq] at same
      obtain ⟨rfl, same⟩ := same
      rw [byteLength_cons, byteLength_cons] at length_eq
      obtain ⟨rfl, rfl⟩ := ih same (by omega)
      exact ⟨rfl, rfl⟩

theorem takeBytes?_byteLength (s t : Text) : takeBytes? s.byteLength (s ++ t) = some s := by
  induction s with
  | nil => rw [byteLength_nil, takeBytes?]
  | cons c cs ih =>
    have positive := c.utf8Size_pos
    obtain ⟨k, k_eq⟩ : ∃ k, c.utf8Size + byteLength cs = k + 1 :=
      ⟨c.utf8Size + byteLength cs - 1, by omega⟩
    have rest_eq : k + 1 - c.utf8Size = byteLength cs := by omega
    rw [byteLength_cons, k_eq, List.cons_append, takeBytes?, if_pos (by omega), rest_eq, ih]
    rfl

theorem dropBytes?_byteLength (s t : Text) : dropBytes? s.byteLength (s ++ t) = some t := by
  induction s with
  | nil => rw [byteLength_nil, List.nil_append, dropBytes?]
  | cons c cs ih =>
    have positive := c.utf8Size_pos
    obtain ⟨k, k_eq⟩ : ∃ k, c.utf8Size + byteLength cs = k + 1 :=
      ⟨c.utf8Size + byteLength cs - 1, by omega⟩
    have rest_eq : k + 1 - c.utf8Size = byteLength cs := by omega
    rw [byteLength_cons, k_eq, List.cons_append, dropBytes?, if_pos (by omega), rest_eq, ih]

theorem eq_append_of_dropBytes? {rest : Text} (h : dropBytes? n text = some rest) :
    ∃ before, text = before ++ rest ∧ n = before.byteLength := by
  induction text generalizing n with
  | nil =>
    cases n with
    | zero => exact ⟨[], by simpa [dropBytes?] using h, rfl⟩
    | succ n => exact absurd h (by simp [dropBytes?])
  | cons c cs ih =>
    cases n with
    | zero => exact ⟨[], by simpa [dropBytes?] using h, rfl⟩
    | succ n =>
      rw [dropBytes?] at h
      split at h
      · next fits =>
        obtain ⟨before, rfl, n_eq⟩ := ih h
        exact ⟨c :: before, rfl, by rw [byteLength_cons]; omega⟩
      · exact absurd h (by simp)

theorem eq_append_of_takeBytes? {taken : Text} (h : takeBytes? n text = some taken) :
    ∃ after, text = taken ++ after ∧ n = taken.byteLength := by
  induction text generalizing n taken with
  | nil =>
    cases n with
    | zero =>
      cases h
      exact ⟨[], rfl, rfl⟩
    | succ n => exact absurd h (by simp [takeBytes?])
  | cons c cs ih =>
    cases n with
    | zero =>
      cases h
      exact ⟨c :: cs, rfl, rfl⟩
    | succ n =>
      rw [takeBytes?] at h
      split at h
      · next fits =>
        obtain ⟨inner, found, rfl⟩ := Option.map_eq_some_iff.mp h
        obtain ⟨after, rfl, n_eq⟩ := ih found
        exact ⟨after, rfl, by rw [byteLength_cons]; omega⟩
      · exact absurd h (by simp)

/-- The text splits at byte `n`: a character starts there, or the text ends. -/
def Boundary (text : Text) (n : Nat) : Prop :=
  ∃ before after, text = before ++ after ∧ n = before.byteLength

theorem isBoundary_iff : text.isBoundary n = true ↔ text.Boundary n := by
  rw [isBoundary, Option.isSome_iff_exists]
  constructor
  · rintro ⟨rest, found⟩
    obtain ⟨before, text_eq, n_eq⟩ := eq_append_of_dropBytes? found
    exact ⟨before, rest, text_eq, n_eq⟩
  · rintro ⟨before, after, rfl, rfl⟩
    exact ⟨after, dropBytes?_byteLength before after⟩

theorem boundary_zero (text : Text) : text.Boundary 0 :=
  ⟨[], text, rfl, rfl⟩

theorem boundary_byteLength (text : Text) : text.Boundary text.byteLength :=
  ⟨text, [], (List.append_nil text).symm, rfl⟩

theorem Boundary.le (h : text.Boundary n) : n ≤ text.byteLength := by
  obtain ⟨before, after, rfl, rfl⟩ := h
  rw [byteLength_append]
  omega

theorem Boundary.takeBytes? (h : text.Boundary n) : ∃ before, text.takeBytes? n = some before := by
  obtain ⟨before, after, rfl, rfl⟩ := h
  exact ⟨before, takeBytes?_byteLength before after⟩

theorem Boundary.dropBytes? (h : text.Boundary n) : ∃ after, text.dropBytes? n = some after := by
  obtain ⟨before, after, rfl, rfl⟩ := h
  exact ⟨after, dropBytes?_byteLength before after⟩

/-- A slice is what stands between two parts of the text. -/
theorem slice?_eq_some_iff {start stop : Nat} {slice : Text} :
    text.slice? start stop = some slice ↔ ∃ before after, text = before ++ slice ++ after ∧
      start = before.byteLength ∧ stop = before.byteLength + slice.byteLength := by
  constructor
  · intro found
    rw [slice?] at found
    split at found
    · next ordered =>
      obtain ⟨rest, dropped, taken⟩ := Option.bind_eq_some_iff.mp found
      obtain ⟨before, rfl, start_eq⟩ := eq_append_of_dropBytes? dropped
      obtain ⟨after, rfl, length_eq⟩ := eq_append_of_takeBytes? taken
      exact ⟨before, after, (List.append_assoc _ _ _).symm, start_eq, by omega⟩
    · exact absurd found (by simp)
  · rintro ⟨before, after, rfl, rfl, rfl⟩
    have length_eq : before.byteLength + slice.byteLength - before.byteLength =
        slice.byteLength := by omega
    rw [slice?, if_pos (by omega), List.append_assoc, dropBytes?_byteLength, Option.bind_some,
      length_eq, takeBytes?_byteLength]

/-- Two boundaries in order have a slice between them. -/
theorem Boundary.exists_slice? (hn : text.Boundary n) (hm : text.Boundary m) (ordered : n ≤ m) :
    ∃ slice, text.slice? n m = some slice := by
  obtain ⟨before, rest, rfl, rfl⟩ := hn
  obtain ⟨front, after, split_eq, rfl⟩ := hm
  -- The later boundary splits the rest behind the earlier one.
  obtain ⟨slice, rfl⟩ : ∃ slice, front = before ++ slice := by
    rcases List.append_eq_append_iff.mp split_eq with ⟨slice, front_eq, -⟩ | ⟨back, before_eq, rfl⟩
    · exact ⟨slice, front_eq⟩
    · rw [before_eq, byteLength_append] at ordered
      cases back with
      | nil => exact ⟨[], by rw [before_eq, List.append_nil, List.append_nil]⟩
      | cons c cs =>
        have := byteLength_pos (List.cons_ne_nil c cs)
        omega
  refine ⟨slice, slice?_eq_some_iff.mpr ⟨before, after, ?_, rfl, byteLength_append _ _⟩⟩
  rw [split_eq]

theorem slice?_append {a b c : Nat} {s t : Text} (first : text.slice? a b = some s)
    (second : text.slice? b c = some t) : text.slice? a c = some (s ++ t) := by
  obtain ⟨before, after, text_eq, rfl, rfl⟩ := slice?_eq_some_iff.mp first
  obtain ⟨before', after', text_eq', b_eq, rfl⟩ := slice?_eq_some_iff.mp second
  have same : (before ++ s) ++ after = before' ++ (t ++ after') := by
    rw [← text_eq, text_eq', List.append_assoc]
  obtain ⟨front_eq, rfl⟩ :=
    append_inj_of_byteLength same (by rw [byteLength_append]; exact b_eq)
  refine slice?_eq_some_iff.mpr ⟨before, after', ?_, rfl, ?_⟩
  · rw [text_eq', ← front_eq, List.append_assoc before s t]
  · rw [byteLength_append, ← b_eq]
    omega

theorem slice?_self (h : text.Boundary n) : text.slice? n n = some [] := by
  obtain ⟨before, after, rfl, rfl⟩ := h
  exact slice?_eq_some_iff.mpr ⟨before, after, by rw [List.append_nil], rfl, rfl⟩

theorem floorBoundary_le (text : Text) (n : Nat) : text.floorBoundary n ≤ n := by
  induction n with
  | zero => exact Nat.le_refl 0
  | succ n ih =>
    rw [floorBoundary]
    split
    · exact Nat.le_refl _
    · omega

theorem boundary_floorBoundary (text : Text) (n : Nat) : text.Boundary (text.floorBoundary n) := by
  induction n with
  | zero => exact boundary_zero text
  | succ n ih =>
    rw [floorBoundary]
    split
    · next found => exact isBoundary_iff.mp found
    · exact ih

theorem Boundary.le_floorBoundary (h : text.Boundary m) (before : m ≤ n) :
    m ≤ text.floorBoundary n := by
  induction n with
  | zero => exact before
  | succ n ih =>
    rw [floorBoundary]
    split
    · exact before
    · next none =>
      have : m ≠ n + 1 := by
        rintro rfl
        exact none (isBoundary_iff.mpr h)
      exact ih (by omega)

def StandsAt (text : Text) (offset : Nat) (source : Text) : Prop :=
  ∃ before after, source = before ++ text ++ after ∧ offset = before.byteLength

namespace StandsAt

variable {offset : Nat}

theorem boundary (h : text.StandsAt offset source) (inner : text.Boundary n) :
    source.Boundary (offset + n) := by
  obtain ⟨before, after, rfl, rfl⟩ := h
  obtain ⟨front, back, rfl, rfl⟩ := inner
  exact ⟨before ++ front, back ++ after, by simp, (byteLength_append _ _).symm⟩

theorem start (h : text.StandsAt offset source) : source.Boundary offset :=
  h.boundary (boundary_zero text)

theorem stop (h : text.StandsAt offset source) : source.Boundary (offset + text.byteLength) :=
  h.boundary (boundary_byteLength text)

theorem part {a b c : Text} (h : StandsAt (a ++ b ++ c) offset source) :
    b.StandsAt (offset + a.byteLength) source := by
  obtain ⟨before, after, rfl, rfl⟩ := h
  exact ⟨before ++ a, c ++ after, by simp, (byteLength_append _ _).symm⟩

theorem within {a b c : Text} {position : Nat} (h : text.StandsAt offset source)
    (split : text = a ++ b ++ c) (position_eq : position = offset + a.byteLength) :
    b.StandsAt position source := by
  rw [split] at h
  rw [position_eq]
  exact h.part

theorem front {a b : Text} (h : StandsAt (a ++ b) offset source) : a.StandsAt offset source := by
  obtain ⟨before, after, rfl, rfl⟩ := h
  exact ⟨before, b ++ after, by simp, rfl⟩

theorem slice?_eq (h : text.StandsAt offset source) :
    source.slice? offset (offset + text.byteLength) = some text := by
  obtain ⟨before, after, source_eq, rfl⟩ := h
  exact slice?_eq_some_iff.mpr ⟨before, after, source_eq, rfl, rfl⟩

end StandsAt

end Text

namespace Cursor

variable {source : Text} {c d : Cursor}

theorem Reaches.offset_le (h : c.Reaches d) : c.offset ≤ d.offset := by
  obtain ⟨taken, -, offset_eq⟩ := h
  omega

theorem Advances.offset_lt (h : c.Advances d) : c.offset < d.offset := by
  obtain ⟨⟨taken, rest_eq, offset_eq⟩, shorter⟩ := h
  have nonempty : taken ≠ [] := by
    rintro rfl
    rw [rest_eq, List.nil_append] at shorter
    exact Nat.lt_irrefl _ shorter
  have := Text.byteLength_pos nonempty
  omega

theorem Reaches.standsAt (h : (start source).Reaches c) : c.rest.StandsAt c.offset source := by
  obtain ⟨taken, rest_eq, offset_eq⟩ := h
  refine ⟨taken, [], ?_, ?_⟩
  · rw [List.append_nil]
    exact rest_eq
  · rw [offset_eq]
    exact Nat.zero_add _

theorem Reaches.boundary (h : (start source).Reaches c) : source.Boundary c.offset :=
  h.standsAt.start

theorem Reaches.offset_add (h : (start source).Reaches c) :
    c.offset + c.rest.byteLength = source.byteLength := by
  obtain ⟨taken, rest_eq, offset_eq⟩ := h
  rw [rest_start] at rest_eq
  rw [rest_eq, Text.byteLength_append, offset_eq]
  exact Nat.add_right_cancel_iff.mpr (Nat.zero_add _)

variable {taken rest : Text} {p : Char → Bool}

theorem skip_eq (rest_eq : c.rest = taken ++ rest) :
    c.skip taken.length = ⟨c.offset + taken.byteLength, rest⟩ := by
  rw [skip, rest_eq, List.take_left, List.drop_left]

theorem skip_one {a : Char} (rest_eq : c.rest = a :: rest) :
    c.skip 1 = ⟨c.offset + a.utf8Size, rest⟩ := by
  rw [skip, rest_eq]
  rfl

theorem takeWhile_eq (run : ∀ a ∈ taken, p a = true) (ends : ∀ a ∈ rest.head?, p a = false) :
    (taken ++ rest).takeWhile p = taken ∧ (taken ++ rest).dropWhile p = rest := by
  rw [List.takeWhile_append_of_pos run, List.dropWhile_append_of_pos run]
  cases rest with
  | nil => exact ⟨List.append_nil taken, rfl⟩
  | cons a rest =>
    have other := Bool.not_eq_true _ ▸ ends a rfl
    rw [List.takeWhile_cons_of_neg other, List.dropWhile_cons_of_neg other]
    exact ⟨List.append_nil taken, rfl⟩

theorem skipWhile_eq (rest_eq : c.rest = taken ++ rest) (run : ∀ a ∈ taken, p a = true)
    (ends : ∀ a ∈ rest.head?, p a = false) :
    c.skipWhile p = ⟨c.offset + taken.byteLength, rest⟩ := by
  obtain ⟨taken_eq, dropped_eq⟩ := takeWhile_eq run ends
  rw [skipWhile, rest_eq, taken_eq, dropped_eq]

theorem skipWhile_none (ends : ∀ a ∈ c.rest.head?, p a = false) : c.skipWhile p = c :=
  skipWhile_eq (List.nil_append _).symm (by simp) ends

theorem head?_rest_skipWhile (p : Char → Bool) (c : Cursor) :
    ∀ a ∈ (c.skipWhile p).rest.head?, p a = false := by
  intro a head_eq
  have ends := List.head?_dropWhile_not p c.rest
  rw [rest_skipWhile] at head_eq
  rw [head_eq] at ends
  exact ends

theorem skipWhile_skipWhile (p : Char → Bool) (c : Cursor) :
    (c.skipWhile p).skipWhile p = c.skipWhile p :=
  skipWhile_none (head?_rest_skipWhile p c)

end Cursor

end ComponentExtraction
