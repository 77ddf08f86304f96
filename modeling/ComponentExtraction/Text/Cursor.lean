import ComponentExtraction.Text.Basic

/-!
# Reading positions

A cursor is the part of a text that is still to be read, together with the
number of bytes read before it. Every scanner moves a cursor by whole
characters, so the offset of a cursor is always a character boundary.
-/

namespace ComponentExtraction

/-- The unread rest of a text and its byte offset. A cursor
knows nothing of what stands in front of it. -/
structure Cursor where
  offset : Nat
  rest : Text
deriving DecidableEq, Repr

namespace Cursor

def start (text : Text) : Cursor :=
  ⟨0, text⟩

def skip (n : Nat) (c : Cursor) : Cursor :=
  ⟨c.offset + Text.byteLength (c.rest.take n), c.rest.drop n⟩

def skipWhile (p : Char → Bool) (c : Cursor) : Cursor :=
  ⟨c.offset + Text.byteLength (c.rest.takeWhile p), c.rest.dropWhile p⟩

def finish (c : Cursor) : Cursor :=
  ⟨c.offset + Text.byteLength c.rest, []⟩

def startsWith (pattern : Text) (c : Cursor) : Bool :=
  pattern.isPrefixOf c.rest

@[simp] theorem rest_start (text : Text) : (start text).rest = text := rfl

@[simp] theorem rest_skip (n : Nat) (c : Cursor) : (c.skip n).rest = c.rest.drop n := rfl

@[simp] theorem rest_skipWhile (p : Char → Bool) (c : Cursor) :
    (c.skipWhile p).rest = c.rest.dropWhile p := rfl

@[simp] theorem rest_finish (c : Cursor) : c.finish.rest = [] := rfl

theorem length_rest_skipWhile_le (p : Char → Bool) (c : Cursor) :
    (c.skipWhile p).rest.length ≤ c.rest.length :=
  (List.dropWhile_sublist p).length_le

def Reaches (c d : Cursor) : Prop :=
  ∃ taken : Text, c.rest = taken ++ d.rest ∧ d.offset = c.offset + taken.byteLength

theorem Reaches.refl (c : Cursor) : c.Reaches c :=
  ⟨[], by simp⟩

theorem Reaches.trans {c d e : Cursor} (hcd : c.Reaches d) (hde : d.Reaches e) : c.Reaches e := by
  obtain ⟨first, rest_first, offset_first⟩ := hcd
  obtain ⟨second, rest_second, offset_second⟩ := hde
  exact ⟨first ++ second, by simp [rest_first, rest_second],
    by simp [offset_first, offset_second, Nat.add_assoc]⟩

theorem reaches_skip (n : Nat) (c : Cursor) : c.Reaches (c.skip n) :=
  ⟨c.rest.take n, by simp [skip], rfl⟩

theorem reaches_skipWhile (p : Char → Bool) (c : Cursor) : c.Reaches (c.skipWhile p) :=
  ⟨c.rest.takeWhile p, by simp [skipWhile], rfl⟩

theorem reaches_finish (c : Cursor) : c.Reaches c.finish :=
  ⟨c.rest, by simp [finish], rfl⟩

theorem Reaches.length_le {c d : Cursor} (h : c.Reaches d) : d.rest.length ≤ c.rest.length := by
  obtain ⟨taken, rest_eq, -⟩ := h
  simp [rest_eq]

def Advances (c d : Cursor) : Prop :=
  c.Reaches d ∧ d.rest.length < c.rest.length

theorem Advances.of_skip {c d : Cursor} (h : (c.skip 1).Reaches d) (nonempty : c.rest ≠ []) :
    c.Advances d := by
  refine ⟨(reaches_skip 1 c).trans h, Nat.lt_of_le_of_lt h.length_le ?_⟩
  have := List.length_pos_iff.mpr nonempty
  simp only [rest_skip, List.length_drop]
  omega

theorem advances_skip {n : Nat} {c : Cursor} (positive : 0 < n) (nonempty : c.rest ≠ []) :
    c.Advances (c.skip n) := by
  refine ⟨reaches_skip n c, ?_⟩
  have := List.length_pos_iff.mpr nonempty
  simp only [rest_skip, List.length_drop]
  omega

theorem Reaches.advances {c d e : Cursor} (h : c.Reaches d) (h' : d.Advances e) : c.Advances e :=
  ⟨h.trans h'.1, Nat.lt_of_lt_of_le h'.2 h.length_le⟩

end Cursor

end ComponentExtraction
