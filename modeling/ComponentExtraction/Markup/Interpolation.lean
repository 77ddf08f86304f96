import ComponentExtraction.Expression.Parser

/-!
# Interpolations

Expressions between double braces, in texts and in the values of plain
attributes.
-/

namespace ComponentExtraction

namespace Markup

def interpolationStart : Text :=
  ['\x7b', '\x7b']

def interpolationEnd : Text :=
  ['\x7d', '\x7d']

/-- The interpolations of a text that stands at a byte offset of its source. An
interpolation that is not closed is recorded, and the rest is plain text. -/
def interpolations (offset : Nat) (text : Text) : List Node × List Diagnostic :=
  match _h : Text.splitOnce? interpolationStart text with
  | none => ([], [])
  | some (before, inner) =>
    let start := offset + before.byteLength
    match h' : Text.splitOnce? interpolationEnd inner with
    | none =>
      ([], [⟨⟨start, start + 2 + inner.byteLength⟩, .unterminatedInterpolation⟩])
    | some (expression, after) =>
      let stop := start + 2 + expression.byteLength + 2
      let parsed := Expression.parse .binding (start + 2) expression
      let more := interpolations stop after
      (Node.mk .interpolation ⟨start, stop⟩ parsed.1 :: more.1, parsed.2 ++ more.2)
termination_by text.length
decreasing_by
  have inner_eq := Text.eq_append_of_splitOnce? _h
  have after_le := Text.length_snd_of_splitOnce? h'
  simp only [inner_eq, interpolationStart, List.length_append, List.length_cons]
  simp only at after_le
  omega

end Markup

end ComponentExtraction
