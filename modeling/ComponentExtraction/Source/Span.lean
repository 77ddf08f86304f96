import ComponentExtraction.Text.Basic

/-!
# Spans

Half-open byte ranges of a source text.
-/

namespace ComponentExtraction

/-- The bytes from `start` up to and without `stop`. -/
structure Span where
  start : Nat
  stop : Nat
deriving DecidableEq, Repr, Inhabited

namespace Span

def point (offset : Nat) : Span :=
  ⟨offset, offset⟩

def length (s : Span) : Nat :=
  s.stop - s.start

def isEmpty (s : Span) : Bool :=
  s.length == 0

def contains (s : Span) (offset : Nat) : Bool :=
  s.start ≤ offset && offset < s.stop

def covers (s t : Span) : Bool :=
  s.start ≤ t.start && t.stop ≤ s.stop

def shift (distance : Nat) (s : Span) : Span :=
  ⟨s.start + distance, s.stop + distance⟩

def textIn? (s : Span) (source : Text) : Option Text :=
  source.slice? s.start s.stop

end Span

end ComponentExtraction
