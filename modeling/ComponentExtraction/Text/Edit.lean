import ComponentExtraction.Source.Span
import ComponentExtraction.Sequence.Sorted

/-!
# Edits of a text

An edit replaces the text of a span; one with an empty span inserts. Several
edits are applied to a range at once, each at the position it has in the
unedited text.
-/

namespace ComponentExtraction

/-- A span and the text to stand in its place. -/
structure Edit where
  span : Span
  replacement : Text
deriving DecidableEq, Repr

namespace Edit

def insertion (offset : Nat) (text : Text) : Edit :=
  ⟨Span.point offset, text⟩

/-- The edited text. There is none when an end of the span is no character
boundary of the source. -/
def applyTo? (e : Edit) (source : Text) : Option Text :=
  (source.takeBytes? e.span.start).bind fun before =>
    (source.dropBytes? e.span.stop).map fun after => before ++ e.replacement ++ after

def precedes (d e : Edit) : Bool :=
  d.span.start < e.span.start || (d.span.start == e.span.start && d.span.stop ≤ e.span.stop)

def inside (range : Span) (edits : List Edit) : List Edit :=
  Sequence.sort precedes (edits.filter fun e => range.covers e.span)

/-- The source from byte `cursor` up to `stop` with sorted edits applied. An edit
that starts before the cursor overlaps one already applied and is passed over. -/
def applySorted? (source : Text) (stop : Nat) : Nat → List Edit → Option Text
  | cursor, [] => source.slice? cursor stop
  | cursor, e :: edits =>
    if e.span.start < cursor then applySorted? source stop cursor edits
    else
      (source.slice? cursor e.span.start).bind fun before =>
        (applySorted? source stop e.span.stop edits).map fun after =>
          before ++ e.replacement ++ after

/-- The text of a range with every edit inside it applied. An
edit that starts inside an earlier one is passed over. -/
def applyAll? (source : Text) (range : Span) (edits : List Edit) : Option Text :=
  applySorted? source range.stop range.start (inside range edits)

end Edit

end ComponentExtraction
