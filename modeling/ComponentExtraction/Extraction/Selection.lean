import ComponentExtraction.Text.Basic

/-!
# Ways to select a part of a template

A selection is given by byte offsets or by whole lines. Lines are counted from
one, and both ends belong to the selection.
-/

namespace ComponentExtraction

namespace Extraction

inductive Selection where
  | offsets (start stop : Nat)
  | lines (first last : Nat)
deriving DecidableEq, Repr

/-- Why lines cannot be selected. -/
inductive LineError where
  | invalidRange (first last : Nat)
  | pastEnd (line count : Nat)
deriving DecidableEq, Repr

namespace LineError

def message : LineError → Text
  | invalidRange first last =>
    "invalid line range ".toList ++ Text.ofNat first ++ ':' :: Text.ofNat last
  | pastEnd line count =>
    "line ".toList ++ Text.ofNat line ++ " is past the end of the template (".toList
      ++ Text.ofNat count ++ " lines)".toList

end LineError

def lineStartsFrom (offset : Nat) : Text → List Nat
  | [] => []
  | c :: cs =>
    if c = '\n' then (offset + 1) :: lineStartsFrom (offset + 1) cs
    else lineStartsFrom (offset + c.utf8Size) cs

/-- The byte offsets at which the lines of a text start. -/
def lineStarts (source : Text) : List Nat :=
  0 :: lineStartsFrom 0 source

namespace Selection

/-- The byte offsets of a selection in a source. The break behind the last line
is not selected. -/
def toOffsets (s : Selection) (source : Text) : Except LineError (Nat × Nat) :=
  match s with
  | offsets start stop => .ok (start, stop)
  | lines first last =>
    let starts := lineStarts source
    if first = 0 || last < first then .error (.invalidRange first last)
    else if starts.length < last then .error (.pastEnd last starts.length)
    else
      .ok (starts.getD (first - 1) 0,
        match starts[last]? with
        | some next => next - 1
        | none => source.byteLength)

end Selection

end Extraction

end ComponentExtraction
