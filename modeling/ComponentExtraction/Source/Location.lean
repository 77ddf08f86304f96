import ComponentExtraction.Text.Basic

/-!
# Lines and columns

A location counts lines from zero and, in the last line, characters from zero.
-/

namespace ComponentExtraction

structure Location where
  offset : Nat
  line : Nat
  column : Nat
deriving DecidableEq, Repr

namespace Location

def advance (l : Nat × Nat) (c : Char) : Nat × Nat :=
  if c = '\n' then (l.1 + 1, 0) else (l.1, l.2 + 1)

def endOf (text : Text) : Nat × Nat :=
  text.foldl advance (0, 0)

/-- The location of a byte offset. Offsets past the end count as the end; an
offset inside a character has no location. -/
def ofOffset? (source : Text) (offset : Nat) : Option Location :=
  let offset := min offset source.byteLength
  (source.takeBytes? offset).map fun before =>
    ⟨offset, (endOf before).1, (endOf before).2⟩

def render (l : Location) : Text :=
  Text.ofNat l.line ++ ':' :: Text.ofNat l.column

end Location

end ComponentExtraction
