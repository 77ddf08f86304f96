import ComponentExtraction.Text.Basic

/-!
# Named entries in insertion order

Lists of pairs that serve as maps from names: a name stands where it was first
put, with the value put last.
-/

namespace ComponentExtraction

namespace Entries

variable {α : Type}

def get? (name : Text) : List (Text × α) → Option α
  | [] => none
  | (key, value) :: entries => if key = name then some value else get? name entries

def has (name : Text) (entries : List (Text × α)) : Bool :=
  (get? name entries).isSome

/-- Give a name a value. A name that had one keeps its place. -/
def put (name : Text) (value : α) : List (Text × α) → List (Text × α)
  | [] => [(name, value)]
  | (key, old) :: entries =>
    if key = name then (key, value) :: entries else (key, old) :: put name value entries

def putNew (name : Text) (value : α) (entries : List (Text × α)) : List (Text × α) :=
  if has name entries then entries else entries ++ [(name, value)]

def ofList (entries : List (Text × α)) : List (Text × α) :=
  entries.foldl (fun found entry => put entry.1 entry.2 found) []

def addName (name : Text) (names : List Text) : List Text :=
  if name ∈ names then names else names ++ [name]

end Entries

end ComponentExtraction
