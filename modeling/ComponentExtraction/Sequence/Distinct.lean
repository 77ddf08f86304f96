/-!
# Keeping the first of each key

Lists in which later elements give way to an earlier one with the same key.
-/

namespace ComponentExtraction

namespace Sequence

variable {α κ : Type}

/-- The elements whose key no earlier element has, in their order. -/
def distinctBy [DecidableEq κ] (key : α → κ) : List α → List α
  | [] => []
  | x :: xs => x :: (distinctBy key xs).filter fun y => key y ≠ key x

def distinct [DecidableEq α] (xs : List α) : List α :=
  distinctBy id xs

end Sequence

end ComponentExtraction
