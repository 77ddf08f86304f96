/-!
# Stable sorting

Sorting by insertion: elements that compare equal keep their order.
-/

namespace ComponentExtraction

namespace Sequence

variable {α : Type}

def insertSorted (le : α → α → Bool) (x : α) : List α → List α
  | [] => [x]
  | y :: ys => if le x y then x :: y :: ys else y :: insertSorted le x ys

def sort (le : α → α → Bool) : List α → List α
  | [] => []
  | x :: xs => insertSorted le x (sort le xs)

end Sequence

end ComponentExtraction
