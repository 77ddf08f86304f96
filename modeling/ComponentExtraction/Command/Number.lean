import ComponentExtraction.Text.Classes

/-!
# Numbers on the command line

Numbers are written in decimal digits, with a plus sign or none, and fit into
64 bits.
-/

namespace ComponentExtraction

namespace Command

inductive NumberProblem where
  | empty
  | invalidDigit
  | tooLarge
deriving DecidableEq, Repr

namespace NumberProblem

def message : NumberProblem → Text
  | empty => "cannot parse integer from empty string".toList
  | invalidDigit => "invalid digit found in string".toList
  | tooLarge => "number too large to fit in target type".toList

end NumberProblem

def numberLimit : Nat :=
  18446744073709551616

/-- The number whose digits go on. Of several problems the first one from the
left is told, so a number that is too large hides a letter further on. -/
def digits (value : Nat) : Text → Except NumberProblem Nat
  | [] => .ok value
  | c :: cs =>
    if Text.isDigit c then
      let next := value * 10 + (c.toNat - '0'.toNat)
      if next < numberLimit then digits next cs else .error .tooLarge
    else .error .invalidDigit

def number : Text → Except NumberProblem Nat
  | [] => .error .empty
  | ['+'] => .error .invalidDigit
  | '+' :: rest => digits 0 rest
  | text => digits 0 text

end Command

end ComponentExtraction
