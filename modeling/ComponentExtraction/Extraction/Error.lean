import ComponentExtraction.Component.Name

/-!
# Why an extraction fails
-/

namespace ComponentExtraction

/-- Why a fragment cannot be extracted. -/
inductive ExtractionError where
  /-- The selection touches no markup, or its ends do not fit together. -/
  | invalidPosition
  | emptySelection
  | invalidComponentName (name : Text) (problem : Component.NameProblem)
  /-- A two-way binding whose expression yields no input. -/
  | twoWayBindingWithoutField (binding : Text)
  | parse (message : Text)
  | cutInsideCharacter
deriving DecidableEq, Repr

namespace ExtractionError

def message : ExtractionError → Text
  | invalidPosition => "Cannot perform refactoring. Invalid Position".toList
  | emptySelection => "Nothing selected".toList
  | invalidComponentName name problem =>
    "Invalid component name '".toList ++ name ++ "': ".toList ++ problem.message
  | twoWayBindingWithoutField binding =>
    "Two-way binding '".toList ++ binding ++ "' exposes no input field".toList
  | parse message => "Parse error: ".toList ++ message
  | cutInsideCharacter => "Position inside a character".toList

end ExtractionError

end ComponentExtraction
