import ComponentExtraction.Extraction.Plan
import ComponentExtraction.Extraction.Selection

/-!
# Sessions

A session is a sequence of extractions from one template. Each works on the text
that the one before has left; one that fails leaves the text as it is.
-/

namespace ComponentExtraction

namespace Extraction

structure Request where
  selection : Selection
  name : Text
deriving Repr

inductive StepError where
  | lines (error : LineError)
  | extraction (error : ExtractionError)
deriving DecidableEq, Repr

/-- One step on a source: the plan and the source after it. -/
def step (url : Text) (host : Symbols.Table) (settings : Component.Settings) (source : Text)
    (request : Request) : Except StepError (Plan × Text) :=
  match request.selection.toOffsets source with
  | .error e => .error (.lines e)
  | .ok (start, stop) =>
    match ofSelection source url start stop request.name host settings with
    | .error e => .error (.extraction e)
    | .ok plan =>
      match plan.applyTo? source with
      | some text => .ok (plan, text)
      | none => .error (.extraction .cutInsideCharacter)

def session (url : Text) (host : Symbols.Table) (settings : Component.Settings) :
    Text → List Request → List (Except StepError (Plan × Text))
  | _, [] => []
  | source, request :: requests =>
    match step url host settings source request with
    | .ok (plan, text) => .ok (plan, text) :: session url host settings text requests
    | .error e => .error e :: session url host settings source requests

end Extraction

end ComponentExtraction
