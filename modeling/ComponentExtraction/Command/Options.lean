import ComponentExtraction.Command.Arguments
import ComponentExtraction.Command.Failure
import ComponentExtraction.Text.Blank

/-!
# Options of an extraction

What the arguments of the command mean.
-/

namespace ComponentExtraction

namespace Command

/-- What is extracted, and how. Paths are meant as they stand:
relative ones start at the current directory. -/
structure Options where
  template : Text
  selection : Extraction.Selection
  /-- Name of the new component; the user is asked for it if there is none. -/
  name : Option Text
  symbols : Option Text
  component : Option Text
  config : Option Text
  isDryRun : Bool
  isForced : Bool
deriving DecidableEq, Repr

def lineNumber (text : Text) : Except Failure Nat :=
  match number (Text.trim text) with
  | .ok n => .ok n
  | .error problem => .error (.invalidLineNumber text problem)

def lineRange (text : Text) : Except Failure Extraction.Selection := do
  let (first, last) := (Text.splitOnce? [':'] text).getD (text, text)
  return .lines (← lineNumber first) (← lineNumber last)

namespace Options

def selectionOf (a : Arguments) : Except Failure Extraction.Selection :=
  match a.number? .start, a.number? .stop, a.value? .lineRange with
  | some start, some stop, _ => .ok (.offsets start stop)
  | _, _, some range => lineRange range
  | _, _, none => .error .noSelection

def ofArguments (a : Arguments) : Except Failure Options := do
  return {
    selection := ← selectionOf a
    template := a.template.getD []
    name := a.value? .name
    symbols := a.value? .symbols
    component := a.value? .component
    config := a.value? .config
    isDryRun := a.has .dryRun
    isForced := a.has .force }

end Options

end Command

end ComponentExtraction
