import ComponentExtraction.Command.Number
import ComponentExtraction.Extraction.Error
import ComponentExtraction.Extraction.Selection
import ComponentExtraction.Workspace.Store

/-!
# Why the command fails

Every failure has a summary that says what was being done, and a report that is
shown to the user. The report of a failed file operation goes on with what the
operating system says.
-/

namespace ComponentExtraction

namespace Command

open Workspace (FileProblem)

/-- Why a run of the command fails. What the operating system refuses
is told with the path that it was met at, where there is one. -/
inductive Failure where
  | noSelection
  | invalidLineNumber (text : Text) (problem : NumberProblem)
  | lines (error : Extraction.LineError)
  | settingsUnreadable (path : Text) (problem : FileProblem)
  | settingsInvalid (path : Text)
  | templateUnreadable (path : Text) (problem : FileProblem)
  | symbolsUnreadable (path : Text) (problem : FileProblem)
  | symbolsInvalid (path : Text)
  | componentUnreadable (path : Text) (problem : FileProblem)
  | markUnreadable (path : Text) (problem : FileProblem)
  | readOnly (path : Text)
  | notAsked (problem : FileProblem)
  | extraction (error : ExtractionError)
  | alreadyExists (path : Text)
  | notWritten (path : Text) (problem : FileProblem)
  | notUpdated (path : Text) (problem : FileProblem)
deriving DecidableEq, Repr

namespace Failure

def summary : Failure → Text
  | noSelection => "a selection is required: --start/--end or --line-range".toList
  | invalidLineNumber text _ =>
    "invalid line number '".toList ++ text ++ "' in --line-range".toList
  | lines error => error.message
  | settingsUnreadable path _ => "Failed to load config: ".toList ++ path
  | settingsInvalid path => "Failed to load config: ".toList ++ path
  | templateUnreadable path _ => "Failed to read template: ".toList ++ path
  | symbolsUnreadable path _ => "Failed to read symbols: ".toList ++ path
  | symbolsInvalid path => "Invalid symbol table: ".toList ++ path
  | componentUnreadable path _ => "Failed to read component: ".toList ++ path
  | markUnreadable path _ => "Failed to stat ".toList ++ path
  | readOnly path => "Cannot modify read-only file ".toList ++ path
  | notAsked problem => problem.message
  | extraction error => error.message
  | alreadyExists path => "Refusing to overwrite existing file ".toList ++ path
  | notWritten path _ => "Failed to write ".toList ++ path
  | notUpdated path _ => "Failed to update ".toList ++ path

def withCause (failure : Failure) (cause : Text) : Text :=
  failure.summary ++ ": ".toList ++ cause

def message (failure : Failure) : Text :=
  match failure with
  | invalidLineNumber _ problem => failure.withCause problem.message
  | settingsUnreadable _ problem => "I/O error: ".toList ++ problem.message
  | settingsInvalid _ => "JSON error: the settings cannot be read".toList
  | symbolsInvalid _ => "JSON error: the symbol table cannot be read".toList
  | templateUnreadable _ problem => failure.withCause problem.message
  | symbolsUnreadable _ problem => failure.withCause problem.message
  | componentUnreadable _ problem => failure.withCause problem.message
  | markUnreadable _ problem => failure.withCause problem.message
  | notWritten _ problem => failure.withCause problem.message
  | notUpdated _ problem => failure.withCause problem.message
  | _ => failure.summary

/-- The line that is shown. A read-only template is only warned of. -/
def report (failure : Failure) : Text :=
  match failure with
  | readOnly _ => "Warning: ".toList ++ failure.message ++ ['\n']
  | _ => "Error: ".toList ++ failure.message ++ ['\n']

end Failure

end Command

end ComponentExtraction
