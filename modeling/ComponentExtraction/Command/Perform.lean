import ComponentExtraction.Command.Options
import ComponentExtraction.Extraction.Plan
import ComponentExtraction.Workspace.Access

/-!
# Extraction on files

Everything is read and checked before anything is written. The generated files
are written before the template that refers to them. How the settings, the symbols
and the class of the host are written down is left to `Readers`.
-/

namespace ComponentExtraction

namespace Command

open Workspace (Access FileProblem)

/-- What a run of the command did. The plan is part of the
answer even where nothing was to be written. -/
inductive Outcome where
  | cancelled
  | planned (plan : Plan)
  | written (plan : Plan) (classFile templateFile : Text)
deriving Repr

/-- What the texts of files mean that are no templates. A class is always read; what
cannot be made out in it is left out. -/
structure Readers where
  settings : Text → Option Component.Settings
  symbols : Text → Option Symbols.Table
  hostClass : Text → Symbols.Table

variable {m : Type → Type} [Monad m]

def orFail {α ε : Type} (failure : ε → Failure) (action : m (Except ε α)) :
    ExceptT Failure m α := do
  match ← action with
  | .ok value => return value
  | .error problem => throw (failure problem)

/-- The settings in a file, or those that hold without one. A file
that is named but cannot be read or understood ends the run. -/
def readSettings (readers : Readers) (fs : Access m) : Option Text → ExceptT Failure m Component.Settings
  | none => return {}
  | some path => do
    let text ← orFail (Failure.settingsUnreadable path) (fs.read path)
    match readers.settings text with
    | some settings => return settings
    | none => throw (.settingsInvalid path)

def readTable (readers : Readers) (fs : Access m) : Option Text → ExceptT Failure m Symbols.Table
  | none => return {}
  | some path => do
    let text ← orFail (Failure.symbolsUnreadable path) (fs.read path)
    match readers.symbols text with
    | some table => return table
    | none => throw (.symbolsInvalid path)

/-- The file of the class next to a template, if it is there: its name has the
suffix of classes where that of the template has the suffix of templates. -/
def siblingClass (fs : Access m) (settings : Component.Settings) (template : Text) :
    m (Option Text) := do
  match (Path.fileName? template).bind (Text.stripEnd? settings.templateFileSuffix) with
  | none => return none
  | some stem =>
    let candidate := Path.sibling template (stem ++ settings.classFileSuffix)
    return if ← fs.isFile candidate then some candidate else none

/-- The symbols of the host: those of the table, completed by those of its class.
Without a class given, the one next to the template is taken. -/
def readSymbols (readers : Readers) (fs : Access m) (options : Options)
    (settings : Component.Settings) : ExceptT Failure m Symbols.Table := do
  let table ← readTable readers fs options.symbols
  let component ← match options.component with
    | some path => pure (some path)
    | none => (siblingClass fs settings options.template : m (Option Text))
  match component with
  | none => return table
  | some path =>
    let source ← orFail (Failure.componentUnreadable path) (fs.read path)
    return table.extend (readers.hostClass source)

/-- The name of the new component, if the user gives one. The question is shown
before the answer is waited for. -/
def chooseName (fs : Access m) : Option Text → ExceptT Failure m (Option Text)
  | some name => return some name
  | none => do
    orFail Failure.notAsked (fs.put "Component name: ".toList)
    orFail Failure.notAsked fs.flush
    let answer := Text.trim (← orFail Failure.notAsked fs.readLine)
    return if answer.isEmpty then none else some answer

/-- What is known before anything is written: the text of the template,
the bytes that are selected in it, and what the other files say. -/
structure Draft where
  source : Text
  start : Nat
  stop : Nat
  host : Symbols.Table
  settings : Component.Settings

/-- Read all files, and check that the selection and the template allow what is
asked for. -/
def draft (readers : Readers) (fs : Access m) (options : Options) : ExceptT Failure m Draft := do
  let settings ← readSettings readers fs options.config
  let source ← orFail (Failure.templateUnreadable options.template) (fs.read options.template)
  let host ← readSymbols readers fs options settings
  let (start, stop) ← orFail Failure.lines (pure (options.selection.toOffsets source))
  if !options.isDryRun then
    if ← orFail (Failure.markUnreadable options.template) (fs.isReadOnly options.template) then
      throw (.readOnly options.template)
  return ⟨source, start, stop, host, settings⟩

def refusePresent (fs : Access m) : List Text → ExceptT Failure m Unit
  | [] => return ()
  | path :: paths => do
    if ← fs.isPresent path then throw (.alreadyExists path)
    refusePresent fs paths

def writePlan (fs : Access m) (options : Options) (source : Text) (plan : Plan) :
    ExceptT Failure m Outcome := do
  let directory := Path.parent options.template
  let classFile := Path.join directory plan.classFileName
  let templateFile := Path.join directory plan.templateFileName
  if !options.isForced then refusePresent fs [classFile, templateFile]
  match plan.applyTo? source with
  | none => throw (.extraction .cutInsideCharacter)
  | some updated =>
    orFail (Failure.notWritten classFile) (fs.write classFile plan.classText)
    orFail (Failure.notWritten templateFile) (fs.write templateFile plan.templateText)
    orFail (Failure.notUpdated options.template) (fs.write options.template updated)
    return .written plan classFile templateFile

/-- Perform an extraction on files. The name is asked for once everything else is
known, and nothing is written before the plan is complete. -/
def perform (readers : Readers) (fs : Access m) (options : Options) :
    ExceptT Failure m Outcome := do
  let d ← draft readers fs options
  match ← chooseName fs options.name with
  | none => return .cancelled
  | some name =>
    let plan ← orFail Failure.extraction
      (pure (Extraction.ofSelection d.source options.template d.start d.stop name d.host
        d.settings))
    if options.isDryRun then return .planned plan
    else writePlan fs options d.source plan

end Command

end ComponentExtraction
