import ComponentExtraction.Command.Perform
import ComponentExtraction.Component.SettingsReader
import ComponentExtraction.Extraction.PlanJson
import ComponentExtraction.HostClass.Symbols
import ComponentExtraction.Json.Printer
import ComponentExtraction.Symbols.Reader

/-!
# Reports of the command

What the command prints, and the code with which it ends: zero if all went well,
one if the extraction failed, two if the arguments are rejected.
-/

namespace ComponentExtraction

namespace Command

open Workspace (Access)

structure Report where
  code : Nat
  output : Text := []
  errors : Text := []
  isVerbose : Bool := false
deriving DecidableEq, Repr

def versionLine : Text :=
  "ng-extract-component 0.1.0\n".toList

def usage : Text :=
  ("Extract a fragment of an Angular template into a new component\n\n" ++
    "Usage: ng-extract-component [OPTIONS] <TEMPLATE>\n\n" ++
    "Options:\n" ++
    "      --start <OFFSET>           Byte offset where the selection starts\n" ++
    "      --end <OFFSET>             Byte offset where the selection ends (exclusive)\n" ++
    "      --line-range <FIRST:LAST>  Select whole lines, 1-based and inclusive\n" ++
    "  -n, --name <NAME>              Name of the new component, e.g. NameLabel\n" ++
    "      --symbols <PATH>           Symbol table of the host component (JSON)\n" ++
    "      --component <PATH>         TypeScript file of the host component\n" ++
    "  -c, --config <PATH>            Extraction settings (JSON)\n" ++
    "      --dry-run                  Print the extraction plan as JSON without writing files\n" ++
    "  -f, --force                    Overwrite existing generated files\n" ++
    "  -v, --verbose                  Log debug output to stderr\n" ++
    "  -h, --help                     Print help\n" ++
    "  -V, --version                  Print version\n").toList

namespace Rejection

def message : Rejection → Text
  | missingRequired => "a required argument is missing".toList
  | unknownArgument => "an argument is not known".toList
  | conflict => "an argument cannot be used more than once, or with another one".toList
  | invalidNumber => "an offset is no number".toList
  | missingValue => "a value is missing".toList
  | unexpectedValue => "a value is not expected".toList
  | helpRequested => usage
  | versionRequested => versionLine

/-- The report of a rejection. Questions for help are answered. -/
def report (rejection : Rejection) : Report :=
  match rejection with
  | helpRequested => { code := 0, output := rejection.message }
  | versionRequested => { code := 0, output := rejection.message }
  | _ => { code := 2, errors := "error: ".toList ++ rejection.message ++ ['\n'] }

end Rejection

namespace Outcome

def output : Outcome → Text
  | cancelled => []
  | planned plan => plan.toJson.indented 0 ++ ['\n']
  | written _ classFile templateFile =>
    "Created ".toList ++ classFile ++ "\nCreated ".toList ++ templateFile ++ ['\n']

end Outcome

def reportOf (isVerbose : Bool) : Except Failure Outcome → Report
  | .ok outcome => { code := 0, output := outcome.output, isVerbose := isVerbose }
  | .error failure => { code := 1, errors := failure.report, isVerbose := isVerbose }

/-- Settings and symbols are written in JSON, and the class of a host in its own
language. -/
def Readers.standard : Readers where
  settings := Component.Settings.parse?
  symbols := Symbols.Table.parse?
  hostClass := HostClass.symbols

variable {m : Type → Type} [Monad m]

def performWith (fs : Access m) : Except Failure Options → m (Except Failure Outcome)
  | .error failure => return .error failure
  | .ok options => (perform Readers.standard fs options).run

/-- Run the command on its arguments. What is wrong with these is reported before
any file is looked at. -/
def run (fs : Access m) (texts : List Text) : m Report := do
  match Arguments.parse texts with
  | .error rejection => return rejection.report
  | .ok arguments =>
    return reportOf (arguments.has .verbose) (← performWith fs (Options.ofArguments arguments))

end Command

end ComponentExtraction
