import ComponentExtraction.Command.Report

/-!
# The command

Access to the files of the operating system and to the terminal, and the entry
point of the program.
-/

namespace ComponentExtraction

namespace Terminal

open Workspace (Access FileProblem)

def problemOf : IO.Error → FileProblem
  | .noFileOrDirectory _ _ _ => .missing
  | .permissionDenied _ _ _ => .denied
  | error => .other (toString error).toList

def attempt {α : Type} (action : IO α) : IO (Except FileProblem α) := do
  match ← action.toBaseIO with
  | .ok value => return .ok value
  | .error error => return .error (problemOf error)

def readText (path : String) : IO (Except FileProblem Text) := do
  match ← attempt (IO.FS.readBinFile path) with
  | .error problem => return .error problem
  | .ok bytes =>
    match String.fromUTF8? bytes with
    | some text => return .ok text.toList
    | none => return .error .notText

def isFile (path : String) : IO Bool := do
  return (← attempt (IO.FS.readBinFile path)).toOption.isSome

/-- Whether there is something that can be opened, or that refuses it. -/
def isPresent (path : String) : IO Bool := do
  match ← attempt (IO.FS.Handle.mk path .read) with
  | .ok _ => return true
  | .error problem => return problem = .denied

def isReadOnly (path : String) : IO (Except FileProblem Bool) := do
  match ← attempt (IO.FS.Handle.mk path .readWrite) with
  | .ok _ => return .ok false
  | .error .denied => return .ok true
  | .error problem => return .error problem

def access : Access IO where
  read path := readText (String.ofList path)
  isFile path := isFile (String.ofList path)
  isPresent path := isPresent (String.ofList path)
  isReadOnly path := isReadOnly (String.ofList path)
  write path text := attempt (IO.FS.writeFile (String.ofList path) (String.ofList text))
  put text := attempt do (← IO.getStderr).putStr (String.ofList text)
  flush := attempt do (← IO.getStderr).flush
  readLine := attempt do return (← (← IO.getStdin).getLine).toList

end Terminal

end ComponentExtraction

def main (arguments : List String) : IO UInt32 := do
  let report ← ComponentExtraction.Command.run ComponentExtraction.Terminal.access
    (arguments.map String.toList)
  (← IO.getStdout).putStr (String.ofList report.output)
  (← IO.getStderr).putStr (String.ofList report.errors)
  return report.code.toUInt32
