import ComponentExtraction.Sequence.Sorted
import ComponentExtraction.Workspace.Path

/-!
# Stores of files

A store is a tree of files, directories and symbolic links below one root, together
with the directory that a program runs in. A relative path starts from that directory
and an absolute one from the root. Paths are followed part by part: through links,
and out of every directory but the root by a double dot.

What is stored does not decide alone whether an operation succeeds. A write to a
store succeeds if its place can hold a file, whatever the mark of a file there; the
refusals of an operating system are added where stores are used.
-/

namespace ComponentExtraction

namespace Workspace

/-- Why the operating system refuses an operation. -/
inductive FileProblem where
  | missing
  | notDirectory
  | isDirectory
  | nameTooLong
  | linkLoop
  | denied
  /-- A path has a character in it that ends texts for the operating system. -/
  | endInside
  | notText
  | other (message : Text)
deriving DecidableEq, Repr

namespace FileProblem

def message : FileProblem → Text
  | missing => "No such file or directory (os error 2)".toList
  | notDirectory => "Not a directory (os error 20)".toList
  | isDirectory => "Is a directory (os error 21)".toList
  | nameTooLong => "File name too long (os error 36)".toList
  | linkLoop => "Too many levels of symbolic links (os error 40)".toList
  | denied => "Permission denied (os error 13)".toList
  | endInside => "file name contained an unexpected NUL byte".toList
  | notText => "stream did not contain valid UTF-8".toList
  | other message => message

end FileProblem

/-- What a file holds. Only bytes that encode no text are held as bytes, so a
content has one form. -/
inductive Content where
  | text (text : Text)
  | bytes (bytes : ByteArray) (noText : String.fromUTF8? bytes = none)

structure File where
  content : Content
  isReadOnly : Bool := false

/-- The names of the directories on the way from the root to a place, and its own. -/
abbrev Location := List Text

/-- Files, links and directories at their places. A directory is also there when
something is in it; the current directory always is. -/
structure Store where
  start : Location := ["workspace".toList]
  files : List (Location × File) := []
  /-- Symbolic links, each with the path that it stands for. -/
  links : List (Location × Text) := []
  directories : List Location := []
  closed : List Location := []

namespace Store

def find? (location : Location) (files : List (Location × File)) : Option File :=
  (files.find? fun entry => entry.1 = location).map (·.2)

def file? (s : Store) (location : Location) : Option File :=
  find? location s.files

def link? (s : Store) (location : Location) : Option Text :=
  (s.links.find? fun entry => entry.1 = location).map (·.2)

/-- Directories such that every other one lies on the way to one of them. -/
def innermost (s : Store) : List Location :=
  s.start :: s.directories ++ s.files.map (fun entry => entry.1.dropLast) ++
    s.links.map fun entry => entry.1.dropLast

def isDirectory (s : Store) (location : Location) : Bool :=
  s.innermost.any fun directory => location.isPrefixOf directory

def nameLimit : Nat :=
  255

def pathLimit : Nat :=
  4095

def linkLimit : Nat :=
  40

/-- Where one part of a path leads: to a place, or to a link, whose own parts are
followed from another place on. -/
inductive Turn where
  | place (location : Location)
  | link (origin : Location) (parts : List Text)
deriving DecidableEq

def enter (s : Store) (here : Location) (name : Text) : Turn :=
  match s.link? (here ++ [name]) with
  | none => .place (here ++ [name])
  | some target => .link (if Path.isAbsolute target then [] else here) (Path.parts target)

/-- Take the turn of one part of a path. An empty part only asks for a directory,
every other one looks something up in it; the root is above itself. -/
def turn (s : Store) (here : Location) (part : Text) : Except FileProblem Turn :=
  if (s.file? here).isSome then .error .notDirectory
  else if !s.isDirectory here then .error .missing
  else if part = [] then .ok (.place here)
  else if here ∈ s.closed then .error .denied
  else if part = ".".toList then .ok (.place here)
  else if part = "..".toList then .ok (.place here.dropLast)
  else if nameLimit < part.byteLength then .error .nameTooLong
  else .ok (s.enter here part)

/-- Follow the parts of a path up to its first link, from where `jump` goes on. -/
def walk (s : Store) (jump : Location → List Text → Except FileProblem Location)
    (here : Location) : List Text → Except FileProblem Location
  | [] => .ok here
  | part :: more =>
    match s.turn here part with
    | .error problem => .error problem
    | .ok (.place next) => s.walk jump next more
    | .ok (.link origin parts) => jump origin (parts ++ more)

/-- Follow the parts of a path through a number of links at most. Each link
uses up one of them, so links that lead in a circle come to an end. -/
def follow (s : Store) : Nat → Location → List Text → Except FileProblem Location
  | 0 => s.walk fun _ _ => .error .linkLoop
  | links + 1 => s.walk (s.follow links)

/-- The place that a path leads to, whether or not something is there. Every part of
the path but the last has to be there. -/
def resolve (s : Store) (path : Text) : Except FileProblem Location :=
  if '\x00' ∈ path then .error .endInside
  else if path = [] then .error .missing
  else if pathLimit < path.byteLength then .error .nameTooLong
  else s.follow linkLimit (if Path.isAbsolute path then [] else s.start) (Path.parts path)

def lookup (s : Store) (path : Text) : Except FileProblem File :=
  match s.resolve path with
  | .error problem => .error problem
  | .ok location =>
    match s.file? location with
    | some file => .ok file
    | none => if s.isDirectory location then .error .isDirectory else .error .missing

def read (s : Store) (path : Text) : Except FileProblem Text :=
  match s.lookup path with
  | .error problem => .error problem
  | .ok file =>
    match file.content with
    | .text text => .ok text
    | .bytes _ _ => .error .notText

def isFile (s : Store) (path : Text) : Bool :=
  (s.lookup path).toOption.isSome

/-- Whether a path leads to a file or a directory, as far as that can be found out:
a path that cannot be followed leads to nothing. -/
def isPresent (s : Store) (path : Text) : Bool :=
  match s.lookup path with
  | .ok _ => true
  | .error problem => problem = .isDirectory

/-- Whether a path leads to a file that is marked read-only. Directories are not
marked. -/
def isReadOnly (s : Store) (path : Text) : Except FileProblem Bool :=
  match s.lookup path with
  | .ok file => .ok file.isReadOnly
  | .error .isDirectory => .ok false
  | .error problem => .error problem

/-- The files with one text changed, or a file added. A file keeps its mark. -/
def putText (location : Location) (text : Text) :
    List (Location × File) → List (Location × File)
  | [] => [(location, ⟨.text text, false⟩)]
  | entry :: entries =>
    if entry.1 = location then (location, { entry.2 with content := .text text }) :: entries
    else entry :: putText location text entries

theorem find?_putText_self (location : Location) (text : Text) (files : List (Location × File)) :
    find? location (putText location text files) =
      some ⟨.text text, ((find? location files).map File.isReadOnly).getD false⟩ := by
  induction files with
  | nil => simp [putText, find?]
  | cons entry entries ih =>
    rw [putText]
    split
    · next same => simp [find?, same]
    · next other => simpa [find?, other] using ih

theorem find?_putText_of_ne {location other : Location} (different : other ≠ location)
    (text : Text) (files : List (Location × File)) :
    find? other (putText location text files) = find? other files := by
  induction files with
  | nil => simp [putText, find?, different.symm]
  | cons entry entries ih =>
    rw [putText]
    split
    · next same => simp [find?, same, different.symm]
    · by_cases here : entry.1 = other
      · simp [find?, here]
      · simpa [find?, here] using ih

/-- Why nothing can be made at a path that leads nowhere. With a slash at its end it
is refused as a directory, once there is a directory around its name. -/
def refusal (s : Store) (path : Text) (problem : FileProblem) : FileProblem :=
  let name := ((path.reverse.dropWhile (· = '/')).takeWhile (· ≠ '/')).reverse
  let around := ((path.reverse.dropWhile (· = '/')).dropWhile (· ≠ '/')).reverse
  if path.getLast? ≠ some '/' || name = ".".toList || name = "..".toList then problem
  else
    match s.resolve (if around = [] then ".".toList else around) with
    | .error problem => problem
    | .ok _ => .isDirectory

/-- Write a text at the place that a path leads to. The file is made if there is none,
but no directory is made for it. -/
def write (s : Store) (path text : Text) : Except FileProblem Store :=
  match s.resolve path with
  | .error problem => .error (s.refusal path problem)
  | .ok location =>
    if s.isDirectory location then .error .isDirectory
    else .ok { s with files := putText location text s.files }

/-- Add a file below the current directory, with all directories on the way to it. -/
def add (s : Store) (path text : Text) (isReadOnly : Bool) : Store :=
  { s with files := s.files ++ [(s.start ++ Path.parts path, ⟨.text text, isReadOnly⟩)] }

def isInOrder : Text → Text → Bool
  | [], _ => true
  | _ :: _, [] => false
  | c :: cs, d :: ds => if c = d then isInOrder cs ds else c < d

/-- A file below the current directory that holds a text, with its relative path. -/
def listed? (s : Store) (entry : Location × File) : Option (Text × Text) :=
  match entry.2.content with
  | .bytes _ _ => none
  | .text text =>
    if s.start.isPrefixOf entry.1 then
      some (Text.joinWith ['/'] (entry.1.drop s.start.length), text)
    else none

def listing (s : Store) : List (Text × Text) :=
  Sequence.sort (fun e f => isInOrder e.1 f.1) (s.files.filterMap s.listed?)

end Store

end Workspace

end ComponentExtraction
