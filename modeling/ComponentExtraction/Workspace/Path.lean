import ComponentExtraction.Text.Basic

/-!
# Paths

A path is a text whose parts are divided by slashes (`parts`, with the empty ones).
Taking a path apart keeps the text of what is left as it was written; slashes and
single dots at the end of a path say nothing.
-/

namespace ComponentExtraction

namespace Path

def parts : Text → List Text
  | [] => [[]]
  | c :: cs =>
    if c = '/' then [] :: parts cs
    else
      match parts cs with
      | [] => [[c]]
      | part :: more => (c :: part) :: more

/-- A path, read from its end, without the slashes and single dots there. The
slash of the root stays, and so does a dot that is the whole path. -/
def trimBackward : Text → Text
  | '/' :: rest => if rest.isEmpty then ['/'] else trimBackward rest
  | '.' :: '/' :: rest => if rest.isEmpty then ['/'] else trimBackward rest
  | path => path

def parent (path : Text) : Text :=
  let backward := trimBackward path.reverse
  if backward = ['/'] then []
  else (trimBackward (backward.dropWhile (· != '/'))).reverse

/-- The last part, if it names something: the steps to the same directory and to
the one above are no names. -/
def fileName? (path : Text) : Option Text :=
  let name := ((trimBackward path.reverse).takeWhile (· != '/')).reverse
  if name = [] || name = ".".toList || name = "..".toList then none else some name

def isAbsolute (path : Text) : Bool :=
  path.head? = some '/'

/-- A path continued inside a directory. One that starts at the root stands for
itself. -/
def join (directory path : Text) : Text :=
  if isAbsolute path then path
  else if directory.isEmpty || directory.getLast? = some '/' then directory ++ path
  else directory ++ '/' :: path

def sibling (path name : Text) : Text :=
  join (parent path) name

end Path

end ComponentExtraction
