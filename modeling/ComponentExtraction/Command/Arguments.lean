import ComponentExtraction.Command.Number

/-!
# Arguments of the command

The arguments are read from left to right. A setting takes a value, attached to
it or in the next argument; a switch takes none. What is neither belongs to the
setting before it that still lacks its value, or else is the template. Behind a
pair of hyphens everything is the template.

A setting is settled when the next argument that is not its value has been
recognised, so an argument that is not known is told before a problem with the
setting in front of it.
-/

namespace ComponentExtraction

namespace Command

inductive Setting where
  | start
  | stop
  | lineRange
  | name
  | symbols
  | component
  | config
deriving DecidableEq, Repr

inductive Switch where
  | dryRun
  | force
  | verbose
deriving DecidableEq, Repr

inductive Keyword where
  | setting (setting : Setting)
  | switch (switch : Switch)
  | help
  | version
deriving DecidableEq, Repr

namespace Keyword

def longNames : List (String × Keyword) :=
  [("start", .setting .start), ("end", .setting .stop), ("line-range", .setting .lineRange),
    ("name", .setting .name), ("symbols", .setting .symbols),
    ("component", .setting .component), ("config", .setting .config),
    ("dry-run", .switch .dryRun), ("force", .switch .force), ("verbose", .switch .verbose),
    ("help", .help), ("version", .version)]

def shortNames : List (Char × Keyword) :=
  [('n', .setting .name), ('c', .setting .config), ('f', .switch .force),
    ('v', .switch .verbose), ('h', .help), ('V', .version)]

def ofLong? (name : Text) : Option Keyword :=
  (longNames.find? fun entry => entry.1.toList = name).map (·.2)

def ofShort? (c : Char) : Option Keyword :=
  (shortNames.find? fun entry => entry.1 = c).map (·.2)

end Keyword

/-- Why arguments are rejected. Questions for help are rejections too: nothing
else is done then. -/
inductive Rejection where
  | missingRequired
  | unknownArgument
  | conflict
  | invalidNumber
  | missingValue
  | unexpectedValue
  | helpRequested
  | versionRequested
deriving DecidableEq, Repr

structure Arguments where
  template : Option Text := none
  settings : List (Setting × Text) := []
  switches : List Switch := []
deriving DecidableEq, Repr

namespace Arguments

def value? (a : Arguments) (setting : Setting) : Option Text :=
  (a.settings.find? fun entry => entry.1 = setting).map (·.2)

def has (a : Arguments) (switch : Switch) : Bool :=
  switch ∈ a.switches

def number? (a : Arguments) (setting : Setting) : Option Nat :=
  (a.value? setting).bind fun text => (number text).toOption

/-- Whether a value suits a setting: offsets are numbers. -/
def suits (setting : Setting) (text : Text) : Bool :=
  match setting with
  | .start | .stop => (number text).toOption.isSome
  | _ => true

def put (a : Arguments) (setting : Setting) (text : Text) : Except Rejection Arguments :=
  if (a.value? setting).isSome then .error .conflict
  else if suits setting text then .ok { a with settings := a.settings ++ [(setting, text)] }
  else .error .invalidNumber

def turnOn (a : Arguments) (switch : Switch) : Except Rejection Arguments :=
  if a.has switch then .error .conflict
  else .ok { a with switches := a.switches ++ [switch] }

end Arguments

/-- Arguments read so far, and the setting that came last, with its value if that
was met, as long as it is not settled. -/
structure Reading where
  arguments : Arguments := {}
  pending : Option (Setting × Option Text) := none
deriving DecidableEq, Repr

namespace Reading

def settle (r : Reading) : Except Rejection Arguments :=
  match r.pending with
  | none => .ok r.arguments
  | some (_, none) => .error .missingValue
  | some (setting, some text) => r.arguments.put setting text

def setting (r : Reading) (setting : Setting) (attached : Option Text) :
    Except Rejection Reading := do
  let arguments ← r.settle
  match attached with
  | some text => return ⟨← arguments.put setting text, none⟩
  | none => return ⟨arguments, some (setting, none)⟩

def plain (r : Reading) (keyword : Keyword) : Except Rejection Reading := do
  let arguments ← r.settle
  match keyword with
  | .setting setting => return ⟨arguments, some (setting, none)⟩
  | .switch switch => return ⟨← arguments.turnOn switch, none⟩
  | .help => throw .helpRequested
  | .version => throw .versionRequested

def long (r : Reading) (text : Text) : Except Rejection Reading :=
  let name := text.takeWhile (· != '=')
  let attached := (text.dropWhile (· != '=')).tail?
  match Keyword.ofLong? name with
  | none => .error .unknownArgument
  | some (.setting setting) => r.setting setting attached
  | some keyword => if attached.isSome then .error .unexpectedValue else r.plain keyword

/-- Read letters behind one hyphen. What follows the letter of a setting is its
value; an equals sign in front of that is left out. -/
def short (r : Reading) : Text → Except Rejection Reading
  | [] => .ok r
  | c :: cs =>
    match Keyword.ofShort? c with
    | none => .error .unknownArgument
    | some (.setting setting) =>
      match cs with
      | [] => r.setting setting none
      | '=' :: text => r.setting setting (some text)
      | text => r.setting setting (some text)
    | some keyword => (r.plain keyword).bind fun r => r.short cs

def positional (r : Reading) (text : Text) : Except Rejection Reading :=
  if r.arguments.template.isSome then .error .unknownArgument
  else do
    let arguments ← r.settle
    return ⟨{ arguments with template := some text }, none⟩

def operand (r : Reading) (text : Text) : Except Rejection Reading :=
  match r.pending with
  | some (setting, none) => .ok { r with pending := some (setting, some text) }
  | _ => r.positional text

def readAll (r : Reading) (isEscaped : Bool) : List Text → Except Rejection Arguments
  | [] => r.settle
  | text :: more =>
    if isEscaped then (r.positional text).bind fun r => r.readAll true more
    else
      match text with
      | ['-', '-'] => r.readAll true more
      | '-' :: '-' :: rest => (r.long rest).bind fun r => r.readAll false more
      | ['-'] => (r.operand text).bind fun r => r.readAll false more
      | '-' :: rest => (r.short rest).bind fun r => r.readAll false more
      | _ => (r.operand text).bind fun r => r.readAll false more

end Reading

namespace Arguments

/-- Lines exclude offsets, offsets come in pairs, and there is a template. What
is excluded is told before what is missing. -/
def check (a : Arguments) : Except Rejection Arguments :=
  let isGiven (setting : Setting) := (a.value? setting).isSome
  if isGiven .lineRange && (isGiven .start || isGiven .stop) then .error .conflict
  else if a.template.isNone || isGiven .start != isGiven .stop then .error .missingRequired
  else .ok a

def parse (texts : List Text) : Except Rejection Arguments :=
  (Reading.readAll {} false texts).bind check

end Arguments

end Command

end ComponentExtraction
