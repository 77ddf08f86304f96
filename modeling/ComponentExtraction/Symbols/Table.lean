import ComponentExtraction.Sequence.Entries

/-!
# Symbols of the host component

What a name in a template denotes. Fields of the host are known with or without
a type; methods are known so that they are not taken for fields.
-/

namespace ComponentExtraction

namespace Symbols

structure Query where
  name : Text
  qualifier : Option Text
  text : Text
deriving DecidableEq, Repr

namespace Query

/-- Whether the reference can denote a member of the host: it has no receiver, or
the host itself. -/
def isMember (q : Query) : Bool :=
  match q.qualifier with
  | none => true
  | some receiver => receiver = "this".toList

end Query

/-- What a reference denotes. -/
inductive Symbol where
  | field (name : Text) (type : Option Text)
  | local (name : Text)
  | other (name : Text)
deriving DecidableEq, Repr

/-- The known symbols, in the order in which they became known. -/
structure Table where
  fields : List (Text × Option Text) := []
  /-- Inferred types of names that the host does not declare. -/
  locals : List (Text × Text) := []
  methods : List Text := []
deriving DecidableEq, Repr

namespace Table

def empty : Table :=
  {}

def putField (name : Text) (type : Option Text) (t : Table) : Table :=
  { t with fields := Entries.put name type t.fields }

def putLocal (name type : Text) (t : Table) : Table :=
  { t with locals := Entries.put name type t.locals }

def addMethod (name : Text) (t : Table) : Table :=
  { t with methods := Entries.addName name t.methods }

/-- Declare a field once more: the first type known for it stays. -/
def declareField (name : Text) (type : Option Text) (t : Table) : Table :=
  match Entries.get? name t.fields with
  | some (some _) => t
  | _ => t.putField name type

/-- Add what another table knows about the host; fields that are known stay. -/
def extend (t other : Table) : Table :=
  { t with
    fields := other.fields.foldl
      (fun fields entry => Entries.putNew entry.1 entry.2 fields) t.fields
    methods := other.methods.foldl (fun methods name => Entries.addName name methods) t.methods }

def resolve (t : Table) (q : Query) : Option Symbol :=
  if q.isMember then
    match Entries.get? q.name t.fields with
    | some type => some (.field q.name type)
    | none => if q.name ∈ t.methods then some (.other q.name) else none
  else none

def inferType (t : Table) (q : Query) : Option Text :=
  Entries.get? q.name t.locals

end Table

/-- Inference spells an unknown type as a star, declarations as `any`. -/
def normalizeType (type : Text) : Text :=
  if type = "*".toList then "any".toList else type

/-- The names declared in a fragment, in front of the symbols of its host. -/
structure Scope where
  locals : List Text
  host : Table
deriving Repr

namespace Scope

/-- What a reference denotes in the fragment: names declared there come first,
unless the reference has a receiver. -/
def resolve (s : Scope) (q : Query) : Option Symbol :=
  if q.qualifier.isNone && q.name ∈ s.locals then some (.local q.name) else s.host.resolve q

def inferType (s : Scope) (q : Query) : Option Text :=
  s.host.inferType q

end Scope

end Symbols

end ComponentExtraction
