import ComponentExtraction.Json.Reader
import ComponentExtraction.Symbols.Table

/-!
# Symbol tables in JSON

A table is a record of fields, locals and methods, each of which may be missing.
-/

namespace ComponentExtraction

namespace Symbols

namespace Table

def optional? {α : Type} (missing : α) (read? : Json → Option α) : Option Json → Option α
  | none => some missing
  | some value => read? value

def type? : Json → Option (Option Text)
  | .null => some none
  | .string type => some (some type)
  | _ => none

def entries? {α : Type} (read? : Json → Option α) (j : Json) : Option (List (Text × α)) :=
  j.members?.bind fun members =>
    (members.mapM fun entry => (read? entry.2).map fun value => (entry.1, value)).map Entries.ofList

def names? (j : Json) : Option (List Text) :=
  j.items?.bind fun items =>
    (items.mapM Json.text?).map fun names =>
      names.foldl (fun found name => Entries.addName name found) []

def ofJson? (j : Json) : Option Table :=
  (j.record? ["fields", "locals", "methods"]).bind fun values =>
    match values with
    | [fields, locals, methods] =>
      (optional? [] (entries? type?) fields).bind fun fields =>
        (optional? [] (entries? Json.text?) locals).bind fun locals =>
          (optional? [] names? methods).map fun methods => ⟨fields, locals, methods⟩
    | _ => none

def parse? (text : Text) : Option Table :=
  (Json.parse? text).bind ofJson?

end Table

end Symbols

end ComponentExtraction
