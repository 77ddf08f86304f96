import ComponentExtraction.Component.Settings
import ComponentExtraction.Json.Reader

/-!
# Settings in JSON

Settings are a record of texts; what is missing keeps its default.
-/

namespace ComponentExtraction

namespace Component

namespace Settings

def text? (default : Text) : Option Json → Option Text
  | none => some default
  | some value => value.text?

def ofJson? (j : Json) : Option Settings :=
  let default : Settings := {}
  (j.record?
    ["selectorPrefix", "indent", "templateFileSuffix", "classFileSuffix", "unknownType"]).bind
    fun values =>
      match values with
      | [selector, indent, templateFile, classFile, unknown] =>
        (text? default.selectorPrefix selector).bind fun selector =>
          (text? default.indent indent).bind fun indent =>
            (text? default.templateFileSuffix templateFile).bind fun templateFile =>
              (text? default.classFileSuffix classFile).bind fun classFile =>
                (text? default.unknownType unknown).map fun unknown =>
                  ⟨selector, indent, templateFile, classFile, unknown⟩
      | _ => none

def parse? (text : Text) : Option Settings :=
  (Json.parse? text).bind ofJson?

end Settings

end Component

end ComponentExtraction
