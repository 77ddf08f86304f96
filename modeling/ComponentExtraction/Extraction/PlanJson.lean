import ComponentExtraction.Extraction.Plan
import ComponentExtraction.Json.Basic

/-!
# Plans in JSON
-/

namespace ComponentExtraction

namespace Fragment.InputField

def toJson (field : InputField) : Json :=
  .object [("fieldName".toList, .string field.name), ("fieldType".toList, Json.ofText? field.type),
    ("originalBody".toList, .string field.body), ("isTwoWay".toList, .bool field.isTwoWay)]

end Fragment.InputField

namespace Span

def toJson (s : Span) : Json :=
  .object [("start".toList, Json.ofNat s.start), ("end".toList, Json.ofNat s.stop)]

end Span

namespace Plan

def toJson (p : Plan) : Json :=
  .object [("componentName".toList, .string p.componentName),
    ("className".toList, .string p.className),
    ("kebabName".toList, .string p.kebabName),
    ("selector".toList, .string p.selector),
    ("classFileName".toList, .string p.classFileName),
    ("templateFileName".toList, .string p.templateFileName),
    ("invocationText".toList, .string p.invocationText),
    ("classText".toList, .string p.classText),
    ("templateText".toList, .string p.templateText),
    ("edit".toList, .object [("span".toList, p.edit.span.toJson),
      ("replacement".toList, .string p.edit.replacement)]),
    ("inputs".toList, .array (p.inputs.map Fragment.InputField.toJson)),
    ("events".toList, .array (p.events.map Json.string))]

end Plan

end ComponentExtraction
