import ComponentExtraction.Component.Settings
import ComponentExtraction.Fragment.Scan
import ComponentExtraction.Text.Edit

/-!
# Texts of a new component

The tag that stands for the fragment in the host, the class of the new component
and its template. All three follow one order of the inputs.
-/

namespace ComponentExtraction

namespace Component

open Fragment

/-- The inputs of a component, each name once. Those of two-way bindings
come first, and of several inputs of one name the first one counts. -/
def inputs (bindings : List Binding) : List InputField :=
  Sequence.distinctBy InputField.name
    ((bindings.filter Binding.isTwoWay ++ bindings.filter fun b => !b.isTwoWay).flatMap
      Binding.fields)

def named? (h : Handler) : Option (Handler × Text) :=
  h.name.map fun name => (h, name)

/-- The handlers that a component forwards, each under its name. Of
several handlers of one name the first one in the fragment is kept. -/
def forwarded (handlers : List Handler) : List (Handler × Text) :=
  Sequence.distinctBy Prod.snd (handlers.filterMap named?)

/-- The handlers that are not forwarded although they differ from the one
forwarded under their name. -/
def shadowed (t : Template) (handlers : List Handler) : List (Handler × Text) :=
  (handlers.filterMap named?).filter fun entry =>
    (forwarded handlers).any fun kept =>
      kept.2 == entry.2 && !kept.1.action.same entry.1.action &&
        t.text kept.1.action != t.text entry.1.action

/-- A value in double quotes, or in single quotes if it has a
double quote. Nothing is done about a value that has both. -/
def quoteValue (value : Text) : Text :=
  if '\x22' ∈ value then '\x27' :: value ++ ['\x27'] else '\x22' :: value ++ ['\x22']

def inputAttribute (field : InputField) : Text :=
  (if field.isTwoWay then " [(".toList ++ field.name ++ ")]=".toList
    else " [".toList ++ field.name ++ "]=".toList) ++ quoteValue field.body

def eventAttribute (name handler : Text) : Text :=
  " (".toList ++ name ++ ")=".toList ++ quoteValue handler

/-- The tag that stands for the fragment in the host: it passes the inputs of
the component, in their order, and then handles the events that it forwards. -/
def invocationTag (t : Template) (settings : Settings) (kebab : Text) (scan : Scan) : Text :=
  let selector := settings.selector kebab
  '<' :: selector ++ (inputs scan.bindings).flatMap inputAttribute
    ++ (forwarded scan.handlers).flatMap
      (fun entry => eventAttribute entry.2 (t.text entry.1.action))
    ++ "></".toList ++ selector ++ ">".toList

def importedNames (scan : Scan) : List Text :=
  "Component".toList :: (if scan.bindings.isEmpty then [] else ["Input".toList])
    ++ (if (forwarded scan.handlers).isEmpty && !scan.bindings.any Binding.isTwoWay then []
      else ["Output".toList, "EventEmitter".toList])

def inputDeclaration (field : InputField) : Text :=
  "@Input() ".toList ++ field.name ++
    (match field.type with
      | some type => ": ".toList ++ type
      | none => []) ++ ";".toList

/-- The class members of an input. A two-way input is also an
output, which emits the values that it changes to. -/
def inputMembers (settings : Settings) (field : InputField) : Text :=
  (if field.isTwoWay then
      settings.indent ++ "@Output() ".toList ++ field.name ++ "Change = new EventEmitter<".toList
        ++ field.type.getD settings.unknownType ++ ">();\n".toList
    else [])
    ++ settings.indent ++ inputDeclaration field ++ "\n".toList

/-- The class members of an event: the output and the method that emits it. -/
def eventMembers (settings : Settings) (name : Text) : Text :=
  settings.indent ++ "@Output(\"".toList ++ name ++ "\") ".toList ++ name
    ++ "Event = new EventEmitter<void>();\n".toList
    ++ settings.indent ++ name ++ "() \x7b\n".toList
    ++ settings.indent ++ settings.indent ++ "this.".toList ++ name ++ "Event.emit();\n".toList
    ++ settings.indent ++ "\x7d\n".toList

/-- The class of the new component, with the members of its inputs in front of
those of its events. -/
def classText (settings : Settings) (className kebab : Text) (scan : Scan) : Text :=
  "import \x7b ".toList ++ Text.joinWith ", ".toList (importedNames scan)
    ++ " \x7d from '@angular/core';\n\n@Component(\x7b\n".toList
    ++ settings.indent ++ "selector: '".toList ++ settings.selector kebab ++ "',\n".toList
    ++ settings.indent ++ "templateUrl: './".toList ++ settings.templateFileName kebab
    ++ "',\n".toList
    ++ settings.indent ++ "styles: []\n\x7d)\nexport class ".toList ++ className
    ++ " \x7b\n".toList
    ++ (inputs scan.bindings).flatMap (inputMembers settings)
    ++ (forwarded scan.handlers).flatMap (fun entry => eventMembers settings entry.2)
    ++ "\x7d\n".toList

def callEdit? (call : Occurrence) : Option Edit :=
  call.node.calleeName?.map fun name => ⟨call.span, name⟩

/-- The handler put behind a two-way binding, which emits what it changes. -/
def changeHandler (property field : Text) : Text :=
  " (".toList ++ property ++ "Change)=\"".toList ++ field ++ "Change.emit($event)\"".toList

def changeEdit? (t : Template) (b : Binding) : Except ExtractionError (Option Edit) :=
  match b.bananaBox with
  | none => .ok none
  | some box =>
    match b.exposedField t with
    | .error e => .error e
    | .ok field =>
      match box.kind with
      | .bananaBox property =>
        .ok (some (Edit.insertion box.span.stop (changeHandler property field.name)))
      | _ => .ok none

/-- The edits of all two-way bindings. The first binding without an
input fails for all of them, as nothing could be named after it. -/
def changeEdits (t : Template) : List Binding → Except ExtractionError (List Edit)
  | [] => .ok []
  | b :: bindings =>
    match changeEdit? t b with
    | .error e => .error e
    | .ok edit =>
      match changeEdits t bindings with
      | .error e => .error e
      | .ok edits => .ok (edit.toList ++ edits)

def templateEdits (t : Template) (bindings : List Binding) : Except ExtractionError (List Edit) :=
  match changeEdits t bindings with
  | .error e => .error e
  | .ok changes => .ok ((bindings.flatMap Binding.calls).filterMap callEdit? ++ changes)

def editedRoots? (source : Text) (edits : List Edit) : List Occurrence → Option Text
  | [] => some []
  | root :: roots =>
    (Edit.applyAll? source root.span edits).bind fun text =>
      (editedRoots? source edits roots).map fun more => text ++ more

/-- The template of the new component: the fragment with names in the place of
calls and with a handler behind every two-way attribute. -/
def templateText (t : Template) (roots : List Occurrence) (bindings : List Binding) :
    Except ExtractionError Text :=
  match templateEdits t bindings with
  | .error e => .error e
  | .ok edits =>
    match editedRoots? t.source edits roots with
    | some text => .ok text
    | none => .error .cutInsideCharacter

end Component

end ComponentExtraction
