import ComponentExtraction.Component.Rendering
import ComponentExtraction.Markup.Nesting

/-!
# Extraction plans

A plan says everything an extraction will write before anything is written: the
names and texts of the new component and the one edit of the host's template.
-/

namespace ComponentExtraction

open Fragment

/-- Everything an extraction produces: names, the texts of two
new files, and the edit of the host. -/
structure Plan where
  componentName : Text
  className : Text
  kebabName : Text
  selector : Text
  classFileName : Text
  templateFileName : Text
  invocationText : Text
  classText : Text
  templateText : Text
  edit : Edit
  inputs : List InputField
  events : List Text
deriving DecidableEq, Repr

namespace Plan

def applyTo? (p : Plan) (source : Text) : Option Text :=
  p.edit.applyTo? source

end Plan

namespace Fragment

def spanOf? (roots : List Occurrence) : Option Span :=
  match roots, roots.getLast? with
  | first :: _, some last => some ⟨first.span.start, last.span.stop⟩
  | _, _ => none

end Fragment

namespace Extraction

def assemble (t : Template) (roots : List Occurrence) (name : Text) (span : Span)
    (host : Symbols.Table) (settings : Component.Settings) : Except ExtractionError Plan :=
  let kebab := Component.kebab name
  let className := name ++ "Component".toList
  let scan := Fragment.scan t roots host
  let tag := Component.invocationTag t settings kebab scan
  match Component.templateText t roots scan.bindings with
  | .error e => .error e
  | .ok templateText =>
    .ok
      { componentName := name
        className
        kebabName := kebab
        selector := settings.selector kebab
        classFileName := settings.classFileName kebab
        templateFileName := settings.templateFileName kebab
        invocationText := tag
        classText := Component.classText settings className kebab scan
        templateText
        edit := ⟨span, tag⟩
        inputs := Component.inputs scan.bindings
        events := (Component.forwarded scan.handlers).map Prod.snd }

/-- The plan of turning sibling nodes into a component. The name is looked at
first, so a fragment is rendered under accepted names only. -/
def ofRoots (t : Template) (roots : List Occurrence) (name : Text) (host : Symbols.Table)
    (settings : Component.Settings) : Except ExtractionError Plan :=
  match Component.normalizeName name with
  | .error problem => .error (.invalidComponentName name problem)
  | .ok normalized =>
    match Fragment.spanOf? roots with
    | none => .error .emptySelection
    | some span => assemble t roots normalized span host settings

def contextReach : Nat :=
  20

/-- Whether a diagnostic keeps a span from being extracted. -/
def blocks (span : Span) (d : Diagnostic) : Bool :=
  span.covers d.span && d.severity == .error

def reportOf (t : Template) (d : Diagnostic) : ExtractionError :=
  match d.location? t.source, d.inContext? t.source contextReach with
  | some location, some quoted =>
    .parse (t.url ++ ':' :: location.render ++ ": ".toList ++ quoted)
  | _, _ => .cutInsideCharacter

/-- The first problem inside the roots that keeps them from being
extracted. Problems in other parts of the template do not matter. -/
def blockingError? (p : Markup.ParsedTemplate) (roots : List Occurrence) :
    Option ExtractionError :=
  (Fragment.spanOf? roots).bind fun span =>
    (p.diagnostics.find? (blocks span)).map (reportOf p.template)

/-- The plan of turning a selection of a source into a component. Errors outside
the selection are tolerated. -/
def ofSelection (source url : Text) (start stop : Nat) (name : Text) (host : Symbols.Table)
    (settings : Component.Settings) : Except ExtractionError Plan :=
  let parsed := Markup.parse source url
  match Fragment.select parsed.template start stop with
  | .error e => .error e
  | .ok roots =>
    match blockingError? parsed roots with
    | some e => .error e
    | none => ofRoots parsed.template roots name host settings

end Extraction

end ComponentExtraction
