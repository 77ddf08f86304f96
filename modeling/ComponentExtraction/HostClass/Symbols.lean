import ComponentExtraction.HostClass.Statement
import ComponentExtraction.Symbols.Table
import ComponentExtraction.Text.Blank

/-!
# Symbols of a class

The symbols that a template sees of the first class that a module declares. A
module that cannot be read declares no symbols.
-/

namespace ComponentExtraction

namespace HostClass

def trimmedAt (source : Text) (span : Span) : Option Text :=
  (Text.slice? source span.start span.stop).map Text.trim

/-- The type that the form of a value tells: the class of a construction is
written up to the first parenthesis. -/
def typeOfValue (source : Text) : Value → Option Text
  | .string => some "string".toList
  | .boolean => some "boolean".toList
  | .numeral => some "number".toList
  | .signed => some "number".toList
  | .array _ => some "any[]".toList
  | .construction span =>
    (Text.slice? source span.start span.stop).map fun text =>
      Text.trim (text.takeWhile (· != '('))
  | _ => none

def typeText (source : Text) : TypeSource → Option Text
  | .missing => none
  | .written span => trimmedAt source span
  | .value form => typeOfValue source form

def declareParameters (source : Text) (parameters : List Parameter) (table : Symbols.Table) :
    Symbols.Table :=
  parameters.foldl (fun table parameter =>
    match parameter.name with
    | some name =>
      if parameter.isField then table.declareField name (typeText source parameter.type) else table
    | none => table) table

def declareMember (source : Text) (table : Symbols.Table) : Member → Symbols.Table
  | .field name type => table.declareField name (typeText source type)
  | .method name => table.addMethod name
  | .constructor parameters => declareParameters source parameters table
  | .hidden => table

/-- The reader of each rule, for what is nested at most a number of times. -/
def rules : Nat → Rules
  | 0, _ => failure
  | depth + 1, rule =>
    match rule with
    | .type => type (rules depth)
    | .assignment allowsResult => assignment (rules depth) allowsResult
    | .unary => unary (rules depth)
    | .leftHand => leftHand (rules depth)
    | .callee => callee (rules depth)
    | .binding => binding (rules depth)
    | .statement => statement (rules depth)

def moduleStatements (self : Rules) : Reader (List Declared) :=
  Reader.collect do
    if ← Reader.nextIs fun token => token.lexeme == .finish then return none
    else return some (← self .statement)

/-- What the statements of a module declare. The nesting is bounded by the length
of the source, of which every level uses up something. -/
def declarations? (source : Text) : Option (List Declared) :=
  (moduleStatements (rules (8 * (source.length + 1))) { awaits := true }
    (Input.start source)).map (·.1)

/-- The symbols that a template sees of the first class of a module.
A module that cannot be read has none, like one without a class. -/
def symbols (source : Text) : Symbols.Table :=
  match (declarations? source).bind fun declared => declared.findSome? id with
  | some members => members.foldl (declareMember source) {}
  | none => {}

end HostClass

end ComponentExtraction
