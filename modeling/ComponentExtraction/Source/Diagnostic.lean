import ComponentExtraction.Source.Span
import ComponentExtraction.Source.Location

/-!
# Diagnostics

What can be wrong with a template, where it was noticed, and how it is worded.
Parsing never stops at a problem: it records a diagnostic and goes on.
-/

namespace ComponentExtraction

/-- How much a problem matters: only errors stop an extraction. -/
inductive Severity where
  | warning
  | error
deriving DecidableEq, Repr

inductive Problem where
  | chainInBinding
  | pipeInAction
  | missingPipeName
  | assignmentInBinding
  | notAssignable
  | missingMemberName
  | missingCharacter (expected : Char)
  | unexpectedEnd
  | malformedToken (message : Text)
  | unexpectedToken (text : Text)
  | leftoverToken (text : Text)
  | missingVariableName
  | missingInitialValue
  | missingAlias
  | unclosedComment
  | unclosedStartTag (name : Text)
  | strayCharacterInTag (name : Text)
  | unterminatedEndTag (name : Text)
  | unterminatedValue (name : Text)
  | endTagOfVoidElement (name : Text)
  | unmatchedEndTag (name : Text)
  | unclosedElement (name : Text)
  | unterminatedInterpolation
deriving DecidableEq, Repr

namespace Problem

private def quoted (message : String) (name : Text) : Text :=
  message.toList ++ " \"".toList ++ name ++ "\"".toList

def message : Problem → Text
  | chainInBinding => "Binding expression cannot contain chained expression".toList
  | pipeInAction => "Cannot have a pipe in an action expression".toList
  | missingPipeName => "expected identifier or keyword".toList
  | assignmentInBinding => "Bindings cannot contain assignments".toList
  | notAssignable => "Expression is not assignable".toList
  | missingMemberName => "expected identifier for property access".toList
  | missingCharacter expected => "Missing expected ".toList ++ [expected]
  | unexpectedEnd => "Unexpected end of expression".toList
  | malformedToken message => message
  | unexpectedToken text => "Unexpected token ".toList ++ text
  | leftoverToken text => "Unexpected token '".toList ++ text ++ "'".toList
  | missingVariableName => "Expected identifier after 'let'".toList
  | missingInitialValue => "Expected identifier after '='".toList
  | missingAlias => "Expected identifier after 'as'".toList
  | unclosedComment => "Unexpected end of file, comment is not closed".toList
  | unclosedStartTag name => quoted "Unexpected end of file inside start tag" name
  | strayCharacterInTag name => quoted "Unexpected character in start tag" name
  | unterminatedEndTag name => quoted "Unterminated end tag" name
  | unterminatedValue name => quoted "Unterminated attribute value for" name
  | endTagOfVoidElement name => quoted "Void elements do not have end tags" name
  | unmatchedEndTag name => quoted "Unexpected closing tag" name
  | unclosedElement name => quoted "Unclosed element" name
  | unterminatedInterpolation => "Unterminated interpolation".toList

/-- Elements and interpolations left open are tolerated, all else is an error. -/
def severity : Problem → Severity
  | unclosedElement _ => .warning
  | unterminatedInterpolation => .warning
  | _ => .error

end Problem

/-- A problem and the part of the source it was noticed at. -/
structure Diagnostic where
  span : Span
  problem : Problem
deriving DecidableEq, Repr

namespace Diagnostic

def message (d : Diagnostic) : Text :=
  d.problem.message

def severity (d : Diagnostic) : Severity :=
  d.problem.severity

def location? (d : Diagnostic) (source : Text) : Option Location :=
  Location.ofOffset? source d.span.start

end Diagnostic

namespace Severity

def label : Severity → Text
  | warning => "WARNING".toList
  | error => "ERROR".toList

end Severity

/-- A message followed by the source around byte `start`, at most `reach` bytes
on each side (fewer where a character would be cut), the place marked by the
severity. There is none when `start` is inside a character. -/
def quoteSource? (message : Text) (severity : Severity) (start reach : Nat) (source : Text) :
    Option Text :=
  let start := min start source.byteLength
  let first := source.floorBoundary (start - reach)
  let last := source.floorBoundary (min (start + reach) source.byteLength)
  (source.slice? first start).bind fun before =>
    (source.slice? start last).map fun after =>
      message ++ " (\"".toList ++ before ++ '[' :: severity.label ++ " ->]".toList ++ after
        ++ "\")".toList

namespace Diagnostic

/-- The diagnostic's message with the source around its start. -/
def inContext? (d : Diagnostic) (source : Text) (reach : Nat) : Option Text :=
  quoteSource? d.message d.severity d.span.start reach source

end Diagnostic

end ComponentExtraction
