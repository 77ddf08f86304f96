import ComponentExtraction.Source.Diagnostic
import ComponentExtraction.Expression.Token
import ComponentExtraction.Tree.Node

/-!
# Steps of a parse

A step reads some tokens from the front of a list. Its result carries the proof
that what is left is a suffix of what was there, so a parser built from steps
can recurse on the tokens that are left. Problems are collected in the order in
which they are met; no step fails.
-/

namespace ComponentExtraction

namespace Expression

inductive Mode where
  /-- Property bindings and interpolations: one expression, no assignments. -/
  | binding
  /-- Event handlers: several expressions and assignments, but no pipes. -/
  | action
deriving DecidableEq, Repr

/-- What stays the same during the parse of one expression. -/
structure Context where
  mode : Mode
  stop : Nat
deriving DecidableEq, Repr

namespace Context

def offset (cx : Context) : List Token → Nat
  | [] => cx.stop
  | token :: _ => token.span.start

def problemAt (cx : Context) (tokens : List Token) (problem : Problem) : Diagnostic :=
  ⟨Span.point (cx.offset tokens), problem⟩

end Context

namespace Token

def leaf (token : Token) : Node :=
  Node.leaf token.span

def problem (token : Token) (problem : Problem) : Diagnostic :=
  ⟨token.span, problem⟩

end Token

/-- What a step found in front of a list of tokens, and what it left. The
rules end because what they leave is a suffix of what they were given. -/
structure Parsing (α : Type) (tokens : List Token) where
  value : α
  diagnostics : List Diagnostic
  rest : List Token
  rest_suffix : rest <:+ tokens

namespace Parsing

variable {α β : Type} {tokens : List Token}

def done (value : α) (tokens : List Token) : Parsing α tokens :=
  ⟨value, [], tokens, List.suffix_rfl⟩

def andThen (first : Parsing α tokens)
    (next : (value : α) → (rest : List Token) → rest <:+ tokens → Parsing β rest) :
    Parsing β tokens :=
  let second := next first.value first.rest first.rest_suffix
  ⟨second.value, first.diagnostics ++ second.diagnostics, second.rest,
    second.rest_suffix.trans first.rest_suffix⟩

def map (f : α → β) (step : Parsing α tokens) : Parsing β tokens :=
  ⟨f step.value, step.diagnostics, step.rest, step.rest_suffix⟩

def after (token : Token) (step : Parsing α tokens) : Parsing α (token :: tokens) :=
  ⟨step.value, step.diagnostics, step.rest, step.rest_suffix.trans (List.suffix_cons _ _)⟩

def reporting (diagnostics : List Diagnostic) (step : Parsing α tokens) : Parsing α tokens :=
  ⟨step.value, diagnostics ++ step.diagnostics, step.rest, step.rest_suffix⟩

end Parsing

/-- Read a bracket or separator as a leaf, or record that it is missing. Where
it is missing nothing is read, and the parse goes on as if it were there. -/
def expect (cx : Context) (character : Char) (tokens : List Token) : Parsing (List Node) tokens :=
  match tokens with
  | [] => (Parsing.done [] []).reporting [cx.problemAt [] (.missingCharacter character)]
  | token :: rest =>
    if token.isPunctuation character then (Parsing.done [token.leaf] rest).after token
    else (Parsing.done [] (token :: rest)).reporting
      [cx.problemAt (token :: rest) (.missingCharacter character)]

end Expression

end ComponentExtraction
