import ComponentExtraction.Expression.Parser
import ComponentExtraction.Text.Uppercase

/-!
# Values of structural directives

The value of a structural directive is a list of entries: the directive's own
expression first, then variables and further keyed expressions, with optional
separators between them.
-/

namespace ComponentExtraction

namespace Expression

namespace Directive

def variableNode (name : Text) (tokens : List Token) : Node :=
  Node.enclosing (.templateVariable name)
    (match tokens with
      | [] => 0
      | token :: _ => token.span.start)
    (tokens.map Token.leaf)

def variableEntry (cx : Context) (keyword : Token) (tokens : List Token) :
    Parsing (List Node) tokens :=
  match tokens with
  | [] => (Parsing.done [] []).reporting [cx.problemAt [] .missingVariableName]
  | token :: rest =>
    match token.lexeme.name? with
    | none => (Parsing.done [] (token :: rest)).reporting
        [cx.problemAt (token :: rest) .missingVariableName]
    | some name =>
      (match rest with
      | [] => Parsing.done [variableNode name [keyword, token]] []
      | equals :: rest₁ =>
        if equals.isOperator .assign then
          (match rest₁ with
          | [] => (Parsing.done [variableNode name [keyword, token, equals]] []).reporting
              [cx.problemAt [] .missingInitialValue]
          | value :: rest₂ =>
            match value.lexeme.name? with
            | some _ =>
              (Parsing.done [variableNode name [keyword, token, equals, value]] rest₂).after value
            | none =>
              (Parsing.done [variableNode name [keyword, token, equals]] (value :: rest₂)).reporting
                [cx.problemAt (value :: rest₂) .missingInitialValue]
            : Parsing (List Node) rest₁).after equals
        else Parsing.done [variableNode name [keyword, token]] (equals :: rest₁)
        : Parsing (List Node) rest).after token

/-- The alias behind the keyword that announces one; `front` holds the tokens
before the alias. -/
def aliasName (cx : Context) (front tokens : List Token) : Parsing (List Node) tokens :=
  match tokens with
  | [] => (Parsing.done [] []).reporting [cx.problemAt [] .missingAlias]
  | token :: rest =>
    match token.lexeme.identifier? with
    | some name => (Parsing.done [variableNode name (front ++ [token])] rest).after token
    | none => (Parsing.done [] (token :: rest)).reporting
        [cx.problemAt (token :: rest) .missingAlias]

def optionalAlias (cx : Context) (tokens : List Token) : Parsing (List Node) tokens :=
  match tokens with
  | [] => Parsing.done [] []
  | token :: rest =>
    if token.isKeyword .as_ then (aliasName cx [token] rest).after token
    else Parsing.done [] (token :: rest)

/-- The directive's own expression, with an optional alias. -/
def ownExpression (cx : Context) (directive : Text) (tokens : List Token) :
    Parsing (List Node) tokens :=
  (pipe cx tokens).andThen fun value rest _ =>
    (optionalAlias cx rest).map fun names =>
      Node.enclosing (.templateBinding directive) (cx.offset tokens) [value] :: names

def optionalColon (tokens : List Token) : Parsing (List Node) tokens :=
  match tokens with
  | [] => Parsing.done [] []
  | token :: rest =>
    if token.isPunctuation ':' then (Parsing.done [token.leaf] rest).after token
    else Parsing.done [] (token :: rest)

def isSeparator (token : Token) : Bool :=
  token.isPunctuation ';' || token.isPunctuation ','

/-- The expression of a key, which may be left out before a separator. -/
def optionalValue (cx : Context) (tokens : List Token) : Parsing (List Node) tokens :=
  match tokens with
  | [] => Parsing.done [] []
  | token :: rest =>
    if isSeparator token then Parsing.done [] (token :: rest)
    else (pipe cx (token :: rest)).map fun value => [value]

/-- A keyed expression behind its key; the directive's name and the capitalized
key form its name. -/
def keyedExpression (cx : Context) (directive key : Text) (token : Token) (tokens : List Token) :
    Parsing (List Node) tokens :=
  (optionalColon tokens).andThen fun colon rest _ =>
    (optionalValue cx rest).andThen fun value rest₁ _ =>
      (optionalAlias cx rest₁).map fun names =>
        Node.enclosing (.templateBinding (directive ++ Text.capitalize key)) token.span.start
          (token.leaf :: colon ++ value) :: names

/-- An entry that starts with a key: an alias of the key, or an
expression. The token behind the key tells which of them it is. -/
def keyedEntry (cx : Context) (directive key : Text) (token : Token) (tokens : List Token) :
    Parsing (List Node) tokens :=
  match tokens with
  | [] => keyedExpression cx directive key token []
  | next :: rest =>
    if next.isKeyword .as_ then (aliasName cx [token, next] rest).after next
    else keyedExpression cx directive key token (next :: rest)

/-- One entry that starts with the given token. Only the first entry can be the
directive's own expression. -/
def entry (cx : Context) (directive : Text) (isFirst : Bool) (token : Token)
    (tokens : List Token) : Parsing (List Node) (token :: tokens) :=
  if token.isKeyword .let_ then (variableEntry cx token tokens).after token
  else if isFirst then ownExpression cx directive (token :: tokens)
  else
    match token.lexeme.name? with
    | some key => (keyedEntry cx directive key token tokens).after token
    | none => ((Parsing.done [] tokens).after token).reporting
        [token.problem (.unexpectedToken token.lexeme.text)]

/-- All entries and the separators between them. An entry that reads nothing is
passed over. -/
def entries (cx : Context) (directive : Text) (isFirst : Bool) (tokens : List Token) :
    List Node × List Diagnostic :=
  match tokens with
  | [] => ([], [])
  | token :: rest =>
    if isSeparator token then
      let more := entries cx directive isFirst rest
      (token.leaf :: more.1, more.2)
    else
      let first := entry cx directive isFirst token rest
      let more :=
        if _h : first.rest.length ≤ rest.length then entries cx directive false first.rest
        else entries cx directive false rest
      (first.value ++ more.1, first.diagnostics ++ more.2)
termination_by tokens.length
decreasing_by
  · simp
  · exact Nat.lt_succ_of_le _h
  · simp

/-- The nodes of a directive's value, whose text stands at a byte offset
of its source, with the problems met. -/
def parse (directive : Text) (offset : Nat) (text : Text) : List Node × List Diagnostic :=
  entries ⟨.binding, offset + text.byteLength⟩ directive true (tokensAt offset text)

end Directive

end Expression

end ComponentExtraction
