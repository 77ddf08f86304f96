import ComponentExtraction.Expression.Parsing

/-!
# Parsing expressions

A recursive descent over the levels of `BinaryOperator.level`. Every recursive
call either has fewer tokens in front of it or belongs to a tighter level, which
is the measure that the definitions decrease. Operands that are missing become
empty leaves, so every parse yields a tree.
-/

namespace ComponentExtraction

namespace Expression

def pipeName (cx : Context) (tokens : List Token) : Parsing (List Node) tokens :=
  match tokens with
  | [] => (Parsing.done [] []).reporting [cx.problemAt [] .missingPipeName]
  | token :: rest =>
    match token.lexeme.name? with
    | some name =>
      (Parsing.done [Node.mk (.pipeReference name) token.span [token.leaf]] rest).after token
    | none => (Parsing.done [] (token :: rest)).reporting
        [cx.problemAt (token :: rest) .missingPipeName]

/-- The member of a receiver, after its dot. A missing name leaves a reference
without a name, which ends at the dot. -/
def member (cx : Context) (receiver : Node) (dot : Token) (tokens : List Token) :
    Parsing Node tokens :=
  let nameless :=
    Node.enclosing (.reference []) receiver.span.start [receiver, dot.leaf]
  match tokens with
  | [] => (Parsing.done nameless []).reporting [cx.problemAt [] .missingMemberName]
  | token :: rest =>
    match token.lexeme.name? with
    | some name =>
      (Parsing.done (Node.enclosing (.reference name) receiver.span.start
        [receiver, dot.leaf, token.leaf]) rest).after token
    | none => (Parsing.done nameless (token :: rest)).reporting
        [cx.problemAt (token :: rest) .missingMemberName]

def single (kind : Kind) (token : Token) : Node :=
  Node.enclosing kind token.span.start [token.leaf]

/-- The name of an object entry that is its own value: an identifier directly
before a comma or the closing brace. -/
def shorthand? (key : Token) (tokens : List Token) : Option Text :=
  match tokens with
  | [] => none
  | next :: _ =>
    if next.isPunctuation ',' || next.isPunctuation '\x7d' then key.lexeme.identifier? else none

/-- Problems of assigning to `target`, noticed before the assignment operator. -/
def assignmentProblems (cx : Context) (target : Node) (tokens : List Token) : List Diagnostic :=
  match cx.mode, target.kind with
  | .binding, _ => [cx.problemAt tokens .assignmentInBinding]
  | .action, .reference _ => []
  | .action, .indexed => []
  | .action, _ => [cx.problemAt tokens .notAssignable]

/-- A token that starts no expression, as a leaf with its problem. -/
def misplaced (token : Token) (tokens : List Token) : Parsing Node tokens :=
  match token.lexeme with
  | .error error =>
    (Parsing.done token.leaf tokens).reporting [token.problem (.malformedToken error.message)]
  | lexeme =>
    (Parsing.done token.leaf tokens).reporting [token.problem (.unexpectedToken lexeme.text)]

set_option linter.unusedVariables false

mutual

def pipe (cx : Context) (tokens : List Token) : Parsing Node tokens :=
  (assignment cx tokens).andThen fun value rest h => pipeTail cx value rest
termination_by tokens.length * 64 + 40
decreasing_by
  · omega
  · have := h.length_le; omega

def pipeTail (cx : Context) (value : Node) (tokens : List Token) : Parsing Node tokens :=
  match tokens with
  | [] => Parsing.done value []
  | token :: rest =>
    if token.isOperator .pipe then
      (((pipeName cx rest).andThen fun name rest₁ h₁ =>
        (pipeArguments cx rest₁).andThen fun arguments rest₂ h₂ =>
          pipeTail cx
            (Node.enclosing .pipe value.span.start (value :: token.leaf :: name ++ arguments))
            rest₂).after token).reporting
        (if cx.mode = .action then [cx.problemAt (token :: rest) .pipeInAction] else [])
    else Parsing.done value (token :: rest)
termination_by tokens.length * 64 + 39
decreasing_by
  · have := h₁.length_le; simp only [List.length_cons]; omega
  · have := h₁.length_le; have := h₂.length_le; simp only [List.length_cons]; omega

/-- The arguments of a pipe as one node, or nothing when it has none. -/
def pipeArguments (cx : Context) (tokens : List Token) : Parsing (List Node) tokens :=
  (pipeArgumentItems cx tokens).map fun items =>
    if items.isEmpty then [] else [Node.enclosing .pipeArguments (cx.offset tokens) items]
termination_by tokens.length * 64 + 38
decreasing_by omega

def pipeArgumentItems (cx : Context) (tokens : List Token) : Parsing (List Node) tokens :=
  match tokens with
  | [] => Parsing.done [] []
  | token :: rest =>
    if token.isPunctuation ':' then
      ((assignment cx rest).andThen fun argument rest₁ h₁ =>
        (pipeArgumentItems cx rest₁).map fun items => token.leaf :: argument :: items).after token
    else Parsing.done [] (token :: rest)
termination_by tokens.length * 64 + 37
decreasing_by
  · simp only [List.length_cons]; omega
  · have := h₁.length_le; simp only [List.length_cons]; omega

/-- An assignment, which associates to the right, or a tighter expression. -/
def assignment (cx : Context) (tokens : List Token) : Parsing Node tokens :=
  (conditional cx tokens).andThen fun target rest h =>
    match rest, h with
    | [], _ => Parsing.done target []
    | token :: rest₁, h₁ =>
      match BinaryOperator.ofLexeme? 0 token.lexeme with
      | some operator =>
        (((assignment cx rest₁).map fun value =>
          Node.enclosing (.binary operator) target.span.start
            [target, token.leaf, value]).after token).reporting
          (assignmentProblems cx target (token :: rest₁))
      | none => Parsing.done target (token :: rest₁)
termination_by tokens.length * 64 + 36
decreasing_by
  · omega
  · have := h₁.length_le; simp only [List.length_cons] at this; omega

def conditional (cx : Context) (tokens : List Token) : Parsing Node tokens :=
  (binary cx 2 tokens).andThen fun condition rest h =>
    match rest, h with
    | [], _ => Parsing.done condition []
    | token :: rest₁, h₁ =>
      if token.isOperator .question then
        ((pipe cx rest₁).andThen fun yes rest₂ h₂ =>
          (expect cx ':' rest₂).andThen fun colon rest₃ h₃ =>
            (pipe cx rest₃).map fun no =>
              Node.enclosing .conditional condition.span.start
                (condition :: token.leaf :: yes :: colon ++ [no])).after token
      else Parsing.done condition (token :: rest₁)
termination_by tokens.length * 64 + 35
decreasing_by
  · omega
  · have := h₁.length_le; simp only [List.length_cons] at this; omega
  · have := h₁.length_le; have := h₂.length_le; have := h₃.length_le
    simp only [List.length_cons] at *; omega

def binary (cx : Context) (level : Nat) (tokens : List Token) : Parsing Node tokens :=
  if level < 9 then
    (binary cx (level + 1) tokens).andThen fun left rest h => binaryTail cx level left rest
  else exponentiation cx tokens
termination_by tokens.length * 64 + 20 + (12 - level)
decreasing_by
  · omega
  · have := h.length_le; omega
  · omega

def binaryTail (cx : Context) (level : Nat) (left : Node) (tokens : List Token) :
    Parsing Node tokens :=
  match tokens with
  | [] => Parsing.done left []
  | token :: rest =>
    match BinaryOperator.ofLexeme? level token.lexeme with
    | some operator =>
      ((binary cx (level + 1) rest).andThen fun right rest₁ h₁ =>
        binaryTail cx level
          (Node.enclosing (.binary operator) left.span.start [left, token.leaf, right])
          rest₁).after token
    | none => Parsing.done left (token :: rest)
termination_by tokens.length * 64 + 19
decreasing_by
  · simp only [List.length_cons]; omega
  · have := h₁.length_le; simp only [List.length_cons]; omega

def exponentiation (cx : Context) (tokens : List Token) : Parsing Node tokens :=
  (prefixed cx tokens).andThen fun base rest h =>
    match rest, h with
    | [], _ => Parsing.done base []
    | token :: rest₁, h₁ =>
      match BinaryOperator.ofLexeme? 9 token.lexeme with
      | some operator =>
        ((exponentiation cx rest₁).map fun exponent =>
          Node.enclosing (.binary operator) base.span.start
            [base, token.leaf, exponent]).after token
      | none => Parsing.done base (token :: rest₁)
termination_by tokens.length * 64 + 18
decreasing_by
  · omega
  · have := h₁.length_le; simp only [List.length_cons] at this; omega

def prefixed (cx : Context) (tokens : List Token) : Parsing Node tokens :=
  match tokens with
  | [] => postfixed cx []
  | token :: rest =>
    match PrefixOperator.ofLexeme? token.lexeme with
    | some operator =>
      ((prefixed cx rest).map fun operand =>
        Node.enclosing (.prefixed operator) token.span.start [token.leaf, operand]).after token
    | none => postfixed cx (token :: rest)
termination_by tokens.length * 64 + 17
decreasing_by
  · omega
  · simp only [List.length_cons]; omega
  · omega

def postfixed (cx : Context) (tokens : List Token) : Parsing Node tokens :=
  (primary cx tokens).andThen fun receiver rest h => postfixTail cx receiver rest
termination_by tokens.length * 64 + 16
decreasing_by
  · omega
  · have := h.length_le; omega

/-- Members, keys, calls and non-null marks behind a receiver. A safe access
directly before a bracket belongs to the key or the call. -/
def postfixTail (cx : Context) (receiver : Node) (tokens : List Token) : Parsing Node tokens :=
  match tokens with
  | [] => Parsing.done receiver []
  | token :: rest =>
    if token.isPunctuation '.' then
      ((member cx receiver token rest).andThen fun node rest₁ h₁ =>
        postfixTail cx node rest₁).after token
    else if token.isPunctuation '[' then
      ((keyed cx receiver [token.leaf] rest).andThen fun node rest₁ h₁ =>
        postfixTail cx node rest₁).after token
    else if token.isPunctuation '(' then
      ((call cx receiver [] token rest).andThen fun node rest₁ h₁ =>
        postfixTail cx node rest₁).after token
    else if token.isOperator .not then
      (postfixTail cx (Node.enclosing .nonNull receiver.span.start [receiver, token.leaf])
        rest).after token
    else if token.isOperator .safeAccess then
      ((safeAccess cx receiver token rest).andThen fun node rest₁ h₁ =>
        postfixTail cx node rest₁).after token
    else Parsing.done receiver (token :: rest)
termination_by tokens.length * 64 + 15
decreasing_by
  · have := h₁.length_le; simp only [List.length_cons]; omega
  · simp only [List.length_cons]; omega
  · have := h₁.length_le; simp only [List.length_cons]; omega
  · simp only [List.length_cons]; omega
  · have := h₁.length_le; simp only [List.length_cons]; omega
  · simp only [List.length_cons]; omega
  · simp only [List.length_cons]; omega
  · have := h₁.length_le; simp only [List.length_cons]; omega

def safeAccess (cx : Context) (receiver : Node) (mark : Token) (tokens : List Token) :
    Parsing Node tokens :=
  match tokens with
  | [] => member cx receiver mark []
  | opening :: rest =>
    if opening.isPunctuation '(' then
      (call cx receiver [mark.leaf] opening rest).after opening
    else if opening.isPunctuation '[' then
      (keyed cx receiver [mark.leaf, opening.leaf] rest).after opening
    else member cx receiver mark (opening :: rest)
termination_by tokens.length * 64 + 14
decreasing_by
  · simp only [List.length_cons]; omega
  · simp only [List.length_cons]; omega

def keyed (cx : Context) (receiver : Node) (marks : List Node) (tokens : List Token) :
    Parsing Node tokens :=
  (pipe cx tokens).andThen fun key rest _ =>
    (expect cx ']' rest).map fun closing =>
      Node.enclosing .indexed receiver.span.start (receiver :: marks ++ key :: closing)
termination_by tokens.length * 64 + 43
decreasing_by omega

def call (cx : Context) (callee : Node) (marks : List Node) (opening : Token)
    (tokens : List Token) : Parsing Node tokens :=
  (items cx ')' tokens).map fun arguments =>
    Node.enclosing .call callee.span.start (callee :: marks ++
      [Node.enclosing .argumentList opening.span.start (opening.leaf :: arguments)])
termination_by tokens.length * 64 + 43
decreasing_by omega

def items (cx : Context) (closing : Char) (tokens : List Token) : Parsing (List Node) tokens :=
  match tokens with
  | [] => itemsTail cx closing []
  | token :: rest =>
    if token.isPunctuation closing then (Parsing.done [token.leaf] rest).after token
    else itemsTail cx closing (token :: rest)
termination_by tokens.length * 64 + 42
decreasing_by all_goals omega

/-- At least one expression, divided by commas, up to and with a closing
bracket. -/
def itemsTail (cx : Context) (closing : Char) (tokens : List Token) :
    Parsing (List Node) tokens :=
  (pipe cx tokens).andThen fun item rest h =>
    match rest, h with
    | [], _ => (expect cx closing []).map fun ending => item :: ending
    | token :: rest₁, h₁ =>
      if token.isPunctuation ',' then
        ((itemsTail cx closing rest₁).map fun more => item :: token.leaf :: more).after token
      else (expect cx closing (token :: rest₁)).map fun ending => item :: ending
termination_by tokens.length * 64 + 41
decreasing_by
  · omega
  · have := h₁.length_le; simp only [List.length_cons] at this; omega

/-- A literal, a name, or an expression in brackets. Anything else is recorded
as a problem and stands as a leaf. -/
def primary (cx : Context) (tokens : List Token) : Parsing Node tokens :=
  match tokens with
  | [] =>
    (Parsing.done (Node.leaf (Span.point cx.stop)) []).reporting
      [cx.problemAt [] .unexpectedEnd]
  | token :: rest =>
    if token.isPunctuation '(' then
      ((pipe cx rest).andThen fun inner rest₁ _ =>
        (expect cx ')' rest₁).map fun closing =>
          Node.enclosing .parenthesized token.span.start
            (token.leaf :: inner :: closing)).after token
    else if token.isPunctuation '[' then
      ((items cx ']' rest).map fun elements =>
        Node.enclosing .arrayLiteral token.span.start (token.leaf :: elements)).after token
    else if token.isPunctuation '\x7b' then
      ((entries cx rest).map fun entries =>
        Node.enclosing .objectLiteral token.span.start (token.leaf :: entries)).after token
    else if token.lexeme.isLiteral then (Parsing.done (single .literal token) rest).after token
    else if token.isKeyword .this_ then (Parsing.done (single .this token) rest).after token
    else
      match token.lexeme.name? with
      | some name => (Parsing.done (single (.reference name) token) rest).after token
      | none => (misplaced token rest).after token
termination_by tokens.length * 64 + 13
decreasing_by all_goals simp only [List.length_cons]; omega

def entries (cx : Context) (tokens : List Token) : Parsing (List Node) tokens :=
  match tokens with
  | [] => expect cx '\x7d' []
  | token :: rest =>
    if token.isPunctuation '\x7d' then (Parsing.done [token.leaf] rest).after token
    else entriesTail cx (token :: rest)
termination_by tokens.length * 64 + 12
decreasing_by omega

def entriesTail (cx : Context) (tokens : List Token) : Parsing (List Node) tokens :=
  match tokens with
  | [] => expect cx '\x7d' []
  | key :: rest =>
    ((entry cx key rest).andThen fun nodes rest₁ h₁ =>
      match rest₁, h₁ with
      | [], _ => (expect cx '\x7d' []).map fun ending => nodes ++ ending
      | token :: rest₂, h₂ =>
        if token.isPunctuation ',' then
          ((entriesTail cx rest₂).map fun more => nodes ++ token.leaf :: more).after token
        else (expect cx '\x7d' (token :: rest₂)).map fun ending => nodes ++ ending).after key
termination_by tokens.length * 64 + 11
decreasing_by
  · simp only [List.length_cons]; omega
  · have := h₂.length_le; simp only [List.length_cons] at *; omega

def entry (cx : Context) (key : Token) (tokens : List Token) : Parsing (List Node) tokens :=
  match shorthand? key tokens with
  | some name => Parsing.done [single (.reference name) key] tokens
  | none =>
    (expect cx ':' tokens).andThen fun colon rest h =>
      (pipe cx rest).map fun value => key.leaf :: colon ++ [value]
termination_by tokens.length * 64 + 44
decreasing_by have := h.length_le; omega

end

/-- Further expressions of a chain, each behind its semicolon; the last one may
be missing. -/
def chainTail (cx : Context) (tokens : List Token) : Parsing (List Node) tokens :=
  match tokens with
  | [] => Parsing.done [] []
  | [token] =>
    if token.isPunctuation ';' then (Parsing.done [token.leaf] []).after token
    else Parsing.done [] [token]
  | token :: next :: rest =>
    if token.isPunctuation ';' then
      ((pipe cx (next :: rest)).andThen fun value rest₁ h₁ =>
        (chainTail cx rest₁).map fun more => token.leaf :: value :: more).after token
    else Parsing.done [] (token :: next :: rest)
termination_by tokens.length
decreasing_by have := h₁.length_le; simp only [List.length_cons] at *; omega

/-- One expression, or several divided by semicolons, which only a handler may
have. An empty text holds no expression. -/
def chain (cx : Context) (tokens : List Token) : Parsing (List Node) tokens :=
  match tokens with
  | [] => Parsing.done [] []
  | token :: rest =>
    (pipe cx (token :: rest)).andThen fun first rest₁ _ =>
      match rest₁ with
      | [] => Parsing.done [first] []
      | separator :: rest₂ =>
        if separator.isPunctuation ';' then
          ((chainTail cx (separator :: rest₂)).map fun more =>
            [Node.enclosing .chain first.span.start (first :: more)]).reporting
            (if cx.mode = .action then [] else
              [cx.problemAt (separator :: rest₂) .chainInBinding])
        else Parsing.done [first] (separator :: rest₂)

def leftover : List Token → List Diagnostic
  | [] => []
  | token :: _ => [token.problem (.leftoverToken token.lexeme.text)]

/-- The tokens of a text that stands at a byte offset of its source. -/
def tokensAt (offset : Nat) (text : Text) : List Token :=
  (Token.scan text).map (Token.shift offset)

/-- The tree of an expression whose text stands at a byte offset of its source,
with the problems met. An empty expression has no tree. -/
def parse (mode : Mode) (offset : Nat) (text : Text) : List Node × List Diagnostic :=
  let result := chain ⟨mode, offset + text.byteLength⟩ (tokensAt offset text)
  (result.value, result.diagnostics ++ leftover result.rest)

end Expression

end ComponentExtraction
