import ComponentExtraction.Expression.Directive
import ComponentExtraction.Proofs.Expression.Placement
import ComponentExtraction.Proofs.Source.Diagnostic
import Mathlib.Data.List.Forall2

/-!
# Reading the same tokens again

A rule of the grammar that met no error has looked at the tokens it took and at
the one behind them. It takes the same tokens again wherever they stand, if the
same token follows or none at all (`Retraces`). Where tokens stand does not matter,
nor what is wrong with characters that form no token: such tokens are `Alike`. Of
an operand only its kind matters to what is read behind it.
-/

namespace ComponentExtraction

namespace Expression

/-- Lexemes that no rule tells apart: lexemes that are the same,
and errors whatever has caused them. -/
inductive Lexeme.Alike : Lexeme → Lexeme → Prop
  | same (lexeme : Lexeme) : Alike lexeme lexeme
  | errors (cause other : LexicalError) : Alike (.error cause) (.error other)

theorem Lexeme.Alike.eq_of_accepted {lexeme other : Lexeme} (alike : lexeme.Alike other)
    (accepted : ∀ cause, lexeme ≠ .error cause) : other = lexeme := by
  cases alike with
  | same => rfl
  | errors cause => exact absurd rfl (accepted cause)

namespace Token

def Alike (token other : Token) : Prop :=
  token.lexeme.Alike other.lexeme

namespace Alike

variable {token other : Token} (alike : token.Alike other)
include alike

/-- What does not look at the cause of an error does not tell tokens apart. -/
theorem congr {α : Type} (f : Lexeme → α)
    (blind : ∀ cause cause', f (.error cause') = f (.error cause)) :
    f other.lexeme = f token.lexeme := by
  obtain ⟨span, lexeme⟩ := token
  obtain ⟨span', lexeme'⟩ := other
  have alike : lexeme.Alike lexeme' := alike
  cases alike with
  | same => rfl
  | errors cause cause' => exact blind cause cause'

theorem isPunctuation_eq (c : Char) : other.isPunctuation c = token.isPunctuation c :=
  alike.congr (· == .punctuation c) fun _ _ => rfl

theorem isOperator_eq (operator : Operator) :
    other.isOperator operator = token.isOperator operator :=
  alike.congr (· == .operator operator) fun _ _ => rfl

theorem isKeyword_eq (keyword : Keyword) : other.isKeyword keyword = token.isKeyword keyword :=
  alike.congr (· == .keyword keyword) fun _ _ => rfl

theorem isLiteral_eq : other.lexeme.isLiteral = token.lexeme.isLiteral :=
  alike.congr Lexeme.isLiteral fun _ _ => rfl

theorem name?_eq : other.lexeme.name? = token.lexeme.name? :=
  alike.congr Lexeme.name? fun _ _ => rfl

theorem identifier?_eq : other.lexeme.identifier? = token.lexeme.identifier? :=
  alike.congr Lexeme.identifier? fun _ _ => rfl

theorem binary_eq (level : Nat) :
    BinaryOperator.ofLexeme? level other.lexeme = BinaryOperator.ofLexeme? level token.lexeme :=
  alike.congr (BinaryOperator.ofLexeme? level) fun _ _ => rfl

theorem prefixed_eq :
    PrefixOperator.ofLexeme? other.lexeme = PrefixOperator.ofLexeme? token.lexeme :=
  alike.congr PrefixOperator.ofLexeme? fun _ _ => rfl

end Alike

end Token

open Diagnostic

variable {cx cx' : Context} {tokens tokens' rest next left : List Token} {token other : Token}

/-- What a rule can see of the tokens ahead looks the same, or there are none. -/
inductive Ahead : List Token → List Token → Prop
  | nothing (rest : List Token) : Ahead rest []
  | alike {token other : Token} (alike : token.Alike other) (rest next : List Token) :
      Ahead (token :: rest) (other :: next)

theorem Ahead.append (alike : List.Forall₂ Token.Alike tokens tokens') (ahead : Ahead rest next) :
    Ahead (tokens ++ rest) (tokens' ++ next) := by
  cases alike with
  | nil => exact ahead
  | cons first _ => exact .alike first _ _

/-- What is related to two lists behind each other consists of two parts that are
related to them. -/
theorem exists_append_of_forall₂ {α β : Type} {R : α → β → Prop} {front back : List α}
    {taken : List β} (related : List.Forall₂ R (front ++ back) taken) : ∃ front' back',
    taken = front' ++ back' ∧ List.Forall₂ R front front' ∧ List.Forall₂ R back back' := by
  induction front generalizing taken with
  | nil => exact ⟨[], taken, rfl, .nil, related⟩
  | cons first front ih =>
    cases related with
    | cons head more =>
      obtain ⟨front', back', rfl, front_related, back_related⟩ := ih more
      exact ⟨_ :: front', back', rfl, .cons head front_related, back_related⟩

/-- What lies in front of `rest` in one list looks like what lies in front of
`left` in the other, and so does what a rule can see of the tokens ahead. -/
def Retraces (tokens rest tokens' left : List Token) : Prop :=
  ∃ taken taken', tokens = taken ++ rest ∧ tokens' = taken' ++ left ∧
    List.Forall₂ Token.Alike taken taken' ∧ Ahead rest left

namespace Retraces

theorem stay (traced : Retraces tokens tokens tokens' left) :
    tokens' = left ∧ Ahead tokens left := by
  obtain ⟨taken, taken', tokens_eq, rfl, alike, ahead⟩ := traced
  cases List.self_eq_append_left.mp tokens_eq
  cases alike
  exact ⟨rfl, ahead⟩

theorem head (traced : Retraces (token :: tokens) rest tokens' left) (later : rest <:+ tokens) :
    ∃ other tokens'', tokens' = other :: tokens'' ∧ token.Alike other ∧
      Retraces tokens rest tokens'' left := by
  obtain ⟨taken, taken', tokens_eq, rfl, alike, ahead⟩ := traced
  cases alike with
  | nil =>
    have := later.length_le
    rw [List.nil_append] at tokens_eq
    rw [← tokens_eq, List.length_cons] at this
    omega
  | cons first more =>
    rw [List.cons_append, List.cons.injEq] at tokens_eq
    obtain ⟨rfl, tokens_eq⟩ := tokens_eq
    exact ⟨_, _, rfl, first, _, _, tokens_eq, rfl, more, ahead⟩

theorem split {between : List Token} (traced : Retraces tokens rest tokens' left)
    (first : between <:+ tokens) (second : rest <:+ between) :
    ∃ between', Retraces tokens between tokens' between' ∧ Retraces between rest between' left := by
  obtain ⟨taken, taken', rfl, rfl, alike, ahead⟩ := traced
  obtain ⟨front, tokens_eq⟩ := first
  obtain ⟨back, rfl⟩ := second
  rw [← List.append_assoc, List.append_cancel_right_eq] at tokens_eq
  subst tokens_eq
  obtain ⟨front', back', rfl, front_alike, back_alike⟩ := exists_append_of_forall₂ alike
  refine ⟨back' ++ left, ⟨front, front', by simp, by simp, front_alike, ?_⟩,
    ⟨back, back', rfl, rfl, back_alike, ahead⟩⟩
  exact ahead.append back_alike

end Retraces

namespace Parsing

variable {α β : Type} {Q : α → Prop} {R : β → Prop}

/-- A step meets no error, finds what is described and leaves the given
tokens. Steps of which this is known can be chained (`Gives.andThen`). -/
structure Gives (step : Parsing α tokens) (Q : α → Prop) (left : List Token) : Prop where
  diagnostics : Harmless step.diagnostics
  value : Q step.value
  rest : step.rest = left

namespace Gives

theorem suffix {step : Parsing α tokens} (h : step.Gives Q left) : left <:+ tokens :=
  h.rest ▸ step.rest_suffix

theorem mono {step : Parsing α tokens} {Q' : α → Prop} (h : step.Gives Q left)
    (implies : ∀ value, Q value → Q' value) : step.Gives Q' left :=
  ⟨h.diagnostics, implies _ h.value, h.rest⟩

theorem done {value : α} (h : Q value) : (Parsing.done value tokens).Gives Q tokens :=
  ⟨harmless_nil, h, rfl⟩

theorem of_done {value : α} (h : (Parsing.done value tokens).Gives Q left) :
    Q value ∧ tokens = left :=
  ⟨h.value, h.rest⟩

theorem andThen {first : Parsing α tokens}
    {next : (value : α) → (rest : List Token) → rest <:+ tokens → Parsing β rest}
    (h : first.Gives Q rest)
    (continues : ∀ value (suffix : rest <:+ tokens), Q value → (next value rest suffix).Gives R left) :
    (first.andThen next).Gives R left := by
  obtain ⟨clean, described, rfl⟩ := h
  obtain ⟨clean', described', left_eq⟩ := continues first.value first.rest_suffix described
  exact ⟨harmless_append.mpr ⟨clean, clean'⟩, described', left_eq⟩

theorem of_andThen {first : Parsing α tokens}
    {next : (value : α) → (rest : List Token) → rest <:+ tokens → Parsing β rest}
    (h : (first.andThen next).Gives R left) : ∃ value rest, ∃ suffix : rest <:+ tokens,
      first.Gives (· = value) rest ∧ (next value rest suffix).Gives R left := by
  obtain ⟨clean, described, left_eq⟩ := h
  obtain ⟨clean₁, clean₂⟩ := harmless_append.mp clean
  exact ⟨first.value, first.rest, first.rest_suffix, ⟨clean₁, rfl, rfl⟩,
    ⟨clean₂, described, left_eq⟩⟩

theorem map {step : Parsing α tokens} {f : α → β} (h : step.Gives Q left)
    (implies : ∀ value, Q value → R (f value)) : (step.map f).Gives R left :=
  ⟨h.diagnostics, implies _ h.value, h.rest⟩

theorem of_map {step : Parsing α tokens} {f : α → β} (h : (step.map f).Gives R left) :
    step.Gives (fun value => R (f value)) left :=
  ⟨h.diagnostics, h.value, h.rest⟩

theorem after {step : Parsing α tokens} (h : step.Gives Q left) :
    (step.after token).Gives Q left :=
  ⟨h.diagnostics, h.value, h.rest⟩

theorem of_after {step : Parsing α tokens} (h : (step.after token).Gives Q left) :
    step.Gives Q left :=
  ⟨h.diagnostics, h.value, h.rest⟩

theorem reporting {step : Parsing α tokens} {diagnostics : List Diagnostic} (h : step.Gives Q left)
    (harmless : Harmless diagnostics) : (step.reporting diagnostics).Gives Q left :=
  ⟨harmless_append.mpr ⟨harmless, h.diagnostics⟩, h.value, h.rest⟩

theorem of_reporting {step : Parsing α tokens} {diagnostics : List Diagnostic}
    (h : (step.reporting diagnostics).Gives Q left) :
    Harmless diagnostics ∧ step.Gives Q left := by
  obtain ⟨harmless, clean⟩ := harmless_append.mp h.diagnostics
  exact ⟨harmless, clean, h.value, h.rest⟩

theorem not_reporting {step : Parsing α tokens} {d : Diagnostic} {diagnostics : List Diagnostic}
    (h : (step.reporting (d :: diagnostics)).Gives Q left)
    (error : d.severity = .error := by rfl) : False :=
  (harmless_cons.mp h.of_reporting.1).1 error

end Gives

end Parsing

open Parsing (Gives)

/-- What a rule takes without a problem is taken again by another one, which finds
something related to what was found. -/
def Repeats {α : Type} (rule again : (tokens : List Token) → Parsing α tokens)
    (related : α → α → Prop) (tokens : List Token) : Prop :=
  ∀ value rest tokens' left, (rule tokens).Gives (· = value) rest →
    Retraces tokens rest tokens' left → (again tokens').Gives (related value) left

def SameKind (node other : Node) : Prop :=
  other.kind = node.kind

def Anything {α : Type} (_ _ : α) : Prop :=
  True

variable {α : Type} {Q : α → Prop} {R : Node → Prop}

theorem again_expect (c : Char) (tokens : List Token) :
    Repeats (expect cx c) (expect cx' c) Anything tokens := by
  intro value rest tokens' left given traced
  cases tokens with
  | nil => exact given.not_reporting.elim
  | cons token tokens =>
    rw [expect] at given
    split at given
    · next found =>
      obtain ⟨-, rfl⟩ := given.of_after.of_done
      obtain ⟨other, tokens'', rfl, alike, traced⟩ := traced.head List.suffix_rfl
      obtain ⟨rfl, -⟩ := traced.stay
      rw [expect, if_pos ((alike.isPunctuation_eq c).trans found)]
      exact (Gives.done trivial).after
    · exact given.not_reporting.elim

theorem again_pipeName (tokens : List Token) :
    Repeats (pipeName cx) (pipeName cx') Anything tokens := by
  intro value rest tokens' left given traced
  cases tokens with
  | nil => exact given.not_reporting.elim
  | cons token tokens =>
    rw [pipeName] at given
    split at given
    · next name found =>
      obtain ⟨-, rfl⟩ := given.of_after.of_done
      obtain ⟨other, tokens'', rfl, alike, traced⟩ := traced.head List.suffix_rfl
      obtain ⟨rfl, -⟩ := traced.stay
      rw [pipeName]
      simp only [alike.name?_eq, found]
      exact (Gives.done trivial).after
    · exact given.not_reporting.elim

theorem again_member (receiver receiver' : Node) (dot dot' : Token) (tokens : List Token) :
    Repeats (member cx receiver dot) (member cx' receiver' dot') SameKind tokens := by
  intro value rest tokens' left given traced
  cases tokens with
  | nil => exact given.not_reporting.elim
  | cons token tokens =>
    simp only [member] at given
    split at given
    · next name found =>
      obtain ⟨rfl, rfl⟩ := given.of_after.of_done
      obtain ⟨other, tokens'', rfl, alike, traced⟩ := traced.head List.suffix_rfl
      obtain ⟨rfl, -⟩ := traced.stay
      simp only [member, alike.name?_eq, found]
      refine (Gives.done ?_).after
      rfl
    · exact given.not_reporting.elim

theorem not_misplaced {Q : Node → Prop} (given : (misplaced token tokens).Gives Q rest) :
    False := by
  unfold misplaced at given
  split at given <;> exact given.not_reporting

theorem harmless_ite {use : Prop} [Decidable use] {yes no yes' no' : List Diagnostic}
    (harmless : Harmless (if use then yes else no)) (of_yes : Harmless yes → Harmless yes')
    (of_no : Harmless no → Harmless no') : Harmless (if use then yes' else no') := by
  split at harmless
  · next used =>
    rw [if_pos used]
    exact of_yes harmless
  · next unused =>
    rw [if_neg unused]
    exact of_no harmless

theorem harmless_assignmentProblems {target target' : Node} (same : cx'.mode = cx.mode)
    (kind_eq : SameKind target target')
    (harmless : Harmless (assignmentProblems cx target tokens)) :
    Harmless (assignmentProblems cx' target' tokens') := by
  unfold assignmentProblems at harmless ⊢
  rw [same, kind_eq]
  split at harmless
  · exact absurd rfl (harmless_cons.mp harmless).1
  · simp
  · simp
  · exact absurd rfl (harmless_cons.mp harmless).1

def assignmentTail (cx : Context) (target : Node) : (tokens : List Token) → Parsing Node tokens
  | [] => Parsing.done target []
  | token :: rest =>
    match BinaryOperator.ofLexeme? 0 token.lexeme with
    | some operator =>
      (((assignment cx rest).map fun value =>
        Node.enclosing (.binary operator) target.span.start
          [target, token.leaf, value]).after token).reporting
        (assignmentProblems cx target (token :: rest))
    | none => Parsing.done target (token :: rest)

theorem assignment_eq (cx : Context) (tokens : List Token) :
    assignment cx tokens =
      (conditional cx tokens).andThen fun target rest _ => assignmentTail cx target rest := by
  rw [assignment]
  congr 1
  funext target rest _
  cases rest <;> rfl

def conditionalTail (cx : Context) (condition : Node) :
    (tokens : List Token) → Parsing Node tokens
  | [] => Parsing.done condition []
  | token :: rest =>
    if token.isOperator .question then
      ((pipe cx rest).andThen fun yes rest₂ _ =>
        (expect cx ':' rest₂).andThen fun colon rest₃ _ =>
          (pipe cx rest₃).map fun no =>
            Node.enclosing .conditional condition.span.start
              (condition :: token.leaf :: yes :: colon ++ [no])).after token
    else Parsing.done condition (token :: rest)

theorem conditional_eq (cx : Context) (tokens : List Token) :
    conditional cx tokens =
      (binary cx 2 tokens).andThen fun condition rest _ => conditionalTail cx condition rest := by
  rw [conditional]
  congr 1
  funext condition rest _
  cases rest <;> rfl

def exponentiationTail (cx : Context) (base : Node) : (tokens : List Token) → Parsing Node tokens
  | [] => Parsing.done base []
  | token :: rest =>
    match BinaryOperator.ofLexeme? 9 token.lexeme with
    | some operator =>
      ((exponentiation cx rest).map fun exponent =>
        Node.enclosing (.binary operator) base.span.start
          [base, token.leaf, exponent]).after token
    | none => Parsing.done base (token :: rest)

theorem exponentiation_eq (cx : Context) (tokens : List Token) :
    exponentiation cx tokens =
      (prefixed cx tokens).andThen fun base rest _ => exponentiationTail cx base rest := by
  rw [exponentiation]
  congr 1
  funext base rest _
  cases rest <;> rfl

def isPostfix (token : Token) : Bool :=
  token.isPunctuation '.' || token.isPunctuation '[' || token.isPunctuation '(' ||
    token.isOperator .not || token.isOperator .safeAccess

def postfixNode (cx : Context) (receiver : Node) (token : Token) (tokens : List Token) :
    Parsing Node tokens :=
  if token.isPunctuation '.' then member cx receiver token tokens
  else if token.isPunctuation '[' then keyed cx receiver [token.leaf] tokens
  else if token.isPunctuation '(' then call cx receiver [] token tokens
  else if token.isOperator .not then
    Parsing.done (Node.enclosing .nonNull receiver.span.start [receiver, token.leaf]) tokens
  else safeAccess cx receiver token tokens

theorem postfixTail_cons (cx : Context) (receiver : Node) (token : Token) (tokens : List Token) :
    postfixTail cx receiver (token :: tokens) =
      if isPostfix token then
        ((postfixNode cx receiver token tokens).andThen fun node rest _ =>
          postfixTail cx node rest).after token
      else Parsing.done receiver (token :: tokens) := by
  rw [postfixTail]
  unfold isPostfix postfixNode
  by_cases dot : token.isPunctuation '.' = true
  · simp [dot]
  by_cases bracket : token.isPunctuation '[' = true
  · simp [dot, bracket]
  by_cases parenthesis : token.isPunctuation '(' = true
  · simp [dot, bracket, parenthesis]
  by_cases mark : token.isOperator .not = true
  · simp [dot, bracket, parenthesis, mark]
    rfl
  · simp [dot, bracket, parenthesis, mark]

def atom (token : Token) (tokens : List Token) : Parsing Node tokens :=
  if token.lexeme.isLiteral then Parsing.done (single .literal token) tokens
  else if token.isKeyword .this_ then Parsing.done (single .this token) tokens
  else
    match token.lexeme.name? with
    | some name => Parsing.done (single (.reference name) token) tokens
    | none => misplaced token tokens

def parenthesized (cx : Context) (token : Token) (tokens : List Token) : Parsing Node tokens :=
  (pipe cx tokens).andThen fun inner rest _ =>
    (expect cx ')' rest).map fun closing =>
      Node.enclosing .parenthesized token.span.start (token.leaf :: inner :: closing)

theorem primary_cons (cx : Context) (token : Token) (tokens : List Token) :
    primary cx (token :: tokens) =
      (if token.isPunctuation '(' then parenthesized cx token tokens
      else if token.isPunctuation '[' then
        (items cx ']' tokens).map fun elements =>
          Node.enclosing .arrayLiteral token.span.start (token.leaf :: elements)
      else if token.isPunctuation '\x7b' then
        (entries cx tokens).map fun entries =>
          Node.enclosing .objectLiteral token.span.start (token.leaf :: entries)
      else atom token tokens).after token := by
  rw [primary]
  unfold parenthesized atom
  by_cases parenthesis : token.isPunctuation '(' = true
  · simp [parenthesis]
  by_cases bracket : token.isPunctuation '[' = true
  · simp [parenthesis, bracket]
  by_cases brace : token.isPunctuation '\x7b' = true
  · simp [parenthesis, bracket, brace]
  by_cases literal : token.lexeme.isLiteral = true
  · simp [parenthesis, bracket, brace, literal]
  by_cases this : token.isKeyword .this_ = true
  · simp [parenthesis, bracket, brace, literal, this]
  cases named : token.lexeme.name? <;> simp [parenthesis, bracket, brace, literal, this]

def itemsEnd (cx : Context) (closing : Char) (item : Node) :
    (tokens : List Token) → Parsing (List Node) tokens
  | [] => (expect cx closing []).map fun ending => item :: ending
  | token :: rest =>
    if token.isPunctuation ',' then
      ((itemsTail cx closing rest).map fun more => item :: token.leaf :: more).after token
    else (expect cx closing (token :: rest)).map fun ending => item :: ending

theorem itemsTail_eq (cx : Context) (closing : Char) (tokens : List Token) :
    itemsTail cx closing tokens =
      (pipe cx tokens).andThen fun item rest _ => itemsEnd cx closing item rest := by
  rw [itemsTail]
  congr 1
  funext item rest _
  cases rest <;> rfl

def entriesEnd (cx : Context) (nodes : List Node) :
    (tokens : List Token) → Parsing (List Node) tokens
  | [] => (expect cx '\x7d' []).map fun ending => nodes ++ ending
  | token :: rest =>
    if token.isPunctuation ',' then
      ((entriesTail cx rest).map fun more => nodes ++ token.leaf :: more).after token
    else (expect cx '\x7d' (token :: rest)).map fun ending => nodes ++ ending

theorem entriesTail_cons (cx : Context) (key : Token) (tokens : List Token) :
    entriesTail cx (key :: tokens) =
      ((entry cx key tokens).andThen fun nodes rest _ => entriesEnd cx nodes rest).after key := by
  rw [entriesTail]
  congr 2
  funext nodes rest _
  cases rest <;> rfl

/-- A rule that goes on only behind some tokens stays where it is in front of what
looks like another token, and at the end. -/
theorem Gives.stay {f : (tokens : List Token) → Parsing α tokens} {value : α}
    {continues : Token → Bool}
    (blind : ∀ {token other : Token}, token.Alike other → continues other = continues token)
    (atEnd : f [] = Parsing.done value [])
    (atOther : ∀ token rest, continues token = false →
      f (token :: rest) = Parsing.done value (token :: rest))
    (described : Q value) (ahead : Ahead tokens left)
    (stops : ∀ token ∈ tokens.head?, continues token = false) : (f left).Gives Q left := by
  cases ahead with
  | nothing =>
    rw [atEnd]
    exact .done described
  | alike alike rest next =>
    rw [atOther _ _ ((blind alike).trans (stops _ rfl))]
    exact .done described

def Takes (tokens rest : List Token) : Prop :=
  ∃ token more, tokens = token :: more ∧ rest <:+ more

theorem not_takes_nil : ¬ Takes [] rest := by
  rintro ⟨token, more, nil_eq, -⟩
  exact absurd nil_eq (by simp)

theorem Takes.length_lt (h : Takes tokens rest) : rest.length < tokens.length := by
  obtain ⟨token, more, rfl, suffix⟩ := h
  exact Nat.lt_succ_of_le suffix.length_le

theorem length_lt_cons (token : Token) (h : rest <:+ tokens) :
    rest.length < (token :: tokens).length :=
  Nat.lt_succ_of_le h.length_le

theorem Takes.of_suffix (h : Takes tokens rest) (later : left <:+ rest) : Takes tokens left := by
  obtain ⟨token, more, rfl, suffix⟩ := h
  exact ⟨token, more, rfl, later.trans suffix⟩

theorem Takes.of_andThen {β : Type} {R : β → Prop} {first : Parsing α tokens}
    {next : (value : α) → (rest : List Token) → rest <:+ tokens → Parsing β rest}
    (given : (first.andThen next).Gives R rest)
    (h : ∀ {value : α} {between : List Token}, first.Gives (· = value) between →
      Takes tokens between) : Takes tokens rest := by
  obtain ⟨value, between, _, first, second⟩ := given.of_andThen
  exact (h first).of_suffix second.suffix

theorem takes_member {receiver : Node} {dot : Token}
    (given : (member cx receiver dot tokens).Gives R rest) : Takes tokens rest := by
  cases tokens with
  | nil => exact given.not_reporting.elim
  | cons token tokens =>
    simp only [member] at given
    split at given
    · exact ⟨token, tokens, rfl, given.of_after.suffix⟩
    · exact given.not_reporting.elim

theorem takes_primary (given : (primary cx tokens).Gives R rest) : Takes tokens rest := by
  cases tokens with
  | nil =>
    rw [primary] at given
    exact given.not_reporting.elim
  | cons token tokens =>
    refine ⟨token, tokens, rfl, ?_⟩
    rw [primary] at given
    repeat' split at given
    all_goals exact given.of_after.suffix

theorem takes_expect {c : Char} {S : List Node → Prop} (given : (expect cx c tokens).Gives S rest) :
    Takes tokens rest := by
  cases tokens with
  | nil => exact given.not_reporting.elim
  | cons token tokens =>
    rw [expect] at given
    split at given
    · exact ⟨token, tokens, rfl, given.of_after.suffix⟩
    · exact given.not_reporting.elim

theorem takes_postfixed (given : (postfixed cx tokens).Gives R rest) : Takes tokens rest := by
  rw [postfixed] at given
  exact .of_andThen given takes_primary

theorem takes_prefixed (given : (prefixed cx tokens).Gives R rest) : Takes tokens rest := by
  cases tokens with
  | nil =>
    rw [prefixed] at given
    exact takes_postfixed given
  | cons token tokens =>
    rw [prefixed] at given
    split at given
    · exact ⟨token, tokens, rfl, given.of_after.suffix⟩
    · exact takes_postfixed given

theorem takes_binary {level : Nat} {rest : List Token} {R : Node → Prop}
    (given : (binary cx level tokens).Gives R rest) : Takes tokens rest := by
  rw [binary] at given
  split at given
  · exact .of_andThen given takes_binary
  · rw [exponentiation_eq] at given
    exact .of_andThen given takes_prefixed
termination_by 9 - level

theorem takes_conditional (given : (conditional cx tokens).Gives R rest) : Takes tokens rest := by
  rw [conditional_eq] at given
  exact .of_andThen given takes_binary

theorem takes_assignment (given : (assignment cx tokens).Gives R rest) : Takes tokens rest := by
  rw [assignment_eq] at given
  exact .of_andThen given takes_conditional

theorem takes_pipe (given : (pipe cx tokens).Gives R rest) : Takes tokens rest := by
  rw [pipe] at given
  exact .of_andThen given takes_assignment

theorem takes_items {closing : Char} {S : List Node → Prop}
    (given : (items cx closing tokens).Gives S rest) : Takes tokens rest := by
  cases tokens with
  | nil =>
    rw [items, itemsTail_eq] at given
    exact .of_andThen given takes_pipe
  | cons token tokens =>
    rw [items] at given
    split at given
    · exact ⟨token, tokens, rfl, given.of_after.suffix⟩
    · rw [itemsTail_eq] at given
      exact .of_andThen given takes_pipe

theorem takes_entriesEnd {nodes : List Node} {S : List Node → Prop}
    (given : (entriesEnd cx nodes tokens).Gives S rest) : Takes tokens rest := by
  cases tokens with
  | nil => exact given.of_map.not_reporting.elim
  | cons token tokens =>
    rw [entriesEnd] at given
    split at given
    · exact ⟨token, tokens, rfl, given.of_after.suffix⟩
    · exact takes_expect given.of_map

theorem takes_entriesTail {S : List Node → Prop} (given : (entriesTail cx tokens).Gives S rest) :
    Takes tokens rest := by
  cases tokens with
  | nil =>
    rw [entriesTail] at given
    exact given.not_reporting.elim
  | cons key tokens =>
    rw [entriesTail_cons] at given
    exact ⟨key, tokens, rfl, given.of_after.suffix⟩

theorem takes_chainTail {S : List Node → Prop} (semicolon : token.isPunctuation ';' = true)
    (given : (chainTail cx (token :: tokens)).Gives S rest) : Takes (token :: tokens) rest := by
  cases tokens with
  | nil =>
    rw [chainTail, if_pos semicolon] at given
    exact ⟨token, [], rfl, given.of_after.suffix⟩
  | cons next tokens =>
    rw [chainTail, if_pos semicolon] at given
    exact ⟨token, next :: tokens, rfl, given.of_after.suffix⟩

theorem Retraces.exists_head (traced : Retraces tokens rest tokens' left)
    (takes : Takes tokens rest) : ∃ token more other more', tokens = token :: more ∧
      tokens' = other :: more' ∧ token.Alike other ∧ Retraces more rest more' left := by
  obtain ⟨token, more, rfl, later⟩ := takes
  obtain ⟨other, more', rfl, alike, traced⟩ := traced.head later
  exact ⟨token, more, other, more', rfl, rfl, alike, traced⟩

theorem isPostfix_eq (alike : token.Alike other) : isPostfix other = isPostfix token := by
  simp only [isPostfix, alike.isPunctuation_eq, alike.isOperator_eq]

theorem again_atom (alike : token.Alike other) (tokens : List Token) :
    Repeats (atom token) (atom other) SameKind tokens := by
  intro value rest tokens' left given traced
  unfold atom at given ⊢
  simp only [alike.isLiteral_eq, alike.isKeyword_eq, alike.name?_eq]
  split at given
  · next literal =>
    rw [if_pos literal]
    obtain ⟨rfl, rfl⟩ := given.of_done
    obtain ⟨rfl, -⟩ := traced.stay
    exact .done rfl
  next notLiteral =>
  rw [if_neg notLiteral]
  split at given
  · next this =>
    rw [if_pos this]
    obtain ⟨rfl, rfl⟩ := given.of_done
    obtain ⟨rfl, -⟩ := traced.stay
    exact .done rfl
  next notThis =>
  rw [if_neg notThis]
  split at given
  · obtain ⟨rfl, rfl⟩ := given.of_done
    obtain ⟨rfl, -⟩ := traced.stay
    exact .done rfl
  · exact (not_misplaced given).elim

theorem shorthand?_cons {key key' : Token} (tokens tokens' : List Token)
    (alike : key.Alike key') (next : token.Alike other) :
    shorthand? key' (other :: tokens') = shorthand? key (token :: tokens) := by
  simp only [shorthand?, next.isPunctuation_eq, alike.identifier?_eq]

/-- Every rule reads again what it reads from the given tokens. The rules
call each other, so this is proved of all of them at once (`replays`). -/
structure Replays (cx cx' : Context) (tokens : List Token) : Prop where
  pipe : Repeats (pipe cx) (pipe cx') SameKind tokens
  pipeTail : ∀ {operand operand' : Node}, SameKind operand operand' →
    Repeats (pipeTail cx operand) (pipeTail cx' operand') SameKind tokens
  pipeArguments : Repeats (pipeArguments cx) (pipeArguments cx') Anything tokens
  pipeArgumentItems : Repeats (pipeArgumentItems cx) (pipeArgumentItems cx') Anything tokens
  assignment : Repeats (assignment cx) (assignment cx') SameKind tokens
  assignmentTail : ∀ {target target' : Node}, SameKind target target' →
    Repeats (assignmentTail cx target) (assignmentTail cx' target') SameKind tokens
  conditionalTail : ∀ {condition condition' : Node}, SameKind condition condition' →
    Repeats (conditionalTail cx condition) (conditionalTail cx' condition') SameKind tokens
  binary : ∀ level, Repeats (binary cx level) (binary cx' level) SameKind tokens
  binaryTail : ∀ {level : Nat} {operand operand' : Node}, SameKind operand operand' →
    Repeats (binaryTail cx level operand) (binaryTail cx' level operand') SameKind tokens
  exponentiation : Repeats (exponentiation cx) (exponentiation cx') SameKind tokens
  exponentiationTail : ∀ {base base' : Node}, SameKind base base' →
    Repeats (exponentiationTail cx base) (exponentiationTail cx' base') SameKind tokens
  prefixed : Repeats (prefixed cx) (prefixed cx') SameKind tokens
  postfixTail : ∀ {receiver receiver' : Node}, SameKind receiver receiver' →
    Repeats (postfixTail cx receiver) (postfixTail cx' receiver') SameKind tokens
  postfixNode : ∀ {receiver receiver' : Node} {token other : Token}, token.Alike other →
    Repeats (postfixNode cx receiver token) (postfixNode cx' receiver' other) SameKind tokens
  keyed : ∀ {receiver receiver' : Node} {marks marks' : List Node},
    Repeats (keyed cx receiver marks) (keyed cx' receiver' marks') SameKind tokens
  call : ∀ {callee callee' : Node} {marks marks' : List Node} {opening opening' : Token},
    Repeats (call cx callee marks opening) (call cx' callee' marks' opening') SameKind tokens
  parenthesized : ∀ {token other : Token},
    Repeats (parenthesized cx token) (parenthesized cx' other) SameKind tokens
  items : ∀ closing, Repeats (items cx closing) (items cx' closing) Anything tokens
  itemsTail : ∀ closing, Repeats (itemsTail cx closing) (itemsTail cx' closing) Anything tokens
  itemsEnd : ∀ closing {item item' : Node},
    Repeats (itemsEnd cx closing item) (itemsEnd cx' closing item') Anything tokens
  entries : Repeats (entries cx) (entries cx') Anything tokens
  entriesTail : Repeats (entriesTail cx) (entriesTail cx') Anything tokens
  entriesEnd : ∀ {nodes nodes' : List Node},
    Repeats (entriesEnd cx nodes) (entriesEnd cx' nodes') Anything tokens
  entry : ∀ {key key' : Token}, key.Alike key' → ∀ value rest tokens' left,
    (entry cx key tokens).Gives (· = value) rest → Retraces tokens rest tokens' left →
      left ≠ [] → (entry cx' key' tokens').Gives (Anything value) left

section Grammar

variable (same : cx'.mode = cx.mode)
variable (shorter : ∀ rest : List Token, rest.length < tokens.length → Replays cx cx' rest)
include shorter

theorem again_primary :
    Repeats (primary cx) (primary cx') SameKind tokens := by
  intro value rest tokens' left given traced
  match tokens with
  | [] => exact absurd (takes_primary given) not_takes_nil
  | token :: tokens =>
    obtain ⟨_, _, other, tokens'', ⟨⟩, rfl, alike, traced⟩ :=
      traced.exists_head (takes_primary given)
    rw [primary_cons] at given ⊢
    replace given := given.of_after
    refine .after ?_
    simp only [alike.isPunctuation_eq]
    split at given
    · next parenthesis =>
      rw [if_pos parenthesis]
      exact (shorter tokens (by simp)).parenthesized _ _ _ _ given traced
    next notParenthesis =>
    rw [if_neg notParenthesis]
    split at given
    · next bracket =>
      obtain ⟨clean, rfl, rest_eq⟩ := given.of_map
      rw [if_pos bracket]
      refine ((shorter tokens (by simp)).items ']' _ _ _ _ ⟨clean, rfl, rest_eq⟩ traced).map fun _ _ => ?_
      rfl
    next notBracket =>
    rw [if_neg notBracket]
    split at given
    · next brace =>
      obtain ⟨clean, rfl, rest_eq⟩ := given.of_map
      rw [if_pos brace]
      refine ((shorter tokens (by simp)).entries _ _ _ _ ⟨clean, rfl, rest_eq⟩ traced).map fun _ _ => ?_
      rfl
    · next notBrace =>
      rw [if_neg notBrace]
      exact again_atom alike tokens _ _ _ _ given traced

theorem again_postfixed :
    Repeats (postfixed cx) (postfixed cx') SameKind tokens := by
  intro value rest tokens' left given traced
  rw [postfixed] at given ⊢
  obtain ⟨receiver, between, h, first, second⟩ := given.of_andThen
  obtain ⟨between', traced₁, traced₂⟩ := traced.split h second.suffix
  refine (again_primary shorter _ _ _ _ first traced₁).andThen fun receiver' _ kind_eq => ?_
  exact (shorter between (takes_primary first).length_lt).postfixTail kind_eq _ _ _ _ second traced₂

theorem again_prefixed :
    Repeats (prefixed cx) (prefixed cx') SameKind tokens := by
  intro value rest tokens' left given traced
  match tokens with
  | [] => exact absurd (takes_prefixed given) not_takes_nil
  | token :: tokens =>
    obtain ⟨_, _, other, tokens'', ⟨⟩, rfl, alike, later⟩ :=
      traced.exists_head (takes_prefixed given)
    rw [prefixed] at given
    split at given
    · next operator operates =>
      obtain ⟨clean, rfl, rest_eq⟩ := given.of_after.of_map
      have operand := (shorter tokens (by simp)).prefixed _ _ _ _ ⟨clean, rfl, rest_eq⟩ later
      rw [prefixed]
      simp only [alike.prefixed_eq, operates]
      refine .after (operand.map fun _ _ => ?_)
      rfl
    · next none =>
      rw [prefixed]
      simp only [alike.prefixed_eq, none]
      exact again_postfixed shorter _ _ _ _ given traced

theorem again_exponentiation :
    Repeats (exponentiation cx) (exponentiation cx') SameKind tokens := by
  intro value rest tokens' left given traced
  rw [exponentiation_eq] at given ⊢
  obtain ⟨base, between, h, first, second⟩ := given.of_andThen
  obtain ⟨between', traced₁, traced₂⟩ := traced.split h second.suffix
  refine (again_prefixed shorter _ _ _ _ first traced₁).andThen fun base' _ kind_eq => ?_
  exact (shorter between (takes_prefixed first).length_lt).exponentiationTail kind_eq _ _ _ _ second
    traced₂

theorem again_exponentiationTail : ∀ {base base' : Node},
    SameKind base base' →
      Repeats (exponentiationTail cx base) (exponentiationTail cx' base') SameKind tokens := by
  intro base base' kind_eq value rest tokens' left given traced
  have stays : ∀ {tokens : List Token}, Ahead tokens left →
      (∀ token ∈ tokens.head?, (BinaryOperator.ofLexeme? 9 token.lexeme).isSome = false) →
      (exponentiationTail cx' base' left).Gives (SameKind base) left := by
    intro tokens
    refine Gives.stay (fun alike => congrArg Option.isSome (alike.binary_eq 9)) rfl ?_ kind_eq
    intro token rest other
    rw [Option.isSome_eq_false_iff, Option.isNone_iff_eq_none] at other
    simp only [exponentiationTail, other]
  cases tokens with
  | nil =>
    obtain ⟨rfl, rfl⟩ := given.of_done
    obtain ⟨rfl, ahead⟩ := traced.stay
    exact stays ahead (by simp)
  | cons token tokens =>
    rw [exponentiationTail] at given
    split at given
    · next operator operates =>
      obtain ⟨other, tokens'', rfl, alike, traced⟩ := traced.head given.of_after.suffix
      obtain ⟨clean, rfl, rest_eq⟩ := given.of_after.of_map
      have exponent := (shorter tokens (by simp)).exponentiation _ _ _ _ ⟨clean, rfl, rest_eq⟩ traced
      simp only [exponentiationTail, alike.binary_eq, operates]
      refine .after (exponent.map fun _ _ => ?_)
      rfl
    · next other =>
      obtain ⟨rfl, rfl⟩ := given.of_done
      obtain ⟨rfl, ahead⟩ := traced.stay
      exact stays ahead (by simpa using other)

theorem again_binary (level : Nat) :
    Repeats (binary cx level) (binary cx' level) SameKind tokens := by
  intro value rest tokens' left given traced
  rw [binary] at given ⊢
  split at given
  · next looser =>
    obtain ⟨operand, between, h, first, second⟩ := given.of_andThen
    obtain ⟨between', traced₁, traced₂⟩ := traced.split h second.suffix
    rw [if_pos looser]
    refine (again_binary (level + 1) _ _ _ _ first traced₁).andThen
      fun operand' _ kind_eq => ?_
    exact (shorter between (takes_binary first).length_lt).binaryTail kind_eq _ _ _ _ second traced₂
  · next tightest =>
    rw [if_neg tightest]
    exact again_exponentiation shorter _ _ _ _ given traced
termination_by 9 - level

theorem again_binaryTail (level : Nat) : ∀ {operand operand' : Node},
    SameKind operand operand' →
      Repeats (binaryTail cx level operand) (binaryTail cx' level operand') SameKind tokens := by
  intro operand operand' kind_eq value rest tokens' left given traced
  have stays : ∀ {tokens : List Token}, Ahead tokens left →
      (∀ token ∈ tokens.head?, (BinaryOperator.ofLexeme? level token.lexeme).isSome = false) →
      (binaryTail cx' level operand' left).Gives (SameKind operand) left := by
    intro tokens
    refine Gives.stay (fun alike => congrArg Option.isSome (alike.binary_eq level))
      (by rw [binaryTail]) ?_ kind_eq
    intro token rest other
    rw [Option.isSome_eq_false_iff, Option.isNone_iff_eq_none] at other
    rw [binaryTail]
    simp only [other]
  match tokens with
  | [] =>
    rw [binaryTail] at given
    obtain ⟨rfl, rfl⟩ := given.of_done
    obtain ⟨rfl, ahead⟩ := traced.stay
    exact stays ahead (by simp)
  | token :: tokens =>
    rw [binaryTail] at given
    split at given
    · next operator operates =>
      obtain ⟨right, rest₁, h₁, first, second⟩ := given.of_after.of_andThen
      obtain ⟨other, tokens'', rfl, alike, traced⟩ := traced.head (second.suffix.trans h₁)
      obtain ⟨between, traced₁, traced₂⟩ := traced.split h₁ second.suffix
      rw [binaryTail]
      simp only [alike.binary_eq, operates]
      refine .after (((shorter tokens (by simp)).binary _ _ _ _ _ first traced₁).andThen
        fun right' _ _ => ?_)
      exact (shorter rest₁ (length_lt_cons token h₁)).binaryTail (by rfl) _ _ _ _ second traced₂
    · next other =>
      obtain ⟨rfl, rfl⟩ := given.of_done
      obtain ⟨rfl, ahead⟩ := traced.stay
      exact stays ahead (by simpa using other)

theorem again_conditional :
    Repeats (conditional cx) (conditional cx') SameKind tokens := by
  intro value rest tokens' left given traced
  rw [conditional_eq] at given ⊢
  obtain ⟨condition, between, h, first, second⟩ := given.of_andThen
  obtain ⟨between', traced₁, traced₂⟩ := traced.split h second.suffix
  refine (again_binary shorter 2 _ _ _ _ first traced₁).andThen fun condition' _ kind_eq => ?_
  exact (shorter between (takes_binary first).length_lt).conditionalTail kind_eq _ _ _ _ second traced₂

theorem again_conditionalTail : ∀ {condition condition' : Node},
    SameKind condition condition' →
      Repeats (conditionalTail cx condition) (conditionalTail cx' condition') SameKind tokens := by
  intro condition condition' kind_eq value rest tokens' left given traced
  have stays : ∀ {tokens : List Token}, Ahead tokens left →
      (∀ token ∈ tokens.head?, token.isOperator .question = false) →
      (conditionalTail cx' condition' left).Gives (SameKind condition) left := by
    intro tokens
    refine Gives.stay (fun alike => alike.isOperator_eq .question) rfl ?_ kind_eq
    intro token rest other
    rw [conditionalTail, if_neg (by simp [other])]
  cases tokens with
  | nil =>
    obtain ⟨rfl, rfl⟩ := given.of_done
    obtain ⟨rfl, ahead⟩ := traced.stay
    exact stays ahead (by simp)
  | cons token tokens =>
    rw [conditionalTail] at given
    split at given
    · next question =>
      obtain ⟨yes, rest₁, h₁, first, given⟩ := given.of_after.of_andThen
      obtain ⟨colon, rest₂, h₂, second, third⟩ := given.of_andThen
      obtain ⟨other, tokens'', rfl, alike, traced⟩ :=
        traced.head (third.suffix.trans (h₂.trans h₁))
      obtain ⟨between, traced₁, traced⟩ := traced.split h₁ (third.suffix.trans h₂)
      obtain ⟨between', traced₂, traced₃⟩ := traced.split h₂ third.suffix
      obtain ⟨clean, rfl, rest_eq⟩ := third.of_map
      have no := (shorter rest₂ (length_lt_cons token (h₂.trans h₁))).pipe _ _ _ _ ⟨clean, rfl, rest_eq⟩ traced₃
      rw [conditionalTail, if_pos ((alike.isOperator_eq .question).trans question)]
      refine .after (((shorter tokens (by simp)).pipe _ _ _ _ first traced₁).andThen fun yes' _ _ => ?_)
      refine (again_expect ':' rest₁ _ _ _ _ second traced₂).andThen fun colon' _ _ => ?_
      refine no.map fun _ _ => ?_
      rfl
    · next other =>
      obtain ⟨rfl, rfl⟩ := given.of_done
      obtain ⟨rfl, ahead⟩ := traced.stay
      exact stays ahead (by simpa using other)

theorem again_assignment :
    Repeats (assignment cx) (assignment cx') SameKind tokens := by
  intro value rest tokens' left given traced
  rw [assignment_eq] at given ⊢
  obtain ⟨target, between, h, first, second⟩ := given.of_andThen
  obtain ⟨between', traced₁, traced₂⟩ := traced.split h second.suffix
  refine (again_conditional shorter _ _ _ _ first traced₁).andThen fun target' _ kind_eq => ?_
  exact (shorter between (takes_conditional first).length_lt).assignmentTail kind_eq _ _ _ _ second
    traced₂

include same in
theorem again_assignmentTail : ∀ {target target' : Node},
    SameKind target target' →
      Repeats (assignmentTail cx target) (assignmentTail cx' target') SameKind tokens := by
  intro target target' kind_eq value rest tokens' left given traced
  have stays : ∀ {tokens : List Token}, Ahead tokens left →
      (∀ token ∈ tokens.head?, (BinaryOperator.ofLexeme? 0 token.lexeme).isSome = false) →
      (assignmentTail cx' target' left).Gives (SameKind target) left := by
    intro tokens
    refine Gives.stay (fun alike => congrArg Option.isSome (alike.binary_eq 0)) rfl ?_ kind_eq
    intro token rest other
    rw [Option.isSome_eq_false_iff, Option.isNone_iff_eq_none] at other
    simp only [assignmentTail, other]
  cases tokens with
  | nil =>
    obtain ⟨rfl, rfl⟩ := given.of_done
    obtain ⟨rfl, ahead⟩ := traced.stay
    exact stays ahead (by simp)
  | cons token tokens =>
    rw [assignmentTail] at given
    split at given
    · next operator assigns =>
      obtain ⟨allowed, given⟩ := given.of_reporting
      obtain ⟨other, tokens'', rfl, alike, traced⟩ := traced.head given.of_after.suffix
      obtain ⟨clean, rfl, rest_eq⟩ := given.of_after.of_map
      have assigned := (shorter tokens (by simp)).assignment _ _ _ _ ⟨clean, rfl, rest_eq⟩ traced
      simp only [assignmentTail, alike.binary_eq, assigns]
      refine .reporting (.after (assigned.map fun _ _ => ?_))
        (harmless_assignmentProblems same kind_eq allowed)
      rfl
    · next other =>
      obtain ⟨rfl, rfl⟩ := given.of_done
      obtain ⟨rfl, ahead⟩ := traced.stay
      exact stays ahead (by simpa using other)

theorem again_pipeArgumentItems :
    Repeats (pipeArgumentItems cx) (pipeArgumentItems cx') Anything tokens := by
  intro value rest tokens' left given traced
  have stays : ∀ {tokens : List Token}, Ahead tokens left →
      (∀ token ∈ tokens.head?, token.isPunctuation ':' = false) →
      (pipeArgumentItems cx' left).Gives (Anything value) left := by
    intro tokens
    refine Gives.stay (fun alike => alike.isPunctuation_eq ':') (by rw [pipeArgumentItems]) ?_
      trivial
    intro token rest other
    rw [pipeArgumentItems, if_neg (by simp [other])]
  match tokens with
  | [] =>
    rw [pipeArgumentItems] at given
    obtain ⟨-, rfl⟩ := given.of_done
    obtain ⟨rfl, ahead⟩ := traced.stay
    exact stays ahead (by simp)
  | token :: tokens =>
    rw [pipeArgumentItems] at given
    split at given
    · next colon =>
      obtain ⟨argument, rest₁, h₁, first, second⟩ := given.of_after.of_andThen
      obtain ⟨other, tokens'', rfl, alike, traced⟩ := traced.head (second.suffix.trans h₁)
      obtain ⟨between, traced₁, traced₂⟩ := traced.split h₁ second.suffix
      obtain ⟨clean, -, rest_eq⟩ := second.of_map
      have more := (shorter rest₁ (length_lt_cons token h₁)).pipeArgumentItems _ _ _ _ ⟨clean, rfl, rest_eq⟩ traced₂
      rw [pipeArgumentItems, if_pos ((alike.isPunctuation_eq ':').trans colon)]
      refine .after (((shorter tokens (by simp)).assignment _ _ _ _ first traced₁).andThen
        fun argument' _ _ => more.map fun _ _ => ?_)
      trivial
    · next other =>
      obtain ⟨-, rfl⟩ := given.of_done
      obtain ⟨rfl, ahead⟩ := traced.stay
      exact stays ahead (by simpa using other)

theorem again_pipeArguments :
    Repeats (pipeArguments cx) (pipeArguments cx') Anything tokens := by
  intro value rest tokens' left given traced
  rw [pipeArguments] at given ⊢
  obtain ⟨clean, -, rest_eq⟩ := given.of_map
  refine (again_pipeArgumentItems shorter _ _ _ _ ⟨clean, rfl, rest_eq⟩ traced).map fun _ _ => ?_
  trivial

theorem again_pipe : Repeats (pipe cx) (pipe cx') SameKind tokens := by
  intro value rest tokens' left given traced
  rw [pipe] at given ⊢
  obtain ⟨operand, between, h, first, second⟩ := given.of_andThen
  obtain ⟨between', traced₁, traced₂⟩ := traced.split h second.suffix
  refine (again_assignment shorter _ _ _ _ first traced₁).andThen fun operand' _ kind_eq => ?_
  exact (shorter between (takes_assignment first).length_lt).pipeTail kind_eq _ _ _ _ second traced₂

include same in
theorem again_pipeTail : ∀ {operand operand' : Node},
    SameKind operand operand' →
      Repeats (pipeTail cx operand) (pipeTail cx' operand') SameKind tokens := by
  intro operand operand' kind_eq value rest tokens' left given traced
  have stays : ∀ {tokens : List Token}, Ahead tokens left →
      (∀ token ∈ tokens.head?, token.isOperator .pipe = false) →
      (pipeTail cx' operand' left).Gives (SameKind operand) left := by
    intro tokens
    refine Gives.stay (fun alike => alike.isOperator_eq .pipe) (by rw [pipeTail]) ?_ kind_eq
    intro token rest other
    rw [pipeTail, if_neg (by simp [other])]
  match tokens with
  | [] =>
    rw [pipeTail] at given
    obtain ⟨rfl, rfl⟩ := given.of_done
    obtain ⟨rfl, ahead⟩ := traced.stay
    exact stays ahead (by simp)
  | token :: tokens =>
    rw [pipeTail] at given
    split at given
    · next pipes =>
      obtain ⟨allowed, given⟩ := given.of_reporting
      obtain ⟨name, rest₁, h₁, first, given⟩ := given.of_after.of_andThen
      obtain ⟨arguments, rest₂, h₂, second, third⟩ := given.of_andThen
      have less := length_lt_cons token h₁
      have less' := length_lt_cons token (h₂.trans h₁)
      obtain ⟨other, tokens'', rfl, alike, traced⟩ :=
        traced.head (third.suffix.trans (h₂.trans h₁))
      obtain ⟨between, traced₁, traced⟩ := traced.split h₁ (third.suffix.trans h₂)
      obtain ⟨between', traced₂, traced₃⟩ := traced.split h₂ third.suffix
      rw [pipeTail, if_pos ((alike.isOperator_eq .pipe).trans pipes)]
      refine .reporting (.after ?_) ?_
      swap
      · rw [same]
        exact harmless_ite allowed (fun harmless => absurd rfl (harmless_cons.mp harmless).1) id
      refine (again_pipeName tokens _ _ _ _ first traced₁).andThen fun name' _ _ => ?_
      refine ((shorter rest₁ less).pipeArguments _ _ _ _ second traced₂).andThen fun arguments' _ _ => ?_
      exact (shorter rest₂ less').pipeTail (by rfl) _ _ _ _ third traced₃
    · next other =>
      obtain ⟨rfl, rfl⟩ := given.of_done
      obtain ⟨rfl, ahead⟩ := traced.stay
      exact stays ahead (by simpa using other)

theorem again_parenthesized : ∀ {token other : Token},
    Repeats (parenthesized cx token) (parenthesized cx' other) SameKind tokens := by
  intro token other value rest tokens' left given traced
  unfold parenthesized at given ⊢
  obtain ⟨inner, between, h, first, second⟩ := given.of_andThen
  obtain ⟨between', traced₁, traced₂⟩ := traced.split h second.suffix
  obtain ⟨clean, rfl, rest_eq⟩ := second.of_map
  refine (again_pipe shorter _ _ _ _ first traced₁).andThen fun inner' _ _ => ?_
  refine (again_expect ')' between _ _ _ _ ⟨clean, rfl, rest_eq⟩ traced₂).map fun _ _ => ?_
  rfl

theorem again_itemsTail (closing : Char) :
    Repeats (itemsTail cx closing) (itemsTail cx' closing) Anything tokens := by
  intro value rest tokens' left given traced
  rw [itemsTail_eq] at given ⊢
  obtain ⟨item, between, h, first, second⟩ := given.of_andThen
  obtain ⟨between', traced₁, traced₂⟩ := traced.split h second.suffix
  refine (again_pipe shorter _ _ _ _ first traced₁).andThen fun item' _ _ => ?_
  exact (shorter between (takes_pipe first).length_lt).itemsEnd closing _ _ _ _ second traced₂

theorem again_items (closing : Char) :
    Repeats (items cx closing) (items cx' closing) Anything tokens := by
  intro value rest tokens' left given traced
  match tokens with
  | [] => exact absurd (takes_items given) not_takes_nil
  | token :: tokens =>
    obtain ⟨_, _, other, tokens'', ⟨⟩, rfl, alike, later⟩ := traced.exists_head (takes_items given)
    rw [items] at given
    split at given
    · next closes =>
      obtain ⟨-, rfl⟩ := given.of_after.of_done
      obtain ⟨rfl, -⟩ := later.stay
      rw [items, if_pos ((alike.isPunctuation_eq closing).trans closes)]
      exact (Gives.done trivial).after
    · next further =>
      rw [items]
      simp only [alike.isPunctuation_eq, further]
      exact again_itemsTail shorter closing _ _ _ _ given traced

theorem again_itemsEnd (closing : Char) : ∀ {item item' : Node},
    Repeats (itemsEnd cx closing item) (itemsEnd cx' closing item') Anything tokens := by
  intro item item' value rest tokens' left given traced
  match tokens with
  | [] => exact given.of_map.not_reporting.elim
  | token :: tokens =>
    rw [itemsEnd] at given
    split at given
    · next comma =>
      obtain ⟨other, tokens'', rfl, alike, traced⟩ := traced.head given.of_after.suffix
      obtain ⟨clean, -, rest_eq⟩ := given.of_after.of_map
      have more := (shorter tokens (by simp)).itemsTail closing _ _ _ _ ⟨clean, rfl, rest_eq⟩ traced
      rw [itemsEnd, if_pos ((alike.isPunctuation_eq _).trans comma)]
      exact .after (more.map fun _ _ => trivial)
    · next noComma =>
      obtain ⟨_, _, other, tokens'', ⟨⟩, rfl, alike, -⟩ :=
        traced.exists_head (takes_expect given.of_map)
      obtain ⟨clean, -, rest_eq⟩ := given.of_map
      rw [itemsEnd, if_neg (by rw [alike.isPunctuation_eq]; exact noComma)]
      exact (again_expect _ _ _ _ _ _ ⟨clean, rfl, rest_eq⟩ traced).map fun _ _ => trivial

theorem again_keyed : ∀ {receiver receiver' : Node}
    {marks marks' : List Node},
      Repeats (keyed cx receiver marks) (keyed cx' receiver' marks') SameKind tokens := by
  intro receiver receiver' marks marks' value rest tokens' left given traced
  rw [keyed] at given ⊢
  obtain ⟨key, between, h, first, second⟩ := given.of_andThen
  obtain ⟨between', traced₁, traced₂⟩ := traced.split h second.suffix
  obtain ⟨clean, rfl, rest_eq⟩ := second.of_map
  refine (again_pipe shorter _ _ _ _ first traced₁).andThen fun key' _ _ => ?_
  refine (again_expect ']' between _ _ _ _ ⟨clean, rfl, rest_eq⟩ traced₂).map fun _ _ => ?_
  rfl

theorem again_call : ∀ {callee callee' : Node} {marks marks' : List Node}
    {opening opening' : Token},
      Repeats (call cx callee marks opening) (call cx' callee' marks' opening') SameKind tokens := by
  intro callee callee' marks marks' opening opening' value rest tokens' left given traced
  rw [call] at given ⊢
  obtain ⟨clean, rfl, rest_eq⟩ := given.of_map
  refine (again_items shorter ')' _ _ _ _ ⟨clean, rfl, rest_eq⟩ traced).map fun _ _ => ?_
  rfl

theorem again_safeAccess : ∀ {receiver receiver' : Node}
    {mark mark' : Token},
      Repeats (safeAccess cx receiver mark) (safeAccess cx' receiver' mark') SameKind tokens := by
  intro receiver receiver' mark mark' value rest tokens' left given traced
  match tokens with
  | [] =>
    rw [safeAccess] at given
    exact given.not_reporting.elim
  | opening :: tokens =>
    rw [safeAccess] at given
    split at given
    · next parenthesis =>
      obtain ⟨other, tokens'', rfl, alike, traced⟩ := traced.head given.of_after.suffix
      rw [safeAccess, if_pos ((alike.isPunctuation_eq _).trans parenthesis)]
      exact .after ((shorter tokens (by simp)).call _ _ _ _ given.of_after traced)
    next notParenthesis =>
    split at given
    · next bracket =>
      obtain ⟨other, tokens'', rfl, alike, traced⟩ := traced.head given.of_after.suffix
      rw [safeAccess]
      simp only [alike.isPunctuation_eq, notParenthesis, bracket, if_true]
      exact .after ((shorter tokens (by simp)).keyed _ _ _ _ given.of_after traced)
    · next notBracket =>
      obtain ⟨_, _, other, tokens'', ⟨⟩, rfl, alike, -⟩ := traced.exists_head (takes_member given)
      rw [safeAccess]
      simp only [alike.isPunctuation_eq, notParenthesis, notBracket]
      exact again_member receiver receiver' mark mark' _ _ _ _ _ given traced

theorem again_postfixNode : ∀ {receiver receiver' : Node}
    {token other : Token}, token.Alike other →
      Repeats (postfixNode cx receiver token) (postfixNode cx' receiver' other) SameKind tokens := by
  intro receiver receiver' token other alike value rest tokens' left given traced
  unfold postfixNode at given ⊢
  simp only [alike.isPunctuation_eq, alike.isOperator_eq]
  split at given
  · next dot =>
    rw [if_pos dot]
    exact again_member receiver receiver' token other tokens _ _ _ _ given traced
  next notDot =>
  rw [if_neg notDot]
  split at given
  · next bracket =>
    rw [if_pos bracket]
    exact again_keyed shorter _ _ _ _ given traced
  next notBracket =>
  rw [if_neg notBracket]
  split at given
  · next parenthesis =>
    rw [if_pos parenthesis]
    exact again_call shorter _ _ _ _ given traced
  next notParenthesis =>
  rw [if_neg notParenthesis]
  split at given
  · next mark =>
    rw [if_pos mark]
    obtain ⟨rfl, rfl⟩ := given.of_done
    obtain ⟨rfl, -⟩ := traced.stay
    exact .done rfl
  · next notMark =>
    rw [if_neg notMark]
    exact again_safeAccess shorter _ _ _ _ given traced

theorem again_postfixTail : ∀ {receiver receiver' : Node},
    SameKind receiver receiver' →
      Repeats (postfixTail cx receiver) (postfixTail cx' receiver') SameKind tokens := by
  intro receiver receiver' kind_eq value rest tokens' left given traced
  have stays : ∀ {tokens : List Token}, Ahead tokens left →
      (∀ token ∈ tokens.head?, isPostfix token = false) →
      (postfixTail cx' receiver' left).Gives (SameKind receiver) left := by
    intro tokens
    refine Gives.stay isPostfix_eq (by rw [postfixTail]) ?_ kind_eq
    intro token rest other
    rw [postfixTail_cons, if_neg (by simp [other])]
  match tokens with
  | [] =>
    rw [postfixTail] at given
    obtain ⟨rfl, rfl⟩ := given.of_done
    obtain ⟨rfl, ahead⟩ := traced.stay
    exact stays ahead (by simp)
  | token :: tokens =>
    rw [postfixTail_cons] at given
    split at given
    · next continues =>
      obtain ⟨node, rest₁, h₁, first, second⟩ := given.of_after.of_andThen
      obtain ⟨other, tokens'', rfl, alike, traced⟩ := traced.head (second.suffix.trans h₁)
      obtain ⟨between, traced₁, traced₂⟩ := traced.split h₁ second.suffix
      rw [postfixTail_cons, if_pos ((isPostfix_eq alike).trans continues)]
      refine .after (((shorter tokens (by simp)).postfixNode alike _ _ _ _ first traced₁).andThen
        fun node' _ kind_eq => ?_)
      exact (shorter rest₁ (length_lt_cons token h₁)).postfixTail kind_eq _ _ _ _ second traced₂
    · next other =>
      obtain ⟨rfl, rfl⟩ := given.of_done
      obtain ⟨rfl, ahead⟩ := traced.stay
      exact stays ahead (by simpa using other)

theorem again_entriesTail :
    Repeats (entriesTail cx) (entriesTail cx') Anything tokens := by
  intro value rest tokens' left given traced
  match tokens with
  | [] => exact absurd (takes_entriesTail given) not_takes_nil
  | key :: tokens =>
    rw [entriesTail_cons] at given
    obtain ⟨nodes, rest₁, h₁, first, second⟩ := given.of_after.of_andThen
    obtain ⟨key', tokens'', rfl, alike, traced⟩ := traced.head (second.suffix.trans h₁)
    obtain ⟨between, traced₁, traced₂⟩ := traced.split h₁ second.suffix
    have goesOn : between ≠ [] := by
      obtain ⟨_, _, _, _, -, rfl, -⟩ := traced₂.exists_head (takes_entriesEnd second)
      exact List.cons_ne_nil _ _
    rw [entriesTail_cons]
    refine .after (((shorter tokens (by simp)).entry alike _ _ _ _ first traced₁ goesOn).andThen
      fun nodes' _ _ => ?_)
    exact (shorter rest₁ (length_lt_cons key h₁)).entriesEnd _ _ _ _ second traced₂

theorem again_entries :
    Repeats (entries cx) (entries cx') Anything tokens := by
  intro value rest tokens' left given traced
  match tokens with
  | [] =>
    rw [entries] at given
    exact given.not_reporting.elim
  | token :: tokens =>
    rw [entries] at given
    split at given
    · next closes =>
      obtain ⟨-, rfl⟩ := given.of_after.of_done
      obtain ⟨other, tokens'', rfl, alike, traced⟩ := traced.head List.suffix_rfl
      obtain ⟨rfl, -⟩ := traced.stay
      rw [entries, if_pos ((alike.isPunctuation_eq _).trans closes)]
      exact (Gives.done trivial).after
    · next further =>
      obtain ⟨_, _, other, tokens'', ⟨⟩, rfl, alike, -⟩ :=
        traced.exists_head (takes_entriesTail given)
      rw [entries, if_neg (by rw [alike.isPunctuation_eq]; exact further)]
      exact again_entriesTail shorter _ _ _ _ given traced

theorem again_entriesEnd : ∀ {nodes nodes' : List Node},
    Repeats (entriesEnd cx nodes) (entriesEnd cx' nodes') Anything tokens := by
  intro nodes nodes' value rest tokens' left given traced
  match tokens with
  | [] => exact given.of_map.not_reporting.elim
  | token :: tokens =>
    rw [entriesEnd] at given
    split at given
    · next comma =>
      obtain ⟨other, tokens'', rfl, alike, traced⟩ := traced.head given.of_after.suffix
      obtain ⟨clean, -, rest_eq⟩ := given.of_after.of_map
      have more := (shorter tokens (by simp)).entriesTail _ _ _ _ ⟨clean, rfl, rest_eq⟩ traced
      rw [entriesEnd, if_pos ((alike.isPunctuation_eq _).trans comma)]
      exact .after (more.map fun _ _ => trivial)
    · next noComma =>
      obtain ⟨_, _, other, tokens'', ⟨⟩, rfl, alike, -⟩ :=
        traced.exists_head (takes_expect given.of_map)
      obtain ⟨clean, -, rest_eq⟩ := given.of_map
      rw [entriesEnd, if_neg (by rw [alike.isPunctuation_eq]; exact noComma)]
      exact (again_expect _ _ _ _ _ _ ⟨clean, rfl, rest_eq⟩ traced).map fun _ _ => trivial

theorem again_entry : ∀ {key key' : Token}, key.Alike key' → ∀ value rest tokens' left,
    (entry cx key tokens).Gives (· = value) rest → Retraces tokens rest tokens' left →
      left ≠ [] → (entry cx' key' tokens').Gives (Anything value) left := by
  intro key key' alike value rest tokens' left given traced goesOn
  rw [entry] at given ⊢
  split at given
  · next name found =>
    obtain ⟨-, rfl⟩ := given.of_done
    obtain ⟨rfl, ahead⟩ := traced.stay
    cases ahead with
    | nothing => exact absurd rfl goesOn
    | alike next_alike more more' =>
      have found' := (shorthand?_cons more more' alike next_alike).trans found
      simp only [found']
      exact .done trivial
  · next notShort =>
    obtain ⟨colon, between, h, first, second⟩ := given.of_andThen
    obtain ⟨_, _, next, tokens'', rfl, rfl, next_alike, -⟩ :=
      traced.exists_head ((takes_expect first).of_suffix second.suffix)
    obtain ⟨between', traced₁, traced₂⟩ := traced.split h second.suffix
    obtain ⟨clean, -, rest_eq⟩ := second.of_map
    have bound := (shorter between (takes_expect first).length_lt).pipe _ _ _ _
      ⟨clean, rfl, rest_eq⟩ traced₂
    have notShort' := (shorthand?_cons _ tokens'' alike next_alike).trans notShort
    simp only [notShort']
    refine (again_expect ':' _ _ _ _ _ first traced₁).andThen fun colon' _ _ => ?_
    exact bound.map fun _ _ => trivial

end Grammar

theorem replays (same : cx'.mode = cx.mode) (tokens : List Token) : Replays cx cx' tokens := by
  have shorter : ∀ rest : List Token, rest.length < tokens.length → Replays cx cx' rest :=
    fun rest _ => replays same rest
  exact
    { pipe := again_pipe shorter
      pipeTail := again_pipeTail same shorter
      pipeArguments := again_pipeArguments shorter
      pipeArgumentItems := again_pipeArgumentItems shorter
      assignment := again_assignment shorter
      assignmentTail := again_assignmentTail same shorter
      conditionalTail := again_conditionalTail shorter
      binary := again_binary shorter
      binaryTail := again_binaryTail shorter _
      exponentiation := again_exponentiation shorter
      exponentiationTail := again_exponentiationTail shorter
      prefixed := again_prefixed shorter
      postfixTail := again_postfixTail shorter
      postfixNode := again_postfixNode shorter
      keyed := again_keyed shorter
      call := again_call shorter
      parenthesized := again_parenthesized shorter
      items := again_items shorter
      itemsTail := again_itemsTail shorter
      itemsEnd := again_itemsEnd shorter
      entries := again_entries shorter
      entriesTail := again_entriesTail shorter
      entriesEnd := again_entriesEnd shorter
      entry := again_entry shorter }
termination_by tokens.length

theorem again_chainTail (same : cx'.mode = cx.mode) (tokens : List Token) :
    Repeats (chainTail cx) (chainTail cx') Anything tokens := by
  induction size_eq : tokens.length using Nat.strongRecOn generalizing tokens with
  | ind size shorter =>
    intro value rest tokens' left given traced
    have stays : ∀ {tokens : List Token}, Ahead tokens left →
        (∀ token ∈ tokens.head?, token.isPunctuation ';' = false) →
        (chainTail cx' left).Gives (Anything value) left := by
      intro tokens
      refine Gives.stay (fun alike => alike.isPunctuation_eq ';') (by rw [chainTail]) ?_ trivial
      intro token rest other
      cases rest <;> rw [chainTail, if_neg (by simp [other])]
    cases tokens with
    | nil =>
      rw [chainTail] at given
      obtain ⟨-, rfl⟩ := given.of_done
      obtain ⟨rfl, ahead⟩ := traced.stay
      exact stays ahead (by simp)
    | cons token tokens =>
      cases tokens with
      | nil =>
        rw [chainTail] at given
        split at given
        · next semicolon =>
          obtain ⟨-, rfl⟩ := given.of_after.of_done
          obtain ⟨other, tokens'', rfl, alike, traced⟩ := traced.head List.suffix_rfl
          obtain ⟨rfl, ahead⟩ := traced.stay
          cases ahead
          rw [chainTail, if_pos ((alike.isPunctuation_eq _).trans semicolon)]
          exact (Gives.done trivial).after
        · next other =>
          obtain ⟨-, rfl⟩ := given.of_done
          obtain ⟨rfl, ahead⟩ := traced.stay
          exact stays ahead (by simpa using other)
      | cons next tokens =>
        rw [chainTail] at given
        split at given
        · next semicolon =>
          obtain ⟨operand, rest₁, h₁, first, second⟩ := given.of_after.of_andThen
          obtain ⟨other, tokens'', rfl, alike, traced⟩ := traced.head (second.suffix.trans h₁)
          obtain ⟨_, _, _, _, ⟨⟩, rfl, -⟩ :=
            traced.exists_head ((takes_pipe first).of_suffix second.suffix)
          obtain ⟨between, traced₁, traced₂⟩ := traced.split h₁ second.suffix
          obtain ⟨clean, -, rest_eq⟩ := second.of_map
          have less : rest₁.length < size := by
            have := h₁.length_le
            simp only [List.length_cons] at *
            omega
          have more := shorter _ less rest₁ rfl _ _ _ _ ⟨clean, rfl, rest_eq⟩ traced₂
          rw [chainTail, if_pos ((alike.isPunctuation_eq _).trans semicolon)]
          refine .after (((replays same _).pipe _ _ _ _ first traced₁).andThen fun operand' _ _ => ?_)
          exact more.map fun _ _ => trivial
        · next other =>
          obtain ⟨-, rfl⟩ := given.of_done
          obtain ⟨rfl, ahead⟩ := traced.stay
          exact stays ahead (by simpa using other)

theorem again_chain (same : cx'.mode = cx.mode) (tokens : List Token) :
    Repeats (chain cx) (chain cx') Anything tokens := by
  intro value rest tokens' left given traced
  cases tokens with
  | nil =>
    obtain ⟨-, rfl⟩ := given.of_done
    obtain ⟨rfl, ahead⟩ := traced.stay
    cases ahead
    exact .done trivial
  | cons token tokens =>
    rw [chain] at given
    obtain ⟨operand, between, h, first, second⟩ := given.of_andThen
    obtain ⟨between', traced₁, traced₂⟩ := traced.split h second.suffix
    obtain ⟨_, _, other, tokens'', ⟨⟩, rfl, -⟩ :=
      traced.exists_head ((takes_pipe first).of_suffix second.suffix)
    rw [chain]
    refine ((replays same _).pipe _ _ _ _ first traced₁).andThen fun operand' _ _ => ?_
    cases between with
    | nil =>
      obtain ⟨-, rfl⟩ := second.of_done
      obtain ⟨rfl, ahead⟩ := traced₂.stay
      cases ahead
      exact .done trivial
    | cons separator between =>
      dsimp only at second
      split at second
      · next semicolon =>
        obtain ⟨allowed, second⟩ := second.of_reporting
        obtain ⟨clean, -, rest_eq⟩ := second.of_map
        have more := again_chainTail same _ _ _ _ _ ⟨clean, rfl, rest_eq⟩ traced₂
        obtain ⟨_, _, separator', between'', ⟨⟩, rfl, alike, -⟩ :=
          traced₂.exists_head (takes_chainTail semicolon second.of_map)
        dsimp only
        rw [if_pos ((alike.isPunctuation_eq _).trans semicolon)]
        refine .reporting (more.map fun _ _ => trivial) ?_
        rw [same]
        exact harmless_ite allowed id fun harmless => absurd rfl (harmless_cons.mp harmless).1
      · next noSemicolon =>
        obtain ⟨-, rfl⟩ := second.of_done
        obtain ⟨rfl, ahead⟩ := traced₂.stay
        cases ahead with
        | nothing => exact .done trivial
        | alike alike more more' =>
          dsimp only
          rw [if_neg (by rw [alike.isPunctuation_eq]; exact noSemicolon)]
          exact .done trivial

def ReadsAlone (mode : Mode) (tokens : List Token) : Prop :=
  ∀ cx tokens', cx.mode = mode → List.Forall₂ Token.Alike tokens tokens' →
    Harmless (chain cx tokens').diagnostics ∧ (chain cx tokens').rest = []

theorem harmless_parse_iff {mode : Mode} {offset : Nat} {text : Text} :
    Harmless (parse mode offset text).2 ↔
      Harmless (chain ⟨mode, offset + text.byteLength⟩ (tokensAt offset text)).diagnostics ∧
        (chain ⟨mode, offset + text.byteLength⟩ (tokensAt offset text)).rest = [] := by
  have leftover_iff : ∀ tokens : List Token, Harmless (leftover tokens) ↔ tokens = [] := by
    intro tokens
    cases tokens with
    | nil => simp [leftover]
    | cons token tokens => simp [leftover, Token.problem, severity, Problem.severity]
  rw [parse]
  simp only [harmless_append, leftover_iff]

/-- A text without errors is read as one expression, whatever looks like it. -/
theorem readsAlone_of_parse {mode : Mode} {offset : Nat} {text : Text}
    (clean : Harmless (parse mode offset text).2) : ReadsAlone mode (tokensAt offset text) := by
  intro cx tokens' same alike
  obtain ⟨clean, finished⟩ := harmless_parse_iff.mp clean
  have given : (chain ⟨mode, offset + text.byteLength⟩ (tokensAt offset text)).Gives (· = _) [] :=
    ⟨clean, rfl, finished⟩
  have traced : Retraces (tokensAt offset text) [] tokens' [] :=
    ⟨_, _, (List.append_nil _).symm, (List.append_nil _).symm, alike, .nothing _⟩
  obtain ⟨clean', -, finished'⟩ := again_chain same _ _ _ _ _ given traced
  exact ⟨clean', finished'⟩

end Expression

end ComponentExtraction
