import ComponentExtraction.Proofs.Expression.Replay

/-!
# Expressions in front of more tokens

A rule that has read some tokens to their end, and met no error, reads them just the
same where more tokens follow, if these start with one that ends every expression
(`Ends`): the rule finds the same tree and leaves the tokens behind it
(`extends_pipe`). The text in which the tokens stand may be another one, so tokens are
compared by their places and by what they look like (`Token.Matches`).

The last token that is read without an error is none that the lexer has rejected
(`LastLegible`). Such a token may only stand for the key of an object's entry, where a colon
has to follow.
-/

namespace ComponentExtraction

namespace Expression

open Diagnostic

variable {cx cx' : Context} {token other stop : Token}
variable {tokens tokens' rest left tail between : List Token}

namespace Token

/-- Tokens at one place that no rule tells apart. The lexer may
have rejected both of them for different reasons. -/
structure Matches (token other : Token) : Prop where
  span_eq : other.span = token.span
  alike : token.Alike other

theorem Matches.leaf_eq (same : token.Matches other) : other.leaf = token.leaf :=
  congrArg Node.leaf same.span_eq

theorem Matches.single_eq (same : token.Matches other) (kind : Kind) :
    single kind other = single kind token := by
  rw [single, single, same.leaf_eq, same.span_eq]

def isError (token : Token) : Bool :=
  match token.lexeme with
  | .error _ => true
  | _ => false

theorem isError_eq_false {lexeme : Lexeme} (lexeme_eq : token.lexeme = lexeme)
    (legible : ∀ cause, lexeme ≠ .error cause) : token.isError = false := by
  unfold isError
  split
  · next cause error => exact absurd (lexeme_eq.symm.trans error) (legible cause)
  · rfl

/-- What no rejected token passes is passed by legible tokens only. -/
theorem isError_of_test (test : Lexeme → Bool) (passed : test token.lexeme = true)
    (rejects : ∀ cause, test (.error cause) = false) : token.isError = false := by
  refine isError_eq_false rfl ?_
  intro cause error
  exact absurd ((error ▸ passed).symm.trans (rejects cause)) (by simp)

theorem isError_of_isPunctuation {c : Char} (mark : token.isPunctuation c = true) :
    token.isError = false :=
  isError_of_test (· == .punctuation c) mark fun _ => rfl

theorem isError_of_isOperator {operator : Operator} (sign : token.isOperator operator = true) :
    token.isError = false :=
  isError_of_test (· == .operator operator) sign fun _ => rfl

theorem isError_of_isPostfix (goesOn : isPostfix token = true) : token.isError = false := by
  simp only [isPostfix, Bool.or_eq_true] at goesOn
  rcases goesOn with (((mark | mark) | mark) | mark) | mark
  · exact isError_of_isPunctuation mark
  · exact isError_of_isPunctuation mark
  · exact isError_of_isPunctuation mark
  · exact isError_of_isOperator mark
  · exact isError_of_isOperator mark

theorem isError_of_binary {level : Nat} {operator : BinaryOperator}
    (found : BinaryOperator.ofLexeme? level token.lexeme = some operator) :
    token.isError = false := by
  have accepted := List.find?_some found
  simp only [decide_eq_true_eq] at accepted
  refine isError_eq_false accepted.1.symm ?_
  cases operator <;> exact fun _ => by simp [BinaryOperator.lexeme]

theorem isError_of_prefixed {operator : PrefixOperator}
    (found : PrefixOperator.ofLexeme? token.lexeme = some operator) : token.isError = false := by
  have accepted := List.find?_some found
  simp only [decide_eq_true_eq] at accepted
  refine isError_eq_false accepted.symm ?_
  cases operator <;> exact fun _ => by simp [PrefixOperator.lexeme]

theorem isError_of_name? {name : Text} (found : token.lexeme.name? = some name) :
    token.isError = false :=
  isError_of_test (fun lexeme => lexeme.name?.isSome) (Option.isSome_of_eq_some found) fun _ => rfl

/-- No rule goes on with the token or starts with it. -/
def Ends (token : Token) : Prop :=
  token.lexeme = .punctuation ';' ∨ token.lexeme = .keyword .as_

namespace Ends

variable (ends : token.Ends)
include ends

theorem isPunctuation_eq {c : Char} (other : c ≠ ';') : token.isPunctuation c = false := by
  rcases ends with lexeme_eq | lexeme_eq
  · rw [isPunctuation, lexeme_eq]
    simpa using Ne.symm other
  · rw [isPunctuation, lexeme_eq]
    rfl

theorem isOperator_eq (operator : Operator) : token.isOperator operator = false := by
  rcases ends with lexeme_eq | lexeme_eq <;> rw [isOperator, lexeme_eq] <;> rfl

theorem binary_eq (level : Nat) : BinaryOperator.ofLexeme? level token.lexeme = none := by
  rcases ends with lexeme_eq | lexeme_eq <;> rw [lexeme_eq] <;>
    simp [BinaryOperator.ofLexeme?, BinaryOperator.all, BinaryOperator.lexeme]

theorem prefixed_eq : PrefixOperator.ofLexeme? token.lexeme = none := by
  rcases ends with lexeme_eq | lexeme_eq <;> rw [lexeme_eq] <;> decide

theorem isPostfix_eq : isPostfix token = false := by
  simp [isPostfix, ends.isPunctuation_eq, ends.isOperator_eq]

end Ends

end Token

abbrev Matched (tokens others : List Token) : Prop :=
  List.Forall₂ Token.Matches tokens others

def Ending (tail : List Token) : Prop :=
  ∀ stop ∈ tail.head?, stop.Ends

/-- The last token in front of the rest is none that the lexer has rejected.
A rejected one can become another token when the text goes on. -/
def LastLegible (tokens rest : List Token) : Prop :=
  ∀ front last, tokens = front ++ last :: rest → last.isError = false

namespace LastLegible

theorem refl (tokens : List Token) : LastLegible tokens tokens := by
  intro front last tokens_eq
  have length_eq := congrArg List.length tokens_eq
  simp only [List.length_append, List.length_cons] at length_eq
  omega

theorem cons (legible : token.isError = false) (h : LastLegible tokens rest) :
    LastLegible (token :: tokens) rest := by
  intro front last tokens_eq
  cases front with
  | nil =>
    cases tokens_eq
    exact legible
  | cons first front => exact h front last (List.cons.inj tokens_eq).2

theorem cons_of_length_lt (h : LastLegible tokens rest) (shorter : rest.length < tokens.length) :
    LastLegible (token :: tokens) rest := by
  intro front last tokens_eq
  cases front with
  | nil =>
    cases tokens_eq
    exact absurd shorter (Nat.lt_irrefl _)
  | cons first front => exact h front last (List.cons.inj tokens_eq).2

theorem trans (first : LastLegible tokens between) (second : LastLegible between rest)
    (suffix : between <:+ tokens) (suffix' : rest <:+ between) : LastLegible tokens rest := by
  intro front last tokens_eq
  obtain ⟨before, rfl⟩ := suffix
  obtain ⟨taken, rfl⟩ := suffix'
  rcases List.eq_nil_or_concat taken with rfl | ⟨taken, final, rfl⟩
  · exact first front last tokens_eq
  · have tokens_eq : (before ++ taken ++ [final]) ++ rest = (front ++ [last]) ++ rest := by
      simpa using tokens_eq
    have last_eq := List.append_inj_right' (List.append_cancel_right tokens_eq) rfl
    cases last_eq
    exact second taken last (by simp)

end LastLegible

namespace Parsing

variable {α β : Type}

/-- If a step meets no error, then neither does the other one, which finds the same
and leaves the tail and what matches the rest. -/
def Extends (tail : List Token) (step : Parsing α tokens) (step' : Parsing α tokens') : Prop :=
  Harmless step.diagnostics →
    Harmless step'.diagnostics ∧ step'.value = step.value ∧
      (∃ left, step'.rest = left ++ tail ∧ Matched step.rest left) ∧ LastLegible tokens step.rest

namespace Extends

theorem done {value : α} (matched : Matched tokens left) :
    (Parsing.done value tokens).Extends tail (Parsing.done value (left ++ tail)) :=
  fun _ => ⟨harmless_nil, rfl, ⟨left, rfl, matched⟩, .refl tokens⟩

theorem done_cons {value : α} (first : token.Matches other) (later : Matched tokens left) :
    (Parsing.done value (token :: tokens)).Extends tail
      (Parsing.done value (other :: (left ++ tail))) :=
  done (.cons first later)

/-- A rule that reads nothing at the end and in front of what ends expressions. -/
theorem stay {f f' : (tokens : List Token) → Parsing α tokens} {value : α} (ends : Ending tail)
    (atEnd : f [] = Parsing.done value []) (atEnd' : f' [] = Parsing.done value [])
    (atStop : ∀ stop rest, stop.Ends → f' (stop :: rest) = Parsing.done value (stop :: rest)) :
    (f []).Extends tail (f' ([] ++ tail)) := by
  rw [atEnd, List.nil_append]
  cases tail with
  | nil =>
    rw [atEnd']
    exact done .nil
  | cons stop rest =>
    rw [atStop stop rest (ends stop rfl)]
    exact done .nil

theorem andThen {first : Parsing α tokens} {first' : Parsing α tokens'}
    {next : (value : α) → (rest : List Token) → rest <:+ tokens → Parsing β rest}
    {next' : (value : α) → (rest : List Token) → rest <:+ tokens' → Parsing β rest}
    (h : first.Extends tail first')
    (continues : ∀ value rest left (suffix : rest <:+ tokens) (suffix' : left ++ tail <:+ tokens'),
      Matched rest left → (next value rest suffix).Extends tail (next' value (left ++ tail) suffix')) :
    (first.andThen next).Extends tail (first'.andThen next') := by
  intro harmless
  obtain ⟨harmless₁, harmless₂⟩ := harmless_append.mp harmless
  obtain ⟨value', diagnostics', rest', suffix'⟩ := first'
  obtain ⟨clean, value_eq, ⟨left, rest_eq, matched⟩, legible⟩ := h harmless₁
  cases value_eq
  cases rest_eq
  obtain ⟨clean', found, kept, legible'⟩ :=
    continues first.value first.rest left first.rest_suffix suffix' matched harmless₂
  have further := (next first.value first.rest first.rest_suffix).rest_suffix
  exact ⟨harmless_append.mpr ⟨clean, clean'⟩, found, kept,
    legible.trans legible' first.rest_suffix further⟩

theorem map {step : Parsing α tokens} {step' : Parsing α tokens'} (f : α → β)
    (h : step.Extends tail step') : (step.map f).Extends tail (step'.map f) := by
  intro harmless
  obtain ⟨clean, value_eq, kept⟩ := h harmless
  exact ⟨clean, congrArg f value_eq, kept⟩

theorem after {step : Parsing α tokens} {step' : Parsing α tokens'}
    (legible : token.isError = false) (h : step.Extends tail step') :
    (step.after token).Extends tail (step'.after other) := by
  intro harmless
  obtain ⟨clean, value_eq, kept, closed⟩ := h harmless
  exact ⟨clean, value_eq, kept, closed.cons legible⟩

theorem after_of_lt {step : Parsing α tokens} {step' : Parsing α tokens'}
    (h : step.Extends tail step')
    (more : Harmless step.diagnostics → step.rest.length < tokens.length) :
    (step.after token).Extends tail (step'.after other) := by
  intro harmless
  obtain ⟨clean, value_eq, kept, closed⟩ := h harmless
  exact ⟨clean, value_eq, kept, closed.cons_of_length_lt (more harmless)⟩

theorem reporting {step : Parsing α tokens} {step' : Parsing α tokens'}
    {diagnostics diagnostics' : List Diagnostic}
    (allowed : Harmless diagnostics → Harmless diagnostics') (h : step.Extends tail step') :
    (step.reporting diagnostics).Extends tail (step'.reporting diagnostics') := by
  intro harmless
  obtain ⟨harmless₁, harmless₂⟩ := harmless_append.mp harmless
  obtain ⟨clean, found⟩ := h harmless₂
  exact ⟨harmless_append.mpr ⟨allowed harmless₁, clean⟩, found⟩

theorem error {step : Parsing α tokens} {step' : Parsing α tokens'} {d : Diagnostic}
    {diagnostics : List Diagnostic} (error : d.severity = .error := by rfl) :
    (step.reporting (d :: diagnostics)).Extends tail step' :=
  fun harmless => absurd error (harmless_cons.mp (harmless_append.mp harmless).1).1

end Extends

end Parsing

open Parsing (Extends)

theorem extends_expect (c : Char) (matched : Matched tokens tokens') :
    (expect cx c tokens).Extends tail (expect cx' c (tokens' ++ tail)) := by
  cases matched with
  | nil => exact .error
  | @cons token other rest rest' first later =>
    rw [List.cons_append, expect, expect, first.alike.isPunctuation_eq, first.leaf_eq]
    split
    · next mark => exact .after (Token.isError_of_isPunctuation mark) (.done later)
    · exact .error

theorem extends_pipeName (matched : Matched tokens tokens') :
    (pipeName cx tokens).Extends tail (pipeName cx' (tokens' ++ tail)) := by
  cases matched with
  | nil => exact .error
  | @cons token other rest rest' first later =>
    rw [List.cons_append, pipeName, pipeName, first.alike.name?_eq, first.leaf_eq, first.span_eq]
    cases found : token.lexeme.name? with
    | none => exact .error
    | some name => exact .after (Token.isError_of_name? found) (.done later)

theorem extends_member {receiver : Node} {dot dot' : Token} (dots : dot.Matches dot')
    (matched : Matched tokens tokens') :
    (member cx receiver dot tokens).Extends tail
      (member cx' receiver dot' (tokens' ++ tail)) := by
  cases matched with
  | nil => exact .error
  | @cons token other rest rest' first later =>
    simp only [List.cons_append, member, first.alike.name?_eq, first.leaf_eq, dots.leaf_eq]
    cases found : token.lexeme.name? with
    | none => exact .error
    | some name => exact .after (Token.isError_of_name? found) (.done later)

theorem not_harmless_misplaced : ¬Harmless (misplaced token tokens).diagnostics := by
  unfold misplaced
  split <;> simp [Parsing.reporting, Token.problem, severity, Problem.severity]

theorem extends_atom (first : token.Matches other) (matched : Matched tokens tokens') :
    ((atom token tokens).after token).Extends tail
      ((atom other (tokens' ++ tail)).after other) := by
  simp only [atom, first.alike.isLiteral_eq, first.alike.isKeyword_eq, first.alike.name?_eq,
    first.single_eq]
  split
  · next literal =>
    have legible := Token.isError_of_test Lexeme.isLiteral literal fun _ => rfl
    exact .after legible (.done matched)
  split
  · next this =>
    have legible := Token.isError_of_test (· == .keyword .this_) this fun _ => rfl
    exact .after legible (.done matched)
  cases found : token.lexeme.name? with
  | some name => exact .after (Token.isError_of_name? found) (.done matched)
  | none =>
    have faulty : ¬Harmless (misplaced token tokens).diagnostics := not_harmless_misplaced
    exact fun harmless => absurd harmless faulty

section Grammar

variable (same : cx'.mode = cx.mode) (ends : Ending tail)
include same ends

set_option linter.unusedSectionVars false

mutual

theorem extends_pipe {tokens tokens' : List Token} (matched : Matched tokens tokens') :
    (pipe cx tokens).Extends tail (pipe cx' (tokens' ++ tail)) := by
  rw [pipe, pipe]
  refine (extends_assignment matched).andThen fun value rest left h _ matched => ?_
  exact extends_pipeTail value matched
termination_by rank tokens 40
decreasing_by
  all_goals simp only [rank_eq]
  · omega
  · have := h.length_le
    omega

theorem extends_pipeTail (value : Node) {tokens tokens' : List Token}
    (matched : Matched tokens tokens') :
    (pipeTail cx value tokens).Extends tail (pipeTail cx' value (tokens' ++ tail)) := by
  cases matched with
  | nil =>
    refine .stay ends (by rw [pipeTail]) (by rw [pipeTail]) fun stop rest last => ?_
    rw [pipeTail, if_neg (by simp [last.isOperator_eq])]
  | @cons token other rest rest' first later =>
    rw [List.cons_append, pipeTail, pipeTail, first.alike.isOperator_eq, first.leaf_eq]
    split
    · next mark =>
      refine .reporting ?_ (.after (Token.isError_of_isOperator mark) ?_)
      · intro harmless
        rw [same]
        exact harmless_ite harmless (fun error => absurd rfl (harmless_cons.mp error).1) id
      refine (extends_pipeName later).andThen fun name rest₁ left₁ h₁ _ later => ?_
      refine (extends_pipeArguments later).andThen fun arguments rest₂ left₂ h₂ _ later => ?_
      exact extends_pipeTail _ later
    · exact .done_cons first later
termination_by rank tokens 39
decreasing_by
  all_goals simp only [rank_eq]
  · have := h₁.length_le
    simp only [List.length_cons]
    omega
  · have := h₁.length_le
    have := h₂.length_le
    simp only [List.length_cons]
    omega

theorem extends_pipeArguments {tokens tokens' : List Token} (matched : Matched tokens tokens') :
    (pipeArguments cx tokens).Extends tail (pipeArguments cx' (tokens' ++ tail)) := by
  cases matched with
  | nil =>
    have atEnd (cx : Context) : pipeArguments cx [] = Parsing.done [] [] := by
      rw [pipeArguments, pipeArgumentItems]
      rfl
    refine .stay ends (atEnd cx) (atEnd cx') fun stop rest last => ?_
    rw [pipeArguments, pipeArgumentItems, if_neg (by simp [last.isPunctuation_eq])]
    rfl
  | @cons token other rest rest' first later =>
    have offset_eq : cx'.offset (other :: rest' ++ tail) = cx.offset (token :: rest) :=
      congrArg Span.start first.span_eq
    rw [pipeArguments, pipeArguments, offset_eq]
    exact (extends_pipeArgumentItems (.cons first later)).map _
termination_by rank tokens 38
decreasing_by
  all_goals simp only [rank_eq]
  omega

theorem extends_pipeArgumentItems {tokens tokens' : List Token}
    (matched : Matched tokens tokens') :
    (pipeArgumentItems cx tokens).Extends tail (pipeArgumentItems cx' (tokens' ++ tail)) := by
  cases matched with
  | nil =>
    refine .stay ends (by rw [pipeArgumentItems]) (by rw [pipeArgumentItems]) ?_
    intro stop rest last
    rw [pipeArgumentItems, if_neg (by simp [last.isPunctuation_eq])]
  | @cons token other rest rest' first later =>
    rw [List.cons_append, pipeArgumentItems, pipeArgumentItems, first.alike.isPunctuation_eq,
      first.leaf_eq]
    split
    · next colon =>
      refine .after (Token.isError_of_isPunctuation colon) ?_
      refine (extends_assignment later).andThen fun argument rest₁ left₁ h₁ _ later => ?_
      exact (extends_pipeArgumentItems later).map _
    · exact .done_cons first later
termination_by rank tokens 37
decreasing_by
  all_goals simp only [rank_eq, List.length_cons]
  · omega
  · have := h₁.length_le
    omega

theorem extends_assignment {tokens tokens' : List Token} (matched : Matched tokens tokens') :
    (assignment cx tokens).Extends tail (assignment cx' (tokens' ++ tail)) := by
  rw [assignment_eq, assignment_eq]
  refine (extends_conditional matched).andThen fun target rest left h _ matched => ?_
  exact extends_assignmentTail target matched
termination_by rank tokens 36
decreasing_by
  all_goals simp only [rank_eq]
  · omega
  · have := h.length_le
    omega

theorem extends_assignmentTail (target : Node) {tokens tokens' : List Token}
    (matched : Matched tokens tokens') :
    (assignmentTail cx target tokens).Extends tail
      (assignmentTail cx' target (tokens' ++ tail)) := by
  cases matched with
  | nil =>
    refine .stay ends rfl rfl fun stop rest last => ?_
    simp only [assignmentTail, last.binary_eq]
  | @cons token other rest rest' first later =>
    simp only [List.cons_append, assignmentTail, first.alike.binary_eq, first.leaf_eq]
    cases found : BinaryOperator.ofLexeme? 0 token.lexeme with
    | some operator =>
      refine .reporting (harmless_assignmentProblems same rfl) ?_
      exact .after (Token.isError_of_binary found) ((extends_assignment later).map _)
    | none => exact .done_cons first later
termination_by rank tokens 1
decreasing_by
  all_goals simp only [rank_eq, List.length_cons]
  omega

theorem extends_conditional {tokens tokens' : List Token} (matched : Matched tokens tokens') :
    (conditional cx tokens).Extends tail (conditional cx' (tokens' ++ tail)) := by
  rw [conditional_eq, conditional_eq]
  refine (extends_binary 2 matched).andThen fun condition rest left h _ matched => ?_
  exact extends_conditionalTail condition matched
termination_by rank tokens 35
decreasing_by
  all_goals simp only [rank_eq]
  · omega
  · have := h.length_le
    omega

theorem extends_conditionalTail (condition : Node) {tokens tokens' : List Token}
    (matched : Matched tokens tokens') :
    (conditionalTail cx condition tokens).Extends tail
      (conditionalTail cx' condition (tokens' ++ tail)) := by
  cases matched with
  | nil =>
    refine .stay ends rfl rfl fun stop rest last => ?_
    rw [conditionalTail, if_neg (by simp [last.isOperator_eq])]
  | @cons token other rest rest' first later =>
    rw [List.cons_append, conditionalTail, conditionalTail, first.alike.isOperator_eq,
      first.leaf_eq]
    split
    · next mark =>
      refine .after (Token.isError_of_isOperator mark) ?_
      refine (extends_pipe later).andThen fun yes rest₁ left₁ h₁ _ later => ?_
      refine (extends_expect ':' later).andThen fun colon rest₂ left₂ h₂ _ later => ?_
      exact (extends_pipe later).map _
    · exact .done_cons first later
termination_by rank tokens 1
decreasing_by
  all_goals simp only [rank_eq, List.length_cons]
  · omega
  · have := h₁.length_le
    have := h₂.length_le
    omega

theorem extends_binary (level : Nat) {tokens tokens' : List Token}
    (matched : Matched tokens tokens') :
    (binary cx level tokens).Extends tail (binary cx' level (tokens' ++ tail)) := by
  rw [binary.eq_def cx, binary.eq_def cx']
  split
  · refine (extends_binary (level + 1) matched).andThen fun operand rest left h _ matched => ?_
    exact extends_binaryTail level operand matched
  · exact extends_exponentiation matched
termination_by rank tokens (20 + (12 - level))
decreasing_by
  all_goals simp only [rank_eq]
  · omega
  · omega
  · have := h.length_le
    omega

theorem extends_binaryTail (level : Nat) (operand : Node) {tokens tokens' : List Token}
    (matched : Matched tokens tokens') :
    (binaryTail cx level operand tokens).Extends tail
      (binaryTail cx' level operand (tokens' ++ tail)) := by
  cases matched with
  | nil =>
    refine .stay ends (by rw [binaryTail]) (by rw [binaryTail]) fun stop rest last => ?_
    simp only [binaryTail, last.binary_eq]
  | @cons token other rest rest' first later =>
    rw [List.cons_append, binaryTail, binaryTail]
    simp only [first.alike.binary_eq, first.leaf_eq]
    cases found : BinaryOperator.ofLexeme? level token.lexeme with
    | some operator =>
      refine .after (Token.isError_of_binary found) ?_
      refine (extends_binary (level + 1) later).andThen fun right rest₁ left₁ h₁ _ later => ?_
      exact extends_binaryTail level _ later
    | none => exact .done_cons first later
termination_by rank tokens 19
decreasing_by
  all_goals simp only [rank_eq, List.length_cons]
  · omega
  · have := h₁.length_le
    omega

theorem extends_exponentiation {tokens tokens' : List Token}
    (matched : Matched tokens tokens') :
    (exponentiation cx tokens).Extends tail (exponentiation cx' (tokens' ++ tail)) := by
  rw [exponentiation_eq, exponentiation_eq]
  refine (extends_prefixed matched).andThen fun base rest left h _ matched => ?_
  exact extends_exponentiationTail base matched
termination_by rank tokens 18
decreasing_by
  all_goals simp only [rank_eq]
  · omega
  · have := h.length_le
    omega

theorem extends_exponentiationTail (base : Node) {tokens tokens' : List Token}
    (matched : Matched tokens tokens') :
    (exponentiationTail cx base tokens).Extends tail
      (exponentiationTail cx' base (tokens' ++ tail)) := by
  cases matched with
  | nil =>
    refine .stay ends rfl rfl fun stop rest last => ?_
    simp only [exponentiationTail, last.binary_eq]
  | @cons token other rest rest' first later =>
    simp only [List.cons_append, exponentiationTail, first.alike.binary_eq, first.leaf_eq]
    cases found : BinaryOperator.ofLexeme? 9 token.lexeme with
    | some operator =>
      exact .after (Token.isError_of_binary found) ((extends_exponentiation later).map _)
    | none => exact .done_cons first later
termination_by rank tokens 1
decreasing_by
  all_goals simp only [rank_eq, List.length_cons]
  omega

theorem extends_prefixed {tokens tokens' : List Token} (matched : Matched tokens tokens') :
    (prefixed cx tokens).Extends tail (prefixed cx' (tokens' ++ tail)) := by
  cases matched with
  | nil =>
    intro harmless
    have given : (prefixed cx []).Gives (fun _ => True) _ := ⟨harmless, trivial, rfl⟩
    exact absurd (takes_prefixed given) not_takes_nil
  | @cons token other rest rest' first later =>
    rw [List.cons_append, prefixed, prefixed]
    simp only [first.alike.prefixed_eq, first.leaf_eq, first.span_eq]
    cases found : PrefixOperator.ofLexeme? token.lexeme with
    | some operator =>
      exact .after (Token.isError_of_prefixed found) ((extends_prefixed later).map _)
    | none => exact extends_postfixed (.cons first later)
termination_by rank tokens 17
decreasing_by
  all_goals simp only [rank_eq, List.length_cons]
  all_goals omega

theorem extends_postfixed {tokens tokens' : List Token} (matched : Matched tokens tokens') :
    (postfixed cx tokens).Extends tail (postfixed cx' (tokens' ++ tail)) := by
  rw [postfixed, postfixed]
  refine (extends_primary matched).andThen fun receiver rest left h _ matched => ?_
  exact extends_postfixTail receiver matched
termination_by rank tokens 16
decreasing_by
  all_goals simp only [rank_eq]
  · omega
  · have := h.length_le
    omega

theorem extends_postfixTail (receiver : Node) {tokens tokens' : List Token}
    (matched : Matched tokens tokens') :
    (postfixTail cx receiver tokens).Extends tail
      (postfixTail cx' receiver (tokens' ++ tail)) := by
  cases matched with
  | nil =>
    refine .stay ends (by rw [postfixTail]) (by rw [postfixTail]) fun stop rest last => ?_
    rw [postfixTail_cons, if_neg (by simp [last.isPostfix_eq])]
  | @cons token other rest rest' first later =>
    rw [List.cons_append, postfixTail_cons, postfixTail_cons, isPostfix_eq first.alike]
    split
    · next goesOn =>
      refine .after (Token.isError_of_isPostfix goesOn) ?_
      refine (extends_postfixNode receiver first later).andThen
        fun node rest₁ left₁ h₁ _ later => ?_
      exact extends_postfixTail node later
    · exact .done_cons first later
termination_by rank tokens 15
decreasing_by
  all_goals simp only [rank_eq, List.length_cons]
  · omega
  · have := h₁.length_le
    omega

theorem extends_postfixNode (receiver : Node) {token other : Token} {tokens tokens' : List Token}
    (first : token.Matches other) (matched : Matched tokens tokens') :
    (postfixNode cx receiver token tokens).Extends tail
      (postfixNode cx' receiver other (tokens' ++ tail)) := by
  simp only [postfixNode, first.alike.isPunctuation_eq, first.alike.isOperator_eq, first.leaf_eq]
  split
  · exact extends_member first matched
  split
  · exact extends_keyed receiver _ matched
  split
  · exact extends_call receiver _ first matched
  split
  · exact .done matched
  · exact extends_safeAccess receiver first matched
termination_by rank tokens 50
decreasing_by
  all_goals simp only [rank_eq]
  all_goals omega

theorem extends_safeAccess (receiver : Node) {mark mark' : Token} {tokens tokens' : List Token}
    (marks : mark.Matches mark') (matched : Matched tokens tokens') :
    (safeAccess cx receiver mark tokens).Extends tail
      (safeAccess cx' receiver mark' (tokens' ++ tail)) := by
  cases matched with
  | nil =>
    rw [safeAccess]
    exact .error
  | @cons opening other rest rest' first later =>
    rw [List.cons_append, safeAccess, safeAccess]
    simp only [first.alike.isPunctuation_eq, first.leaf_eq, marks.leaf_eq]
    split
    · next parenthesis =>
      exact .after (Token.isError_of_isPunctuation parenthesis)
        (extends_call receiver _ first later)
    split
    · next bracket =>
      exact .after (Token.isError_of_isPunctuation bracket) (extends_keyed receiver _ later)
    · exact extends_member marks (.cons first later)
termination_by rank tokens 49
decreasing_by
  all_goals simp only [rank_eq, List.length_cons]
  all_goals omega

theorem extends_keyed (receiver : Node) (marks : List Node) {tokens tokens' : List Token}
    (matched : Matched tokens tokens') :
    (keyed cx receiver marks tokens).Extends tail
      (keyed cx' receiver marks (tokens' ++ tail)) := by
  rw [keyed, keyed]
  refine (extends_pipe matched).andThen fun key rest left h _ matched => ?_
  exact (extends_expect ']' matched).map _
termination_by rank tokens 43
decreasing_by
  all_goals simp only [rank_eq]
  omega

theorem extends_call (callee : Node) (marks : List Node) {opening opening' : Token}
    {tokens tokens' : List Token} (first : opening.Matches opening')
    (matched : Matched tokens tokens') :
    (call cx callee marks opening tokens).Extends tail
      (call cx' callee marks opening' (tokens' ++ tail)) := by
  rw [call, call, first.leaf_eq, first.span_eq]
  exact (extends_items ')' matched).map _
termination_by rank tokens 43
decreasing_by
  all_goals simp only [rank_eq]
  omega

theorem extends_items (closing : Char) {tokens tokens' : List Token}
    (matched : Matched tokens tokens') :
    (items cx closing tokens).Extends tail (items cx' closing (tokens' ++ tail)) := by
  cases matched with
  | nil =>
    intro harmless
    have given : (items cx closing []).Gives (fun _ => True) _ := ⟨harmless, trivial, rfl⟩
    exact absurd (takes_items given) not_takes_nil
  | @cons token other rest rest' first later =>
    rw [List.cons_append, items, items, first.alike.isPunctuation_eq, first.leaf_eq]
    split
    · next last => exact .after (Token.isError_of_isPunctuation last) (.done later)
    · exact extends_itemsTail closing (.cons first later)
termination_by rank tokens 42
decreasing_by
  all_goals simp only [rank_eq, List.length_cons]
  omega

theorem extends_itemsTail (closing : Char) {tokens tokens' : List Token}
    (matched : Matched tokens tokens') :
    (itemsTail cx closing tokens).Extends tail (itemsTail cx' closing (tokens' ++ tail)) := by
  rw [itemsTail_eq, itemsTail_eq]
  refine (extends_pipe matched).andThen fun item rest left h _ matched => ?_
  exact extends_itemsEnd closing item matched
termination_by rank tokens 41
decreasing_by
  all_goals simp only [rank_eq]
  · omega
  · have := h.length_le
    omega

theorem extends_itemsEnd (closing : Char) (item : Node) {tokens tokens' : List Token}
    (matched : Matched tokens tokens') :
    (itemsEnd cx closing item tokens).Extends tail
      (itemsEnd cx' closing item (tokens' ++ tail)) := by
  cases matched with
  | nil =>
    intro harmless
    exact absurd rfl (harmless_cons.mp (harmless_append.mp harmless).1).1
  | @cons token other rest rest' first later =>
    rw [List.cons_append, itemsEnd, itemsEnd, first.alike.isPunctuation_eq, first.leaf_eq]
    split
    · next comma =>
      exact .after (Token.isError_of_isPunctuation comma) ((extends_itemsTail closing later).map _)
    · exact (extends_expect closing (.cons first later)).map _
termination_by rank tokens 1
decreasing_by
  all_goals simp only [rank_eq, List.length_cons]
  omega

theorem extends_primary {tokens tokens' : List Token} (matched : Matched tokens tokens') :
    (primary cx tokens).Extends tail (primary cx' (tokens' ++ tail)) := by
  cases matched with
  | nil =>
    rw [primary]
    exact .error
  | @cons token other rest rest' first later =>
    rw [List.cons_append, primary_cons, primary_cons, first.alike.isPunctuation_eq,
      first.alike.isPunctuation_eq, first.alike.isPunctuation_eq, first.leaf_eq, first.span_eq]
    split
    · next parenthesis =>
      refine .after (Token.isError_of_isPunctuation parenthesis) ?_
      rw [parenthesized, parenthesized, first.leaf_eq, first.span_eq]
      refine (extends_pipe later).andThen fun inner rest₁ left₁ h₁ _ later => ?_
      exact (extends_expect ')' later).map _
    split
    · next bracket =>
      exact .after (Token.isError_of_isPunctuation bracket) ((extends_items ']' later).map _)
    split
    · next brace =>
      exact .after (Token.isError_of_isPunctuation brace) ((extends_entries later).map _)
    · exact extends_atom first later
termination_by rank tokens 13
decreasing_by
  all_goals simp only [rank_eq, List.length_cons]
  all_goals omega

theorem extends_entries {tokens tokens' : List Token} (matched : Matched tokens tokens') :
    (entries cx tokens).Extends tail (entries cx' (tokens' ++ tail)) := by
  cases matched with
  | nil =>
    rw [entries]
    exact .error
  | @cons token other rest rest' first later =>
    rw [List.cons_append, entries, entries, first.alike.isPunctuation_eq, first.leaf_eq]
    split
    · next brace => exact .after (Token.isError_of_isPunctuation brace) (.done later)
    · exact extends_entriesTail (.cons first later)
termination_by rank tokens 12
decreasing_by
  all_goals simp only [rank_eq, List.length_cons]
  omega

theorem extends_entriesTail {tokens tokens' : List Token} (matched : Matched tokens tokens') :
    (entriesTail cx tokens).Extends tail (entriesTail cx' (tokens' ++ tail)) := by
  cases matched with
  | nil =>
    rw [entriesTail]
    exact .error
  | @cons key other rest rest' first later =>
    rw [List.cons_append, entriesTail_cons, entriesTail_cons]
    -- The key may be any token, also one that the lexer has rejected.
    refine .after_of_lt ?_ fun harmless => ?_
    · refine (extends_entry first later).andThen fun nodes rest₁ left₁ h₁ _ later => ?_
      exact extends_entriesEnd nodes later
    · have second := (harmless_append.mp harmless).2
      have given : (entriesEnd cx (entry cx key rest).value (entry cx key rest).rest).Gives
          (fun _ => True) _ := ⟨second, trivial, rfl⟩
      exact Nat.lt_of_lt_of_le (takes_entriesEnd given).length_lt
        (entry cx key rest).rest_suffix.length_le
termination_by rank tokens 11
decreasing_by
  all_goals simp only [rank_eq, List.length_cons]
  · omega
  · have := h₁.length_le
    omega

theorem extends_entriesEnd (nodes : List Node) {tokens tokens' : List Token}
    (matched : Matched tokens tokens') :
    (entriesEnd cx nodes tokens).Extends tail (entriesEnd cx' nodes (tokens' ++ tail)) := by
  cases matched with
  | nil =>
    intro harmless
    exact absurd rfl (harmless_cons.mp (harmless_append.mp harmless).1).1
  | @cons token other rest rest' first later =>
    rw [List.cons_append, entriesEnd, entriesEnd, first.alike.isPunctuation_eq, first.leaf_eq]
    split
    · next comma =>
      exact .after (Token.isError_of_isPunctuation comma) ((extends_entriesTail later).map _)
    · exact (extends_expect _ (.cons first later)).map _
termination_by rank tokens 1
decreasing_by
  all_goals simp only [rank_eq, List.length_cons]
  omega

theorem extends_entry {key key' : Token} {tokens tokens' : List Token}
    (keys : key.Matches key') (matched : Matched tokens tokens') :
    (entry cx key tokens).Extends tail (entry cx' key' (tokens' ++ tail)) := by
  cases matched with
  | nil =>
    intro harmless
    rw [entry] at harmless
    exact absurd rfl (harmless_cons.mp (harmless_append.mp harmless).1).1
  | @cons token other rest rest' first later =>
    rw [entry, entry, List.cons_append,
      shorthand?_cons rest (rest' ++ tail) keys.alike first.alike]
    cases shorthand? key (token :: rest) with
    | some name =>
      simp only [keys.single_eq]
      exact .done_cons first later
    | none =>
      simp only [keys.leaf_eq]
      refine (extends_expect ':' (.cons first later)).andThen fun colon rest₁ left₁ h₁ _ later => ?_
      exact (extends_pipe later).map _
termination_by rank tokens 44
decreasing_by
  all_goals simp only [rank_eq]
  have := h₁.length_le
  omega

end

end Grammar

end Expression

end ComponentExtraction
