import ComponentExtraction.Proofs.Expression.Excerpt
import Mathlib.Data.List.TakeWhile

/-!
# Printing expressions

A term is an expression without the tokens that spell it. It is printed with a
blank between any two lexemes, and with parentheses only around an operand that
binds too loosely for its place (`Term.print`). Every lexeme of a printed term is
read back from its text (`writes_tokensAt`), as the blank behind it ends it.

The tree that a term asks for is compared with the tree of a parse through their
outlines: the kinds and the texts of the leaves, without spans and without the
nodes that stand for parentheses.
-/

namespace ComponentExtraction

namespace Expression

/-- A name that is no keyword. The lexer reads it as one
identifier wherever a blank follows it. -/
structure Name where
  first : Char
  more : Text
  starts : Text.isIdentifierStart first = true
  continues : ∀ c ∈ more, Text.isIdentifierPart c = true
  free : Keyword.ofWord? (first :: more) = none

namespace Name

def text (name : Name) : Text :=
  name.first :: name.more

def lexeme (name : Name) : Lexeme :=
  .identifier name.text

theorem eq_of_text_eq {name other : Name} (same : name.text = other.text) : name = other := by
  cases name
  cases other
  cases same
  rfl

end Name

/-- An expression of names, without the tokens that spell it.
Assignments are left out, as a binding may not hold any. -/
inductive Term where
  | identifier (name : Name)
  | member (receiver : Term) (safe : Bool) (name : Name)
  | keyed (receiver key : Term)
  | call (callee : Term) (arguments : List Term)
  | nonNull (operand : Term)
  | prefixed (operator : PrefixOperator) (operand : Term)
  | binary (operator : BinaryOperator) (plain : 2 ≤ operator.level) (left right : Term)
  | conditional (condition yes no : Term)
  | pipe (value : Term) (name : Name) (arguments : List Term)

namespace BinaryOperator

/-- How tightly the left operand has to bind: operators of a level associate to
the left, except for the power. -/
def leftLevel (operator : BinaryOperator) : Nat :=
  if operator = .power then 10 else operator.level

def rightLevel (operator : BinaryOperator) : Nat :=
  if operator = .power then 9 else operator.level + 1

end BinaryOperator

namespace Term

/-- What holds of a term when it holds of its parts holds of all terms. -/
theorem induction {P : Term → Prop} (identifier : ∀ name, P (.identifier name))
    (member : ∀ receiver safe name, P receiver → P (.member receiver safe name))
    (keyed : ∀ receiver key, P receiver → P key → P (.keyed receiver key))
    (call : ∀ callee arguments, P callee → (∀ t ∈ arguments, P t) → P (.call callee arguments))
    (nonNull : ∀ operand, P operand → P (.nonNull operand))
    (prefixed : ∀ operator operand, P operand → P (.prefixed operator operand))
    (binary : ∀ operator plain left right, P left → P right →
      P (.binary operator plain left right))
    (conditional : ∀ condition yes no, P condition → P yes → P no →
      P (.conditional condition yes no))
    (pipe : ∀ value name arguments, P value → (∀ t ∈ arguments, P t) →
      P (.pipe value name arguments)) (t : Term) : P t :=
  @Term.rec P (fun terms => ∀ t ∈ terms, P t) identifier member keyed call nonNull prefixed binary
    conditional pipe (by simp) (fun _ _ first more => List.forall_mem_cons.mpr ⟨first, more⟩) t

/-- How tightly a term binds. Operators have the levels of `BinaryOperator.level`;
those in front of an operand have level 10, and what needs no parentheses anywhere
has level 11. -/
def level : Term → Nat
  | pipe _ _ _ => 0
  | conditional _ _ _ => 1
  | binary operator _ _ _ => operator.level
  | prefixed _ _ => 10
  | identifier _ | member _ _ _ | keyed _ _ | call _ _ | nonNull _ => 11

def accessMark (safe : Bool) : Lexeme :=
  if safe then .operator .safeAccess else .punctuation '.'

/-- Lexemes of a level in a place for terms that bind at least so tightly. -/
def enclose (least level : Nat) (lexemes : List Lexeme) : List Lexeme :=
  if level < least then .punctuation '(' :: (lexemes ++ [.punctuation ')']) else lexemes

mutual

def print : Term → List Lexeme
  | identifier name => [name.lexeme]
  | member receiver safe name =>
    enclose 11 receiver.level receiver.print ++ [accessMark safe, name.lexeme]
  | keyed receiver key =>
    enclose 11 receiver.level receiver.print ++
      .punctuation '[' :: (key.print ++ [.punctuation ']'])
  | call callee [] =>
    enclose 11 callee.level callee.print ++ [.punctuation '(', .punctuation ')']
  | call callee (first :: arguments) =>
    enclose 11 callee.level callee.print ++ .punctuation '(' ::
      (first.print ++ (printBehind (.punctuation ',') 0 arguments ++ [.punctuation ')']))
  | nonNull operand => enclose 11 operand.level operand.print ++ [.operator .not]
  | prefixed operator operand => operator.lexeme :: enclose 10 operand.level operand.print
  | binary operator _ left right =>
    enclose operator.leftLevel left.level left.print ++
      operator.lexeme :: enclose operator.rightLevel right.level right.print
  | conditional condition yes no =>
    enclose 2 condition.level condition.print ++
      .operator .question :: (enclose 2 yes.level yes.print ++
        .punctuation ':' :: enclose 2 no.level no.print)
  | pipe value name arguments =>
    enclose 2 value.level value.print ++
      .operator .pipe :: name.lexeme :: printBehind (.punctuation ':') 2 arguments

/-- The lexemes of some terms, each behind a mark and in a place for terms that
bind at least so tightly. -/
def printBehind (mark : Lexeme) (least : Nat) : List Term → List Lexeme
  | [] => []
  | t :: terms => mark :: (enclose least t.level t.print ++ printBehind mark least terms)

end

example (a b c : Name) :
    (binary .times (by decide) (binary .plus (by decide) (identifier a) (identifier b))
      (identifier c)).print =
    [.punctuation '(', a.lexeme, .operator .plus, b.lexeme, .punctuation ')', .operator .times,
      c.lexeme] := rfl

def text (t : Term) : Text :=
  Text.joinWith [' '] (t.print.map Lexeme.text)

end Term

/-- A tree without spans. Outlines of one text are the same wherever the text stands. -/
inductive Outline where
  | leaf (text : Option Text)
  | node (kind : Kind) (children : List Outline)

namespace Outline

def ofLexeme (lexeme : Lexeme) : Outline :=
  .leaf (some lexeme.text)

/-- The outline of a node of some kind. Parentheses leave what they enclose. -/
def ofNode (kind : Kind) (text : Option Text) (children : List Outline) : Outline :=
  match kind, children with
  | .token, _ => .leaf text
  | .parenthesized, [_, inner, _] => inner
  | kind, children => .node kind children

end Outline

mutual

def outline (source : Text) : Node → Outline
  | .mk kind span children => .ofNode kind (span.textIn? source) (outlines source children)

def outlines (source : Text) : List Node → List Outline
  | [] => []
  | node :: nodes => outline source node :: outlines source nodes

end

namespace Term

mutual

def outline : Term → Outline
  | identifier name => .node (.reference name.text) [.ofLexeme name.lexeme]
  | member receiver safe name =>
    .node (.reference name.text)
      [receiver.outline, .ofLexeme (accessMark safe), .ofLexeme name.lexeme]
  | keyed receiver key =>
    .node .indexed [receiver.outline, .ofLexeme (.punctuation '['), key.outline,
      .ofLexeme (.punctuation ']')]
  | call callee [] =>
    .node .call [callee.outline, .node .argumentList
      [.ofLexeme (.punctuation '('), .ofLexeme (.punctuation ')')]]
  | call callee (first :: arguments) =>
    .node .call [callee.outline, .node .argumentList
      (.ofLexeme (.punctuation '(') :: first.outline ::
        outlinesBehind (.punctuation ',') arguments ++ [.ofLexeme (.punctuation ')')])]
  | nonNull operand => .node .nonNull [operand.outline, .ofLexeme (.operator .not)]
  | prefixed operator operand =>
    .node (.prefixed operator) [.ofLexeme operator.lexeme, operand.outline]
  | binary operator _ left right =>
    .node (.binary operator) [left.outline, .ofLexeme operator.lexeme, right.outline]
  | conditional condition yes no =>
    .node .conditional [condition.outline, .ofLexeme (.operator .question), yes.outline,
      .ofLexeme (.punctuation ':'), no.outline]
  | pipe value name arguments =>
    .node .pipe (value.outline :: .ofLexeme (.operator .pipe) ::
      .node (.pipeReference name.text) [.ofLexeme name.lexeme] ::
      if arguments.isEmpty then []
      else [.node .pipeArguments (outlinesBehind (.punctuation ':') arguments)])

def outlinesBehind (mark : Lexeme) : List Term → List Outline
  | [] => []
  | t :: terms => .ofLexeme mark :: t.outline :: outlinesBehind mark terms

end

theorem outline_call (callee : Term) (arguments : List Term) : (call callee arguments).outline =
    .node .call [callee.outline, .node .argumentList (.ofLexeme (.punctuation '(') ::
      (outlinesBehind (.punctuation ',') arguments).tail ++ [.ofLexeme (.punctuation ')')])] := by
  cases arguments with
  | nil => rw [outline]; rfl
  | cons first arguments => rw [outline, outlinesBehind]; rfl

theorem safe_eq_of_accessMark {safe safe' : Bool}
    (same : Outline.ofLexeme (accessMark safe) = Outline.ofLexeme (accessMark safe')) :
    safe = safe' := by
  revert safe safe'
  simp [Outline.ofLexeme, accessMark, Lexeme.text, Operator.symbol]

/-- Which terms stand behind marks can be told from their outlines. -/
theorem eq_of_outlinesBehind {mark : Lexeme} {terms others : List Term}
    (inner : ∀ t ∈ terms, ∀ {t'}, t.outline = t'.outline → t = t')
    (same : outlinesBehind mark terms = outlinesBehind mark others) : terms = others := by
  induction terms generalizing others with
  | nil =>
    cases others with
    | nil => rfl
    | cons => simp [outlinesBehind] at same
  | cons t terms ih =>
    obtain ⟨first, more⟩ := List.forall_mem_cons.mp inner
    cases others with
    | nil => simp [outlinesBehind] at same
    | cons t' others =>
      simp only [outlinesBehind, List.cons.injEq, true_and] at same
      rw [first same.1, ih more same.2]

theorem outlinesBehind_eq_of_tail {mark : Lexeme} {terms others : List Term}
    (same : (outlinesBehind mark terms).tail = (outlinesBehind mark others).tail) :
    outlinesBehind mark terms = outlinesBehind mark others := by
  cases terms <;> cases others <;> simp_all [outlinesBehind]

theorem outline_injective {t t' : Term} (same : t.outline = t'.outline) : t = t' := by
  induction t using Term.induction generalizing t' with
  | identifier name =>
    cases t' <;> simp [outline, outline_call] at same
    rw [Name.eq_of_text_eq same.1]
  | member receiver safe name first =>
    cases t' <;> simp [outline, outline_call] at same
    obtain ⟨name_eq, receiver_eq, mark_eq, -⟩ := same
    rw [first receiver_eq, safe_eq_of_accessMark mark_eq, Name.eq_of_text_eq name_eq]
  | keyed receiver key first second =>
    cases t' <;> simp [outline, outline_call] at same
    rw [first same.1, second same.2]
  | call callee arguments first more =>
    cases t' <;> simp [outline, outline_call] at same
    rw [first same.1, eq_of_outlinesBehind more (outlinesBehind_eq_of_tail same.2)]
  | nonNull operand first =>
    cases t' <;> simp [outline, outline_call] at same
    rw [first same]
  | prefixed operator operand first =>
    cases t' <;> simp [outline, outline_call] at same
    rw [same.1, first same.2.2]
  | binary operator plain left right first second =>
    cases t' <;> simp [outline, outline_call] at same
    obtain ⟨rfl, left_eq, -, right_eq⟩ := same
    rw [first left_eq, second right_eq]
  | conditional condition yes no first second third =>
    cases t' <;> simp [outline, outline_call] at same
    rw [first same.1, second same.2.1, third same.2.2]
  | pipe value name arguments first more =>
    cases t' <;> simp [outline, outline_call] at same
    obtain ⟨value_eq, ⟨name_eq, -⟩, arguments_eq⟩ := same
    rw [first value_eq, Name.eq_of_text_eq name_eq]
    split at arguments_eq <;> split at arguments_eq
    all_goals simp_all
    exact eq_of_outlinesBehind more arguments_eq

end Term

def Parted (rest : Text) : Prop :=
  ∀ c ∈ rest.head?, c = ' '

namespace Lexeme

/-- A lexeme is read back from its text, and a blank behind it ends it. What
stands in front of the text, and behind the blank, does not matter. -/
def Legible (lexeme : Lexeme) : Prop :=
  ∃ first more, lexeme.text = first :: more ∧ Text.isSpace first = false ∧
    ∀ expression column rest, Parted rest →
      read expression column first (more ++ rest) = (lexeme, more.length)

variable {rest : Text}

theorem not_isSpace_of_isIdentifierStart {c : Char} (starts : Text.isIdentifierStart c = true) :
    Text.isSpace c = false := by
  rw [Bool.eq_false_iff]
  intro blank
  simp only [Text.isSpace, Bool.or_eq_true, Bool.and_eq_true, decide_eq_true_eq, beq_iff_eq,
    Char.le_def] at blank
  simp only [Text.isIdentifierStart, Text.isLetter, Bool.or_eq_true, Bool.and_eq_true,
    decide_eq_true_eq, beq_iff_eq, Char.le_def] at starts
  rcases blank with ⟨-, low⟩ | rfl
  · rcases starts with ((⟨high, -⟩ | ⟨high, -⟩) | rfl) | rfl
    · exact absurd (UInt32.le_trans high low) (by decide)
    · exact absurd (UInt32.le_trans high low) (by decide)
    · exact absurd low (by decide)
    · exact absurd low (by decide)
  · exact absurd starts (by decide)

theorem read_word {first : Char} {more : Text} (starts : Text.isIdentifierStart first = true)
    (continues : ∀ c ∈ more, Text.isIdentifierPart c = true) (parted : Parted rest)
    (expression : Text) (column : Nat) : read expression column first (more ++ rest) =
      readWord first more := by
  have ends : ∀ c ∈ rest.head?, Text.isIdentifierPart c = false := by
    intro c head_eq
    rw [parted c head_eq]
    decide
  have inside := (Cursor.takeWhile_eq continues ends).1
  have alone := List.takeWhile_eq_self_iff.mpr continues
  rw [read, if_pos starts, readWord, readWord, inside, alone]

theorem legible_name (name : Name) : Legible name.lexeme := by
  refine ⟨name.first, name.more, rfl, not_isSpace_of_isIdentifierStart name.starts, ?_⟩
  intro expression column rest parted
  have alone := List.takeWhile_eq_self_iff.mpr name.continues
  rw [read_word name.starts name.continues parted, readWord, alone]
  simp only [name.free]
  rfl

theorem legible_keyword (keyword : Keyword) : Legible (.keyword keyword) := by
  have word : ∃ first more, keyword.word = first :: more ∧
      Text.isIdentifierStart first = true ∧ (∀ c ∈ more, Text.isIdentifierPart c = true) ∧
      readWord first more = (.keyword keyword, more.length) := by
    cases keyword <;> exact ⟨_, _, rfl, by decide, List.all_eq_true.mp (by decide), by decide⟩
  obtain ⟨first, more, word_eq, starts, continues, read_eq⟩ := word
  refine ⟨first, more, word_eq, not_isSpace_of_isIdentifierStart starts, ?_⟩
  intro expression column rest parted
  rw [read_word starts continues parted, read_eq]

theorem startsWithDigit_of_parted (parted : Parted rest) : startsWithDigit rest = false := by
  cases rest with
  | nil => rfl
  | cons c rest =>
    rw [startsWithDigit, parted c rfl]
    decide

theorem length_symbol_le_of_parted {operator : Operator} {text : Text} (parted : Parted rest)
    (starts : operator.symbol <+: text ++ rest) : operator.symbol.length ≤ text.length := by
  have unbroken : ' ' ∉ operator.symbol := by
    cases operator <;> decide
  refine Nat.le_of_not_lt fun long => unbroken ?_
  cases rest with
  | nil =>
    have := starts.length_le
    simp only [List.append_nil] at this
    omega
  | cons blank rest =>
    cases parted blank rfl
    have within : text ++ [' '] <+: operator.symbol := by
      refine List.prefix_of_prefix_length_le ⟨rest, ?_⟩ starts ?_
      · simp
      · simp only [List.length_append, List.length_cons, List.length_nil] at long ⊢
        omega
    exact within.subset (by simp)

theorem operatorAt?_symbol_append (operator : Operator) (parted : Parted rest) :
    operatorAt? (operator.symbol ++ rest) = some operator := by
  have symbol : ∃ first more, operator.symbol = first :: more ∧
      operatorAt? (first :: more) = some operator := by
    cases operator <;> exact ⟨_, _, rfl, by decide⟩
  obtain ⟨first, more, symbol_eq, alone⟩ := symbol
  rw [symbol_eq, ← alone]
  refine (operatorAt?_of_cut ?_ ?_).symm
  · intro splits
    exact absurd splits.digit (by rw [startsWithDigit_of_parted parted]; decide)
  · intro other found
    rw [operatorAt?_eq] at found
    have starts : other.symbol <+: (first :: more) ++ rest :=
      (beginsWith_iff.mp (List.find?_some found)).1
    exact length_symbol_le_of_parted parted starts

def startsOperator (c : Char) : Bool :=
  !(Text.isSpace c || Text.isIdentifierStart c || Text.isDigit c || c == '.' || isPunctuation c ||
    Text.isQuote c)

theorem legible_operator (operator : Operator) (other : operator ≠ .spread) :
    Legible (.operator operator) := by
  have symbol : ∃ first more, operator.symbol = first :: more ∧ startsOperator first = true := by
    cases operator <;> first | exact absurd rfl other | exact ⟨_, _, rfl, by decide⟩
  obtain ⟨first, more, symbol_eq, starts⟩ := symbol
  simp only [startsOperator, Bool.not_eq_true', Bool.or_eq_false_iff] at starts
  obtain ⟨⟨⟨⟨⟨blank, word⟩, digit⟩, point⟩, mark⟩, quote⟩ := starts
  refine ⟨first, more, symbol_eq, blank, ?_⟩
  intro expression column rest parted
  have found := operatorAt?_symbol_append operator parted
  rw [symbol_eq, List.cons_append] at found
  simp only [read, word, digit, point, mark, quote, readOperator, found, symbol_eq]
  rfl

theorem legible_punctuation {c : Char} (mark : c ∈ ['.', '(', ')', '[', ']', ',', ':', ';']) :
    Legible (.punctuation c) := by
  have plain : ∀ c ∈ ['.', '(', ')', '[', ']', ',', ':', ';'], (!Text.isSpace c &&
      !Text.isIdentifierStart c && !Text.isDigit c && (c == '.' || isPunctuation c)) = true :=
    List.all_eq_true.mp (by decide)
  have plain := plain c mark
  simp only [Bool.and_eq_true, Bool.not_eq_true'] at plain
  obtain ⟨⟨⟨blank, word⟩, digit⟩, listed⟩ := plain
  refine ⟨c, [], rfl, blank, ?_⟩
  intro expression column rest parted
  have noDigit := startsWithDigit_of_parted parted
  have noPoints : "..".toList.isPrefixOf rest = false := by
    cases rest with
    | nil => rfl
    | cons a rest => rw [parted a rfl]; rfl
  by_cases point : c = '.'
  · subst point
    rw [List.nil_append, read, noDigit, noPoints]
    rfl
  · have listed : isPunctuation c = true := by simpa [point] using listed
    simp [read, word, digit, point, listed]

theorem legible_accessMark (safe : Bool) : Legible (Term.accessMark safe) := by
  cases safe with
  | true => exact legible_operator _ (by decide)
  | false => exact legible_punctuation (by decide)

theorem legible_prefixOperator (operator : PrefixOperator) : Legible operator.lexeme := by
  cases operator
  case typeof | void => exact legible_keyword _
  all_goals exact legible_operator _ (by decide)

theorem legible_binaryOperator (operator : BinaryOperator) : Legible operator.lexeme := by
  cases operator
  case within => exact legible_keyword _
  all_goals exact legible_operator _ (by decide)

end Lexeme

namespace Term

open Lexeme

variable {lexemes : List Lexeme}

theorem legible_enclose {least level : Nat} (legible : ∀ lexeme ∈ lexemes, Legible lexeme) :
    ∀ lexeme ∈ enclose least level lexemes, Legible lexeme := by
  unfold enclose
  split
  · simp only [List.forall_mem_cons, List.forall_mem_append]
    exact ⟨legible_punctuation (by decide), legible, legible_punctuation (by decide), by simp⟩
  · exact legible

theorem legible_printBehind {mark : Lexeme} (least : Nat) {terms : List Term} (legible : Legible mark)
    (inner : ∀ t ∈ terms, ∀ lexeme ∈ t.print, Legible lexeme) :
    ∀ lexeme ∈ printBehind mark least terms, Legible lexeme := by
  induction terms with
  | nil => simp [printBehind]
  | cons t terms ih =>
    obtain ⟨first, more⟩ := List.forall_mem_cons.mp inner
    rw [printBehind, List.forall_mem_cons, List.forall_mem_append]
    exact ⟨legible, legible_enclose first, ih more⟩

/-- Every lexeme of a term is read back from its text. -/
theorem legible_print (t : Term) : ∀ lexeme ∈ t.print, Legible lexeme := by
  induction t using Term.induction with
  | identifier name => simp [print, legible_name]
  | member receiver safe name first =>
    simp only [print, List.forall_mem_append, List.forall_mem_cons]
    exact ⟨legible_enclose first, legible_accessMark safe, legible_name name, by simp⟩
  | keyed receiver key first second =>
    simp only [print, List.forall_mem_append, List.forall_mem_cons]
    exact ⟨legible_enclose first, legible_punctuation (by decide), second,
      legible_punctuation (by decide), by simp⟩
  | call callee arguments first more =>
    cases arguments with
    | nil =>
      simp only [print, List.forall_mem_append, List.forall_mem_cons]
      exact ⟨legible_enclose first, legible_punctuation (by decide),
        legible_punctuation (by decide), by simp⟩
    | cons second arguments =>
      obtain ⟨second, more⟩ := List.forall_mem_cons.mp more
      simp only [print, List.forall_mem_append, List.forall_mem_cons]
      exact ⟨legible_enclose first, legible_punctuation (by decide), second,
        legible_printBehind 0 (legible_punctuation (by decide)) more,
        legible_punctuation (by decide), by simp⟩
  | nonNull operand first =>
    simp only [print, List.forall_mem_append, List.forall_mem_cons]
    exact ⟨legible_enclose first, legible_operator _ (by decide), by simp⟩
  | prefixed operator operand first =>
    rw [print, List.forall_mem_cons]
    exact ⟨legible_prefixOperator operator, legible_enclose first⟩
  | binary operator plain left right first second =>
    rw [print, List.forall_mem_append, List.forall_mem_cons]
    exact ⟨legible_enclose first, legible_binaryOperator operator, legible_enclose second⟩
  | conditional condition yes no first second third =>
    simp only [print, List.forall_mem_append, List.forall_mem_cons]
    exact ⟨legible_enclose first, legible_operator _ (by decide), legible_enclose second,
      legible_punctuation (by decide), legible_enclose third⟩
  | pipe value name arguments first more =>
    rw [print, List.forall_mem_append, List.forall_mem_cons, List.forall_mem_cons]
    exact ⟨legible_enclose first, legible_operator _ (by decide), legible_name name,
      legible_printBehind 2 (legible_punctuation (by decide)) more⟩

end Term

/-- A token that writes a lexeme in a source. -/
structure Token.Writes (source : Text) (lexeme : Lexeme) (token : Token) : Prop where
  lexeme_eq : token.lexeme = lexeme
  text_eq : token.span.textIn? source = some lexeme.text

def spaced (lexemes : List Lexeme) : Text :=
  lexemes.flatMap fun lexeme => ' ' :: lexeme.text

theorem parted_spaced (lexemes : List Lexeme) : Parted (spaced lexemes) := by
  cases lexemes with
  | nil => simp [Parted, spaced]
  | cons lexeme lexemes => simp [Parted, spaced]

theorem joinWith_text (first : Lexeme) (lexemes : List Lexeme) :
    Text.joinWith [' '] ((first :: lexemes).map Lexeme.text) = first.text ++ spaced lexemes := by
  induction lexemes generalizing first with
  | nil => simp [Text.joinWith, spaced]
  | cons second lexemes ih =>
    rw [List.map_cons, List.map_cons, Text.joinWith, ← List.map_cons, ih, spaced, spaced,
      List.flatMap_cons]
    · simp
    · simp

variable {source text : Text} {offset : Nat}

theorem writes_cons (stands : text.StandsAt offset source) {lexeme : Lexeme}
    {lexemes : List Lexeme} (legible : lexeme.Legible) {c : Cursor}
    (reached : (Cursor.start text).Reaches (c.skipWhile Text.isSpace))
    (rest_eq : (c.skipWhile Text.isSpace).rest = lexeme.text ++ spaced lexemes)
    (later : ∀ d, (Cursor.start text).Reaches d → d.rest = spaced lexemes →
      List.Forall₂ (Token.Writes source) lexemes
        ((Token.scanFrom text d).map (Token.shift offset))) :
    List.Forall₂ (Token.Writes source) (lexeme :: lexemes)
      ((Token.scanFrom text c).map (Token.shift offset)) := by
  obtain ⟨first, more, text_eq, -, read_eq⟩ := legible
  have here : (c.skipWhile Text.isSpace).rest = first :: (more ++ spaced lexemes) := by
    rw [rest_eq, text_eq, List.cons_append]
  have behind := Cursor.skip_eq rest_eq
  rw [text_eq, List.length_cons, ← text_eq] at behind
  have inside := reached.standsAt
  rw [rest_eq] at inside
  -- What stands in the text stands in the source, further to the right.
  obtain ⟨front, back, text_split, offset_eq⟩ := inside.front
  have slice_eq := (stands.within text_split (Nat.add_comm _ _)).slice?_eq
  rw [← offset_eq, Nat.add_right_comm] at slice_eq
  rw [Token.scanFrom_of_cons here, read_eq _ _ _ (parted_spaced lexemes), behind, List.map_cons]
  exact .cons ⟨rfl, slice_eq⟩ (later _ (reached.trans (behind ▸ Cursor.reaches_skip _ _)) rfl)

theorem writes_spaced (stands : text.StandsAt offset source) {lexemes : List Lexeme}
    (legible : ∀ lexeme ∈ lexemes, lexeme.Legible) (c : Cursor)
    (reached : (Cursor.start text).Reaches c) (rest_eq : c.rest = spaced lexemes) :
    List.Forall₂ (Token.Writes source) lexemes
      ((Token.scanFrom text c).map (Token.shift offset)) := by
  induction lexemes generalizing c with
  | nil =>
    have none : (c.skipWhile Text.isSpace).rest = [] := by
      rw [Cursor.rest_skipWhile, rest_eq]
      rfl
    rw [Token.scanFrom_of_nil none]
    exact .nil
  | cons lexeme lexemes ih =>
    obtain ⟨first, more⟩ := List.forall_mem_cons.mp legible
    refine writes_cons stands first (reached.trans (Cursor.reaches_skipWhile _ c)) ?_ (ih more)
    obtain ⟨head, tail, text_eq, starts, -⟩ := first
    have blank : c.rest = [' '] ++ (head :: (tail ++ spaced lexemes)) := by
      rw [rest_eq, spaced, List.flatMap_cons, text_eq]
      rfl
    rw [Cursor.skipWhile_eq blank (List.forall_mem_singleton.mpr (by decide))
      (by rintro _ ⟨⟩; exact starts), text_eq]
    rfl

/-- Lexemes are read from their texts with blanks between them. -/
theorem writes_tokensAt {lexemes : List Lexeme} (legible : ∀ lexeme ∈ lexemes, lexeme.Legible)
    (text_eq : text = Text.joinWith [' '] (lexemes.map Lexeme.text))
    (stands : text.StandsAt offset source) :
    List.Forall₂ (Token.Writes source) lexemes (tokensAt offset text) := by
  rw [tokensAt, Token.scan]
  cases lexemes with
  | nil => exact writes_spaced stands legible _ (.refl _) text_eq
  | cons first lexemes =>
    rw [joinWith_text] at text_eq
    obtain ⟨legible, more⟩ := List.forall_mem_cons.mp legible
    obtain ⟨head, tail, first_eq, starts, -⟩ := id legible
    have here : (Cursor.start text).skipWhile Text.isSpace = Cursor.start text := by
      refine Cursor.skipWhile_none ?_
      rw [Cursor.rest_start, text_eq, first_eq]
      rintro _ ⟨⟩
      exact starts
    refine writes_cons stands legible ?_ ?_ (writes_spaced stands more)
    · rw [here]
      exact .refl _
    · rw [here, Cursor.rest_start, text_eq]

end Expression

end ComponentExtraction
