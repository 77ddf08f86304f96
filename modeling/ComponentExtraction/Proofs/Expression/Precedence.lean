import ComponentExtraction.Proofs.Expression.Printing

/-!
# Printed terms are understood

The parser undoes the printing of terms, with the precedence and the associativity
of every operator: from the text of a term it makes the tree that the term asks
for, and meets no error (`parse_text`).

What a rule of the grammar reads depends on what follows. `grip` says how tightly
a token holds on to the operand in front of it, so a rule of some level stops in
front of a token whose grip is weaker. The rule of a left-associative level goes on
behind what it has read (`Reads`): the left operand of an operator is read first,
and the rule then takes the operator and the right operand. For each constructor
of a term there is one lemma that says at which level its lexemes are read.
-/

namespace ComponentExtraction

namespace Expression

open Diagnostic
open Parsing (Gives)

variable {source : Text} {cx : Context} {tokens rest left : List Token} {token : Token}
variable {lexemes more : List Lexeme} {lexeme : Lexeme} {level least : Nat} {o o' : Outline}

theorem Token.Writes.isPunctuation_eq (writes : token.Writes source lexeme) (c : Char) :
    token.isPunctuation c = (lexeme == .punctuation c) := by
  rw [Token.isPunctuation, writes.lexeme_eq]

theorem Token.Writes.isOperator_eq (writes : token.Writes source lexeme) (operator : Operator) :
    token.isOperator operator = (lexeme == .operator operator) := by
  rw [Token.isOperator, writes.lexeme_eq]

theorem exists_cons_of_writes (written : List.Forall₂ (Token.Writes source) lexemes tokens)
    (head_eq : lexeme ∈ lexemes.head?) :
    ∃ token later, tokens = token :: later ∧ token.Writes source lexeme := by
  cases written with
  | nil => exact absurd head_eq (by simp)
  | @cons _ token _ later writes _ =>
    cases head_eq
    exact ⟨token, later, rfl, writes⟩

theorem outlines_eq_map (source : Text) (nodes : List Node) :
    outlines source nodes = nodes.map (outline source) := by
  induction nodes with
  | nil => rw [outlines, List.map_nil]
  | cons node nodes ih => rw [outlines, List.map_cons, ih]

theorem outline_leaf (writes : token.Writes source lexeme) :
    outline source token.leaf = .ofLexeme lexeme := by
  rw [Token.leaf, Node.leaf, outline, writes.text_eq]
  rfl

def IsBranch (kind : Kind) : Prop :=
  kind ≠ .token ∧ kind ≠ .parenthesized

theorem outline_mk {kind : Kind} {span : Span} {children : List Node}
    (branch : IsBranch kind := by simp [IsBranch]) :
    outline source (.mk kind span children) = .node kind (children.map (outline source)) := by
  rw [outline, Outline.ofNode.eq_def, outlines_eq_map]
  split
  · exact absurd rfl branch.1
  · exact absurd rfl branch.2
  · rfl

theorem outline_enclosing {kind : Kind} {start : Nat} {children : List Node}
    (branch : IsBranch kind := by simp [IsBranch]) : outline source (Node.enclosing kind start children) =
      .node kind (children.map (outline source)) :=
  outline_mk branch

/-- The lexemes that go on with an operand at the tightest level. -/
def postfixLexemes : List Lexeme :=
  [.punctuation '.', .punctuation '[', .punctuation '(', .operator .not, .operator .safeAccess]

/-- The level of what a lexeme makes of the operand in front of it, or 0. -/
def grip (lexeme : Lexeme) : Nat :=
  if lexeme ∈ postfixLexemes then 11
  else
    match BinaryOperator.all.find? fun operator => operator.lexeme = lexeme with
    | some operator => operator.level
    | none => 0

theorem grip_operator (operator : BinaryOperator) : grip operator.lexeme = operator.level := by
  cases operator <;> decide

theorem grip_lt (lexeme : Lexeme) : grip lexeme < 12 := by
  unfold grip
  split
  · decide
  · split
    · next operator _ => cases operator <;> decide
    · decide

theorem BinaryOperator.ofLexeme?_lexeme (operator : BinaryOperator) :
    ofLexeme? operator.level operator.lexeme = some operator := by
  cases operator <;> decide

theorem PrefixOperator.ofLexeme?_lexeme (operator : PrefixOperator) :
    ofLexeme? operator.lexeme = some operator := by
  cases operator <;> decide

theorem isPostfix_iff : isPostfix token = true ↔ token.lexeme ∈ postfixLexemes := by
  simp [isPostfix, postfixLexemes, Token.isPunctuation, Token.isOperator, or_assoc]

theorem not_isPostfix_of_grip_lt (weak : grip token.lexeme < 11) : isPostfix token = false := by
  rw [Bool.eq_false_iff, Ne, isPostfix_iff]
  intro listed
  rw [grip, if_pos listed] at weak
  exact absurd weak (by decide)

theorem ofLexeme?_of_grip_lt (weak : grip lexeme < level) :
    BinaryOperator.ofLexeme? level lexeme = none := by
  refine List.find?_eq_none.mpr fun operator _ found => ?_
  obtain ⟨rfl, rfl⟩ := of_decide_eq_true found
  exact Nat.lt_irrefl _ (grip_operator operator ▸ weak)

/-- What follows does not go on with an operand of a level. -/
def StopsFrom (level : Nat) (rest : List Token) : Prop :=
  ∀ token ∈ rest.head?, grip token.lexeme < level

def FollowedBy (lexemes : List Lexeme) (rest : List Token) : Prop :=
  ∀ token ∈ rest.head?, token.lexeme ∈ lexemes

theorem StopsFrom.mono (stops : StopsFrom least rest) (le : least ≤ level) :
    StopsFrom level rest :=
  fun token head_eq => Nat.lt_of_lt_of_le (stops token head_eq) le

theorem StopsFrom.of_operator {operator : BinaryOperator} (lexeme_eq : token.lexeme = operator.lexeme)
    (lt : operator.level < level) (rest : List Token) : StopsFrom level (token :: rest) := by
  rintro _ ⟨⟩
  rw [lexeme_eq, grip_operator]
  exact lt

theorem FollowedBy.mono (followed : FollowedBy lexemes rest) (subset : lexemes ⊆ more) :
    FollowedBy more rest :=
  fun token head_eq => subset (followed token head_eq)

theorem FollowedBy.of_writes (writes : token.Writes source lexeme) (listed : lexeme ∈ lexemes)
    (rest : List Token) : FollowedBy lexemes (token :: rest) := by
  rintro _ ⟨⟩
  rw [writes.lexeme_eq]
  exact listed

theorem FollowedBy.stopsFrom (followed : FollowedBy lexemes rest)
    (weak : ∀ lexeme ∈ lexemes, grip lexeme < level) : StopsFrom level rest :=
  fun token head_eq => weak _ (followed token head_eq)

def ruleAt (cx : Context) (level : Nat) (tokens : List Token) : Parsing Node tokens :=
  if level ≤ 9 then binary cx level tokens
  else if level = 10 then prefixed cx tokens
  else postfixed cx tokens

def tailAt (cx : Context) (level : Nat) (operand : Node) (tokens : List Token) :
    Parsing Node tokens :=
  if level ≤ 8 then binaryTail cx level operand tokens
  else if level ≤ 10 then Parsing.done operand tokens
  else postfixTail cx operand tokens

/-- The least grip that may not follow an operand of a level. Behind a power and
behind an operand with an operator in front of it the rule does not go on. -/
def limit (level : Nat) : Nat :=
  if level = 9 ∨ level = 10 then level else level + 1

theorem le_limit (level : Nat) : level ≤ limit level := by
  unfold limit
  split <;> omega

theorem tailAt_of_stops {operand : Node} (stops : StopsFrom level rest) (le : level ≤ 11) :
    tailAt cx level operand rest = Parsing.done operand rest := by
  unfold tailAt
  split
  · cases rest with
    | nil => rw [binaryTail]
    | cons token rest =>
      rw [binaryTail]
      simp only [ofLexeme?_of_grip_lt (stops token rfl)]
  split
  · rfl
  · cases rest with
    | nil => rw [postfixTail]
    | cons token rest =>
      rw [postfixTail_cons, if_neg]
      rw [not_isPostfix_of_grip_lt (Nat.lt_of_lt_of_le (stops token rfl) le)]
      exact Bool.false_ne_true

/-- Wherever some lexemes are written, the rule of a level reads them as an operand
with the given outline and goes on behind it. -/
def Reads (source : Text) (cx : Context) (level : Nat) (lexemes : List Lexeme) (o : Outline) :
    Prop :=
  ∀ tokens rest, List.Forall₂ (Token.Writes source) lexemes tokens → StopsFrom (limit level) rest →
    ∃ node, outline source node = o ∧ ∀ {Q : Node → Prop} {left : List Token},
      (tailAt cx level node rest).Gives Q left → (ruleAt cx level (tokens ++ rest)).Gives Q left

theorem Parsing.Gives.exists {α : Type} {step : Parsing α tokens} {Q : α → Prop}
    (given : step.Gives Q left) : ∃ value, Q value ∧ step.Gives (· = value) left :=
  ⟨step.value, given.value, given.diagnostics, rfl, given.rest⟩

namespace Reads

theorem gives (reads : Reads source cx level lexemes o) (le : level ≤ 11)
    (written : List.Forall₂ (Token.Writes source) lexemes tokens) (stops : StopsFrom level rest) :
    (ruleAt cx level (tokens ++ rest)).Gives (outline source · = o) rest := by
  obtain ⟨node, outline_eq, given⟩ := reads tokens rest written (stops.mono (le_limit level))
  refine given ?_
  rw [tailAt_of_stops stops le]
  exact .done outline_eq

/-- At a level whose rule does not go on behind an operand, it is enough to find it. -/
theorem of_gives (closed : level = 9 ∨ level = 10)
    (given : ∀ tokens rest, List.Forall₂ (Token.Writes source) lexemes tokens →
      StopsFrom level rest → (ruleAt cx level (tokens ++ rest)).Gives (outline source · = o) rest) :
    Reads source cx level lexemes o := by
  intro tokens rest written stops
  rw [limit, if_pos closed] at stops
  obtain ⟨node, outline_eq, given⟩ := (given tokens rest written stops).exists
  refine ⟨node, outline_eq, fun more => ?_⟩
  rw [tailAt_of_stops stops (by omega)] at more
  obtain ⟨node_eq, rfl⟩ := more.of_done
  exact given.mono fun value value_eq => value_eq ▸ node_eq

theorem left_of_tighter (reads : Reads source cx (level + 1) lexemes o) (le : level ≤ 8) :
    Reads source cx level lexemes o := by
  intro tokens rest written stops
  rw [limit, if_neg (by omega)] at stops
  obtain ⟨node, outline_eq, given⟩ := (reads.gives (by omega) written stops).exists
  refine ⟨node, outline_eq, fun more => ?_⟩
  rw [ruleAt, if_pos (by omega)] at given ⊢
  rw [tailAt, if_pos le] at more
  rw [binary, if_pos (by omega)]
  exact given.andThen fun value _ value_eq => value_eq ▸ more

theorem power_of_prefixed (reads : Reads source cx 10 lexemes o) :
    Reads source cx 9 lexemes o := by
  refine of_gives (.inl rfl) fun tokens rest written stops => ?_
  have given : (prefixed cx (tokens ++ rest)).Gives (outline source · = o) rest :=
    reads.gives (by decide) written (stops.mono (by decide))
  show (binary cx 9 (tokens ++ rest)).Gives _ rest
  rw [binary, if_neg (by decide), exponentiation_eq]
  refine given.andThen fun value _ value_eq => ?_
  cases rest with
  | nil => exact .done value_eq
  | cons token rest =>
    rw [exponentiationTail]
    simp only [ofLexeme?_of_grip_lt (stops token rfl)]
    exact .done value_eq

theorem prefixed_of_postfixed (reads : Reads source cx 11 lexemes o)
    (plain : ∃ first ∈ lexemes.head?, PrefixOperator.ofLexeme? first = none) :
    Reads source cx 10 lexemes o := by
  refine of_gives (.inr rfl) fun tokens rest written stops => ?_
  have given : (postfixed cx (tokens ++ rest)).Gives (outline source · = o) rest :=
    reads.gives (by decide) written (stops.mono (by decide))
  show (prefixed cx (tokens ++ rest)).Gives _ rest
  obtain ⟨first, head_eq, operand⟩ := plain
  obtain ⟨token, later, rfl, writes⟩ := exists_cons_of_writes written head_eq
  rw [List.cons_append, prefixed]
  simp only [writes.lexeme_eq, operand]
  exact given

/-- An operand of a level is an operand of all levels below. -/
theorem of_le (reads : Reads source cx level lexemes o) (le : least ≤ level) (bound : level ≤ 11)
    (plain : level = 11 → ∃ first ∈ lexemes.head?, PrefixOperator.ofLexeme? first = none) :
    Reads source cx least lexemes o := by
  induction level, le using Nat.le_induction with
  | base => exact reads
  | succ level le ih =>
    refine ih ?_ (by omega) (by omega)
    obtain loose | rfl | rfl : level ≤ 8 ∨ level = 9 ∨ level = 10 := by omega
    · exact reads.left_of_tighter loose
    · exact reads.power_of_prefixed
    · exact reads.prefixed_of_postfixed (plain rfl)

/-- Operators of a level in a row: the right operand binds tighter. -/
theorem leftOperator {operator : BinaryOperator} (left_associative : operator.level ≤ 8)
    {first second : List Lexeme} (left_reads : Reads source cx operator.level first o)
    (right_reads : Reads source cx (operator.level + 1) second o') :
    Reads source cx operator.level (first ++ operator.lexeme :: second)
      (.node (.binary operator) [o, .ofLexeme operator.lexeme, o']) := by
  intro tokens rest written stops
  rw [limit, if_neg (by omega)] at stops
  obtain ⟨front, back, rfl, front_written, back_written⟩ := exists_append_of_forall₂ written
  cases back_written with
  | @cons _ token _ right_tokens writes right_written =>
    have here : StopsFrom (limit operator.level) (token :: (right_tokens ++ rest)) := by
      rw [limit, if_neg (by omega)]
      exact .of_operator writes.lexeme_eq (Nat.lt_succ_self _) _
    obtain ⟨left_node, left_eq, left_given⟩ := left_reads _ _ front_written here
    obtain ⟨right_node, right_eq, right_given⟩ :=
      (right_reads.gives (by omega) right_written stops).exists
    refine ⟨Node.enclosing (.binary operator) left_node.span.start
      [left_node, token.leaf, right_node], ?_, fun more => ?_⟩
    · rw [outline_enclosing]
      simp only [List.map_cons, List.map_nil, left_eq, right_eq, outline_leaf writes]
    · rw [List.append_assoc]
      refine left_given ?_
      rw [tailAt, if_pos left_associative] at more ⊢
      rw [ruleAt, if_pos (by omega)] at right_given
      rw [binaryTail, writes.lexeme_eq]
      simp only [BinaryOperator.ofLexeme?_lexeme]
      exact (right_given.andThen fun value _ value_eq => value_eq ▸ more).after

theorem power {first second : List Lexeme} (left_reads : Reads source cx 10 first o)
    (right_reads : Reads source cx 9 second o') :
    Reads source cx 9 (first ++ BinaryOperator.lexeme .power :: second)
      (.node (.binary .power) [o, .ofLexeme (BinaryOperator.lexeme .power), o']) := by
  refine of_gives (.inl rfl) fun tokens rest written stops => ?_
  obtain ⟨front, back, rfl, front_written, back_written⟩ := exists_append_of_forall₂ written
  cases back_written with
  | @cons _ token _ right_tokens writes right_written =>
    have left_given : (prefixed cx (front ++ token :: (right_tokens ++ rest))).Gives
        (outline source · = o) (token :: (right_tokens ++ rest)) :=
      left_reads.gives (by decide) front_written (.of_operator writes.lexeme_eq (by decide) _)
    have right_given : (binary cx 9 (right_tokens ++ rest)).Gives (outline source · = o') rest :=
      right_reads.gives (by decide) right_written stops
    rw [binary, if_neg (by decide)] at right_given
    show (binary cx 9 (front ++ token :: right_tokens ++ rest)).Gives _ rest
    rw [List.append_assoc, binary, if_neg (by decide), exponentiation_eq]
    refine left_given.andThen fun left_node _ left_eq => ?_
    have found : BinaryOperator.ofLexeme? 9 (BinaryOperator.lexeme .power) = some .power := by
      decide
    rw [exponentiationTail, writes.lexeme_eq]
    simp only [found]
    refine (right_given.map fun right_node right_eq => ?_).after
    rw [outline_enclosing]
    simp only [List.map_cons, List.map_nil, left_eq, right_eq, outline_leaf writes]

theorem prefixOperator (operator : PrefixOperator) (reads : Reads source cx 10 lexemes o) :
    Reads source cx 10 (operator.lexeme :: lexemes)
      (.node (.prefixed operator) [.ofLexeme operator.lexeme, o]) := by
  refine of_gives (.inr rfl) fun tokens rest written stops => ?_
  cases written with
  | @cons _ token _ operand_tokens writes operand_written =>
    have given : (prefixed cx (operand_tokens ++ rest)).Gives (outline source · = o) rest :=
      reads.gives (by decide) operand_written stops
    show (prefixed cx (token :: operand_tokens ++ rest)).Gives _ rest
    rw [List.cons_append, prefixed, writes.lexeme_eq]
    simp only [PrefixOperator.ofLexeme?_lexeme]
    refine (given.map fun operand operand_eq => ?_).after
    rw [outline_enclosing]
    simp only [List.map_cons, List.map_nil, operand_eq, outline_leaf writes]

theorem identifier (name : Name) :
    Reads source cx 11 [name.lexeme] (Term.identifier name).outline := by
  intro tokens rest written stops
  cases written with
  | @cons _ token _ none writes nothing =>
    cases nothing
    refine ⟨single (.reference name.text) token, ?_, fun {Q left} more => ?_⟩
    · rw [single, outline_enclosing]
      simp only [List.map_cons, List.map_nil, outline_leaf writes, Term.outline]
    · have more : (postfixTail cx _ rest).Gives Q left := more
      show (postfixed cx (token :: rest)).Gives Q left
      rw [postfixed]
      exact (gives_primary_of_identifier writes.lexeme_eq rest).andThen
        fun value _ value_eq => value_eq ▸ more

end Reads

/-- Some lexemes, read behind an operand at the tightest level, make another one of
it. -/
def Attaches (source : Text) (cx : Context) (lexemes : List Lexeme) (o o' : Outline) : Prop :=
  ∀ receiver tokens rest, outline source receiver = o →
    List.Forall₂ (Token.Writes source) lexemes tokens → ∃ node, outline source node = o' ∧
      ∀ {Q : Node → Prop} {left : List Token}, (postfixTail cx node rest).Gives Q left →
        (postfixTail cx receiver (tokens ++ rest)).Gives Q left

theorem Reads.attach (reads : Reads source cx 11 lexemes o) (attaches : Attaches source cx more o o') :
    Reads source cx 11 (lexemes ++ more) o' := by
  intro tokens rest written _
  obtain ⟨front, back, rfl, front_written, back_written⟩ := exists_append_of_forall₂ written
  obtain ⟨receiver, receiver_eq, given⟩ := reads front (back ++ rest) front_written
    fun token _ => grip_lt token.lexeme
  obtain ⟨node, node_eq, given'⟩ := attaches receiver back rest receiver_eq back_written
  refine ⟨node, node_eq, fun {Q left} more => ?_⟩
  rw [List.append_assoc]
  exact given (given' more)

theorem attaches_of_postfixNode (head : lexeme ∈ postfixLexemes)
    (given : ∀ receiver token tokens rest, outline source receiver = o →
      token.Writes source lexeme → List.Forall₂ (Token.Writes source) more tokens →
      (postfixNode cx receiver token (tokens ++ rest)).Gives (outline source · = o') rest) :
    Attaches source cx (lexeme :: more) o o' := by
  intro receiver tokens rest receiver_eq written
  cases written with
  | @cons _ token _ tokens writes written =>
    obtain ⟨node, node_eq, given⟩ := (given receiver token tokens rest receiver_eq writes written).exists
    refine ⟨node, node_eq, fun {Q left} more => ?_⟩
    rw [List.cons_append, postfixTail_cons, if_pos (isPostfix_iff.mpr (writes.lexeme_eq ▸ head))]
    exact (given.andThen fun value _ value_eq => value_eq ▸ more).after

theorem attaches_member (safe : Bool) (name : Name) : Attaches source cx
    [Term.accessMark safe, name.lexeme] o
    (.node (.reference name.text) [o, .ofLexeme (Term.accessMark safe), .ofLexeme name.lexeme]) := by
  refine attaches_of_postfixNode (by cases safe <;> decide) ?_
  intro receiver mark tokens rest receiver_eq marks written
  cases written with
  | @cons _ token _ none writes nothing =>
    cases nothing
    have given : (member cx receiver mark ([token] ++ rest)).Gives (outline source · =
        .node (.reference name.text)
          [o, .ofLexeme (Term.accessMark safe), .ofLexeme name.lexeme]) rest := by
      have named : token.lexeme.name? = some name.text := by
        rw [writes.lexeme_eq]
        rfl
      rw [List.singleton_append, member]
      simp only [named]
      refine (Gives.done ?_).after
      rw [outline_enclosing]
      simp only [List.map_cons, List.map_nil, receiver_eq, outline_leaf marks, outline_leaf writes]
    rw [postfixNode]
    cases safe with
    | false =>
      have point : mark.isPunctuation '.' = true := marks.isPunctuation_eq '.'
      rw [if_pos point]
      exact given
    | true =>
      have other : ∀ c, mark.isPunctuation c = false := fun c => marks.isPunctuation_eq c
      have unmarked : mark.isOperator .not = false := marks.isOperator_eq .not
      have name_other : ∀ c, token.isPunctuation c = false := fun c => writes.isPunctuation_eq c
      simp only [other, unmarked, Bool.false_eq_true, if_false, List.singleton_append, safeAccess,
        name_other]
      exact given

theorem attaches_nonNull : Attaches source cx [.operator .not] o
    (.node .nonNull [o, .ofLexeme (.operator .not)]) := by
  refine attaches_of_postfixNode (by decide) ?_
  intro receiver mark tokens rest receiver_eq marks written
  cases written
  have other : ∀ c, mark.isPunctuation c = false := fun c => marks.isPunctuation_eq c
  have marked : mark.isOperator .not = true := marks.isOperator_eq .not
  simp only [postfixNode, other, marked, Bool.false_eq_true, if_false, if_true, List.nil_append]
  refine .done ?_
  rw [outline_enclosing]
  simp only [List.map_cons, List.map_nil, receiver_eq, outline_leaf marks]

def closers : List Lexeme :=
  [.punctuation ')', .punctuation ']', .punctuation ',']

def Whole (source : Text) (cx : Context) (lexemes : List Lexeme) (o : Outline) : Prop :=
  ∀ tokens rest, List.Forall₂ (Token.Writes source) lexemes tokens → FollowedBy closers rest →
    (pipe cx (tokens ++ rest)).Gives (outline source · = o) rest

theorem gives_expect {c : Char} (writes : token.Writes source (.punctuation c)) (rest : List Token) :
    (expect cx c (token :: rest)).Gives (· = [token.leaf]) rest := by
  rw [expect, if_pos ((writes.isPunctuation_eq c).trans (by simp))]
  exact Gives.after (.done rfl)

theorem attaches_keyed (whole : Whole source cx lexemes o') : Attaches source cx
    (.punctuation '[' :: (lexemes ++ [.punctuation ']'])) o
    (.node .indexed [o, .ofLexeme (.punctuation '['), o', .ofLexeme (.punctuation ']')]) := by
  refine attaches_of_postfixNode (by decide) ?_
  intro receiver opening tokens rest receiver_eq opens written
  obtain ⟨key, back, rfl, key_written, back_written⟩ := exists_append_of_forall₂ written
  cases back_written with
  | @cons _ closing _ none closes nothing =>
    cases nothing
    have noPoint : opening.isPunctuation '.' = false := opens.isPunctuation_eq '.'
    have bracket : opening.isPunctuation '[' = true := opens.isPunctuation_eq '['
    simp only [postfixNode, noPoint, bracket, Bool.false_eq_true, if_false, if_true]
    rw [keyed, List.append_assoc, List.singleton_append]
    refine (whole key _ key_written (.of_writes closes (by decide) rest)).andThen
      fun value _ value_eq => (gives_expect closes rest).map fun ending ending_eq => ?_
    rw [outline_enclosing, ending_eq]
    simp only [List.map_cons, List.map_nil, List.cons_append, List.nil_append, receiver_eq, value_eq,
      outline_leaf opens, outline_leaf closes]

theorem Reads.parenthesized (whole : Whole source cx lexemes o) :
    Reads source cx 11 (.punctuation '(' :: (lexemes ++ [.punctuation ')'])) o := by
  intro tokens rest written _
  cases written with
  | @cons _ opening _ tokens opens written =>
    obtain ⟨inner, back, rfl, inner_written, back_written⟩ := exists_append_of_forall₂ written
    cases back_written with
    | @cons _ closing _ none closes nothing =>
      cases nothing
      have opened : opening.isPunctuation '(' = true := opens.isPunctuation_eq '('
      have given : (primary cx (opening :: (inner ++ closing :: rest))).Gives
          (outline source · = o) rest := by
        rw [primary_cons, if_pos opened, Expression.parenthesized]
        refine ((whole inner _ inner_written (.of_writes closes (by decide) rest)).andThen
          fun value _ value_eq => (gives_expect closes rest).map fun ending ending_eq => ?_).after
        rw [ending_eq]
        exact value_eq
      obtain ⟨node, node_eq, given⟩ := given.exists
      refine ⟨node, node_eq, fun {Q left} more => ?_⟩
      have more : (postfixTail cx node rest).Gives Q left := more
      show (postfixed cx (opening :: (inner ++ [closing]) ++ rest)).Gives Q left
      rw [List.cons_append, List.append_assoc, List.singleton_append, postfixed]
      exact given.andThen fun value _ value_eq => value_eq ▸ more

theorem Term.enclose_zero (level : Nat) (lexemes : List Lexeme) :
    enclose 0 level lexemes = lexemes :=
  if_neg (Nat.not_lt_zero level)

theorem followedBy_items {terms : List Term} (written : List.Forall₂ (Token.Writes source)
      (Term.printBehind (.punctuation ',') 0 terms ++ [.punctuation ')']) tokens)
    (rest : List Token) : FollowedBy closers (tokens ++ rest) := by
  have head : ∃ lexeme ∈ closers, lexeme ∈
      (Term.printBehind (.punctuation ',') 0 terms ++ [Lexeme.punctuation ')']).head? := by
    cases terms with
    | nil => exact ⟨.punctuation ')', by decide, rfl⟩
    | cons t terms => exact ⟨.punctuation ',', by decide, rfl⟩
  obtain ⟨lexeme, listed, head_eq⟩ := head
  obtain ⟨token, later, rfl, writes⟩ := exists_cons_of_writes written head_eq
  exact .of_writes writes listed _

theorem gives_itemsEnd {terms : List Term} (items : ∀ t ∈ terms, Whole source cx t.print t.outline)
    {item : Node} (item_eq : outline source item = o)
    (written : List.Forall₂ (Token.Writes source)
      (Term.printBehind (.punctuation ',') 0 terms ++ [.punctuation ')']) tokens)
    (rest : List Token) :
    (itemsEnd cx ')' item (tokens ++ rest)).Gives (fun nodes => nodes.map (outline source) =
      o :: Term.outlinesBehind (.punctuation ',') terms ++ [.ofLexeme (.punctuation ')')]) rest := by
  induction terms generalizing item o tokens with
  | nil =>
    cases written with
    | @cons _ closing _ none closes nothing =>
      cases nothing
      have noComma : closing.isPunctuation ',' = false := closes.isPunctuation_eq ','
      rw [List.singleton_append, itemsEnd, noComma, if_neg Bool.false_ne_true]
      refine (gives_expect closes rest).map fun ending ending_eq => ?_
      rw [ending_eq]
      simp only [List.map_cons, List.map_nil, item_eq, outline_leaf closes, Term.outlinesBehind,
        List.cons_append, List.nil_append]
  | cons second terms ih =>
    rw [Term.printBehind, Term.enclose_zero, List.cons_append, List.append_assoc] at written
    obtain ⟨whole, more⟩ := List.forall_mem_cons.mp items
    cases written with
    | @cons _ comma _ tokens writes written =>
      have isComma : comma.isPunctuation ',' = true := writes.isPunctuation_eq ','
      obtain ⟨front, back, rfl, front_written, back_written⟩ := exists_append_of_forall₂ written
      have later : (itemsTail cx ')' (front ++ (back ++ rest))).Gives (fun nodes =>
          nodes.map (outline source) = second.outline :: Term.outlinesBehind (.punctuation ',') terms ++
            [.ofLexeme (.punctuation ')')]) rest := by
        rw [itemsTail_eq]
        exact (whole front _ front_written (followedBy_items back_written rest)).andThen
          fun value _ value_eq => ih more value_eq back_written
      rw [List.cons_append, List.append_assoc, itemsEnd, if_pos isComma]
      refine (later.map fun nodes nodes_eq => ?_).after
      simp only [List.map_cons, item_eq, outline_leaf writes, nodes_eq, Term.outlinesBehind,
        List.cons_append]

/-- Lexemes are read as what stands behind the opening bracket of some arguments. -/
def Lists (source : Text) (cx : Context) (lexemes : List Lexeme) (outlines : List Outline) : Prop :=
  ∀ tokens rest, List.Forall₂ (Token.Writes source) lexemes tokens →
    (items cx ')' (tokens ++ rest)).Gives (fun nodes => nodes.map (outline source) = outlines) rest

theorem lists_nil :
    Lists source cx [.punctuation ')'] [.ofLexeme (.punctuation ')')] := by
  intro tokens rest written
  cases written with
  | @cons _ closing _ none closes nothing =>
    cases nothing
    have closed : closing.isPunctuation ')' = true := closes.isPunctuation_eq ')'
    rw [List.singleton_append, items, if_pos closed]
    refine Gives.after (.done ?_)
    simp only [List.map_cons, List.map_nil, outline_leaf closes]

theorem lists_cons {first : Term} {terms : List Term}
    (whole : Whole source cx first.print first.outline)
    (begins : ∃ lexeme ∈ first.print.head?, lexeme ≠ .punctuation ')')
    (more : ∀ t ∈ terms, Whole source cx t.print t.outline) :
    Lists source cx
      (first.print ++ (Term.printBehind (.punctuation ',') 0 terms ++ [.punctuation ')']))
      (first.outline :: (Term.outlinesBehind (.punctuation ',') terms ++
        [.ofLexeme (.punctuation ')')])) := by
  intro tokens rest written
  obtain ⟨front, back, rfl, front_written, back_written⟩ := exists_append_of_forall₂ written
  have given : (itemsTail cx ')' (front ++ (back ++ rest))).Gives (fun nodes =>
      nodes.map (outline source) = first.outline :: (Term.outlinesBehind (.punctuation ',') terms ++
        [.ofLexeme (.punctuation ')')])) rest := by
    rw [itemsTail_eq]
    exact (whole front _ front_written (followedBy_items back_written rest)).andThen
      fun value _ value_eq => gives_itemsEnd more value_eq back_written rest
  obtain ⟨lexeme, head_eq, other⟩ := begins
  obtain ⟨token, later, rfl, writes⟩ := exists_cons_of_writes front_written head_eq
  have unclosed : token.isPunctuation ')' = false := by
    rw [writes.isPunctuation_eq]
    exact beq_eq_false_iff_ne.mpr other
  rw [List.append_assoc, List.cons_append, items, unclosed, if_neg Bool.false_ne_true]
  exact given

theorem attaches_call {outlines : List Outline} (lists : Lists source cx lexemes outlines) :
    Attaches source cx (.punctuation '(' :: lexemes) o
      (.node .call [o, .node .argumentList (.ofLexeme (.punctuation '(') :: outlines)]) := by
  refine attaches_of_postfixNode (by decide) ?_
  intro receiver opening tokens rest receiver_eq opens written
  have noPoint : opening.isPunctuation '.' = false := opens.isPunctuation_eq '.'
  have noBracket : opening.isPunctuation '[' = false := opens.isPunctuation_eq '['
  have opened : opening.isPunctuation '(' = true := opens.isPunctuation_eq '('
  simp only [postfixNode, noPoint, noBracket, opened, Bool.false_eq_true, if_false, if_true]
  rw [call]
  refine (lists tokens rest written).map fun arguments arguments_eq => ?_
  rw [outline_enclosing, List.cons_append, List.nil_append, List.map_cons, List.map_cons,
    outline_enclosing, List.map_cons, outline_leaf opens, arguments_eq, receiver_eq, List.map_nil]

def branchEnds : List Lexeme :=
  .punctuation ':' :: closers

def argumentEnds : List Lexeme :=
  .operator .pipe :: branchEnds

variable {Q : Node → Prop}

/-- What no question mark follows is read in place of a conditional. -/
theorem gives_conditional (given : (binary cx 2 tokens).Gives Q rest)
    (followed : FollowedBy argumentEnds rest) : (conditional cx tokens).Gives Q rest := by
  have other : ∀ lexeme ∈ argumentEnds, (lexeme == .operator .question) = false := by decide
  rw [conditional_eq]
  refine given.andThen fun value _ described => ?_
  cases rest with
  | nil => exact .done described
  | cons token rest =>
    rw [conditionalTail, Token.isOperator, other _ (followed token rfl), if_neg Bool.false_ne_true]
    exact .done described

theorem gives_assignment (given : (conditional cx tokens).Gives Q rest)
    (followed : FollowedBy argumentEnds rest) : (assignment cx tokens).Gives Q rest := by
  have none : ∀ lexeme ∈ argumentEnds, BinaryOperator.ofLexeme? 0 lexeme = none := by decide
  rw [assignment_eq]
  refine given.andThen fun value _ described => ?_
  cases rest with
  | nil => exact .done described
  | cons token rest =>
    rw [assignmentTail]
    simp only [none _ (followed token rfl)]
    exact .done described

theorem gives_pipeTail {value : Node} (described : Q value) (followed : FollowedBy branchEnds rest) :
    (pipeTail cx value rest).Gives Q rest := by
  have other : ∀ lexeme ∈ branchEnds, (lexeme == .operator .pipe) = false := by decide
  cases rest with
  | nil =>
    rw [pipeTail]
    exact .done described
  | cons token rest =>
    rw [pipeTail, Token.isOperator, other _ (followed token rfl), if_neg Bool.false_ne_true]
    exact .done described

theorem gives_pipe (given : (assignment cx tokens).Gives Q rest)
    (followed : FollowedBy branchEnds rest) : (pipe cx tokens).Gives Q rest := by
  rw [pipe]
  exact given.andThen fun value _ described => gives_pipeTail described followed

namespace Reads

theorem assignment (reads : Reads source cx 2 lexemes o)
    (written : List.Forall₂ (Token.Writes source) lexemes tokens)
    (followed : FollowedBy argumentEnds rest) :
    (assignment cx (tokens ++ rest)).Gives (outline source · = o) rest :=
  gives_assignment (gives_conditional
    (reads.gives (by decide) written (followed.stopsFrom (by decide))) followed) followed

theorem pipe (reads : Reads source cx 2 lexemes o)
    (written : List.Forall₂ (Token.Writes source) lexemes tokens)
    (followed : FollowedBy branchEnds rest) :
    (pipe cx (tokens ++ rest)).Gives (outline source · = o) rest :=
  gives_pipe (reads.assignment written (followed.mono (by decide))) followed

theorem whole (reads : Reads source cx 2 lexemes o) : Whole source cx lexemes o :=
  fun _ _ written followed => reads.pipe written (followed.mono (by decide))

end Reads

theorem whole_conditional {condition yes no : List Lexeme} {o₁ o₂ o₃ : Outline}
    (condition_reads : Reads source cx 2 condition o₁) (yes_reads : Reads source cx 2 yes o₂)
    (no_reads : Reads source cx 2 no o₃) :
    Whole source cx
      (condition ++ .operator .question :: (yes ++ .punctuation ':' :: no))
      (.node .conditional
        [o₁, .ofLexeme (.operator .question), o₂, .ofLexeme (.punctuation ':'), o₃]) := by
  intro tokens rest written followed
  have ends : FollowedBy branchEnds rest := followed.mono (by decide)
  obtain ⟨first, behind, rfl, first_written, behind_written⟩ := exists_append_of_forall₂ written
  cases behind_written with
  | @cons _ mark _ branches marks branches_written =>
    obtain ⟨second, behind, rfl, second_written, behind_written⟩ :=
      exists_append_of_forall₂ branches_written
    cases behind_written with
    | @cons _ colon _ third divides third_written =>
      rw [List.append_assoc, List.cons_append, List.append_assoc, List.cons_append]
      have followed : FollowedBy [.operator .question] (mark :: (second ++ colon :: (third ++ rest))) :=
        .of_writes marks (by decide) _
      have stops : StopsFrom 2 (mark :: (second ++ colon :: (third ++ rest))) :=
        followed.stopsFrom (by decide)
      have isQuestion : mark.isOperator .question = true := marks.isOperator_eq .question
      have given : (binary cx 2 (first ++ mark :: (second ++ colon :: (third ++ rest)))).Gives
          (outline source · = o₁) (mark :: (second ++ colon :: (third ++ rest))) :=
        condition_reads.gives (by decide) first_written stops
      refine gives_pipe (gives_assignment ?_ (ends.mono (by decide))) ends
      rw [conditional_eq]
      refine given.andThen fun c _ c_eq => ?_
      rw [conditionalTail, if_pos isQuestion]
      refine ((yes_reads.pipe second_written (.of_writes divides (by decide) _)).andThen
        fun y _ y_eq => (gives_expect divides _).andThen
          fun ending _ ending_eq => (no_reads.pipe third_written ends).map fun n n_eq => ?_).after
      rw [outline_enclosing, ending_eq]
      simp only [List.map_cons, List.map_nil, List.cons_append, List.nil_append, c_eq, y_eq, n_eq,
        outline_leaf marks, outline_leaf divides]

theorem followedBy_arguments {terms : List Term} (written : List.Forall₂ (Token.Writes source)
      (Term.printBehind (.punctuation ':') 2 terms) tokens) (followed : FollowedBy closers rest) :
    FollowedBy argumentEnds (tokens ++ rest) := by
  cases terms with
  | nil =>
    cases written
    exact followed.mono (by decide)
  | cons t terms =>
    obtain ⟨token, later, rfl, writes⟩ := exists_cons_of_writes written rfl
    exact .of_writes writes (by decide) _

theorem gives_pipeArgumentItems {terms : List Term}
    (reads : ∀ t ∈ terms, Reads source cx 2 (Term.enclose 2 t.level t.print) t.outline)
    (written : List.Forall₂ (Token.Writes source)
      (Term.printBehind (.punctuation ':') 2 terms) tokens) (followed : FollowedBy closers rest) :
    (pipeArgumentItems cx (tokens ++ rest)).Gives (fun nodes =>
      nodes.map (outline source) = Term.outlinesBehind (.punctuation ':') terms) rest := by
  induction terms generalizing tokens with
  | nil =>
    cases written
    cases rest with
    | nil =>
      rw [List.nil_append, pipeArgumentItems]
      exact .done rfl
    | cons token rest =>
      have other : ∀ lexeme ∈ closers, (lexeme == .punctuation ':') = false := by decide
      rw [List.nil_append, pipeArgumentItems, Token.isPunctuation, other _ (followed token rfl),
        if_neg Bool.false_ne_true]
      exact .done rfl
  | cons t terms ih =>
    obtain ⟨first, more⟩ := List.forall_mem_cons.mp reads
    cases written with
    | @cons _ colon _ behind divides written =>
      obtain ⟨front, back, rfl, front_written, back_written⟩ := exists_append_of_forall₂ written
      have isColon : colon.isPunctuation ':' = true := divides.isPunctuation_eq ':'
      rw [List.cons_append, List.append_assoc, pipeArgumentItems, if_pos isColon]
      refine ((first.assignment front_written (followedBy_arguments back_written followed)).andThen
        fun value _ value_eq => (ih more back_written).map fun nodes nodes_eq => ?_).after
      simp only [List.map_cons, outline_leaf divides, value_eq, nodes_eq, Term.outlinesBehind]

def argumentOutlines (terms : List Term) : List Outline :=
  if terms.isEmpty then []
  else [.node .pipeArguments (Term.outlinesBehind (.punctuation ':') terms)]

theorem gives_pipeArguments {terms : List Term}
    (reads : ∀ t ∈ terms, Reads source cx 2 (Term.enclose 2 t.level t.print) t.outline)
    (written : List.Forall₂ (Token.Writes source)
      (Term.printBehind (.punctuation ':') 2 terms) tokens) (followed : FollowedBy closers rest) :
    (pipeArguments cx (tokens ++ rest)).Gives
      (fun nodes => nodes.map (outline source) = argumentOutlines terms) rest := by
  rw [pipeArguments]
  refine (gives_pipeArgumentItems reads written followed).map fun nodes nodes_eq => ?_
  cases terms with
  | nil =>
    rw [List.map_eq_nil_iff.mp nodes_eq]
    rfl
  | cons t terms =>
    have inner : nodes ≠ [] := by
      rintro rfl
      rw [Term.outlinesBehind] at nodes_eq
      exact absurd nodes_eq (by simp)
    rw [if_neg (by simpa using inner), List.map_singleton, outline_enclosing, nodes_eq]
    rfl

theorem whole_pipe (inBinding : cx.mode = .binding) {value : List Lexeme} (name : Name)
    {terms : List Term} (value_reads : Reads source cx 2 value o)
    (reads : ∀ t ∈ terms, Reads source cx 2 (Term.enclose 2 t.level t.print) t.outline) :
    Whole source cx
      (value ++ .operator .pipe :: name.lexeme :: Term.printBehind (.punctuation ':') 2 terms)
      (.node .pipe (o :: .ofLexeme (.operator .pipe) ::
        .node (.pipeReference name.text) [.ofLexeme name.lexeme] :: argumentOutlines terms)) := by
  intro tokens rest written followed
  obtain ⟨first, behind, rfl, first_written, behind_written⟩ := exists_append_of_forall₂ written
  cases behind_written with
  | @cons _ mark _ behind marks behind_written =>
    cases behind_written with
    | @cons _ token _ arguments names arguments_written =>
      have named : token.lexeme.name? = some name.text := by
        rw [names.lexeme_eq]
        rfl
      have isPipe : mark.isOperator .pipe = true := marks.isOperator_eq .pipe
      have noAction : cx.mode ≠ .action := by
        rw [inBinding]
        decide
      have name_given : (pipeName cx (token :: (arguments ++ rest))).Gives
          (· = [Node.mk (.pipeReference name.text) token.span [token.leaf]])
          (arguments ++ rest) := by
        rw [pipeName]
        simp only [named]
        exact Gives.after (.done rfl)
      rw [List.append_assoc, List.cons_append, List.cons_append, pipe]
      refine (value_reads.assignment first_written (.of_writes marks (by decide) _)).andThen
        fun v _ v_eq => ?_
      rw [pipeTail, if_pos isPipe, if_neg noAction]
      refine .reporting (.after (name_given.andThen fun name_nodes _ name_eq =>
        (gives_pipeArguments reads arguments_written followed).andThen
          fun argument_nodes _ arguments_eq => gives_pipeTail ?_ (followed.mono (by decide))))
        harmless_nil
      rw [outline_enclosing, name_eq]
      have name_outline : outline source
          (Node.mk (.pipeReference name.text) token.span [token.leaf]) =
            .node (.pipeReference name.text) [.ofLexeme name.lexeme] := by
        rw [outline_mk, List.map_singleton, outline_leaf names]
      simp only [List.map_cons, List.cons_append, List.nil_append, v_eq, name_outline, arguments_eq,
        outline_leaf marks]

theorem BinaryOperator.level_le (operator : BinaryOperator) : operator.level ≤ 9 := by
  cases operator <;> decide

theorem BinaryOperator.power_of_level {operator : BinaryOperator} (tight : operator.level = 9) :
    operator = .power := by
  cases operator <;> first | rfl | exact absurd tight (by decide)

theorem Term.level_le (t : Term) : t.level ≤ 11 := by
  cases t
  case binary operator _ _ _ =>
    have := operator.level_le
    rw [Term.level]
    omega
  all_goals simp [Term.level]

/-- Lexemes start like an operand of a level: not with a closing bracket, and an
operand that needs no parentheses not with an operator. -/
def Begins (level : Nat) (lexemes : List Lexeme) : Prop :=
  ∃ first ∈ lexemes.head?, first ≠ .punctuation ')' ∧
    (level = 11 → PrefixOperator.ofLexeme? first = none)

theorem Begins.append (begins : Begins level lexemes) (more : List Lexeme) :
    Begins level (lexemes ++ more) := by
  obtain ⟨first, head_eq, begins⟩ := begins
  refine ⟨first, ?_, begins⟩
  rw [List.head?_append, head_eq]
  rfl

theorem Begins.of_ne (begins : Begins least lexemes) (ne : level ≠ 11) : Begins level lexemes := by
  obtain ⟨first, head_eq, unclosed, _⟩ := begins
  exact ⟨first, head_eq, unclosed, fun eq => absurd eq ne⟩

/-- How a term is read: from its own level on, and as a whole expression.
This is what the induction over terms proves of each of them. -/
structure Understood (source : Text) (cx : Context) (t : Term) : Prop where
  begins : Begins t.level t.print
  reads : 2 ≤ t.level → Reads source cx t.level t.print t.outline
  whole : Whole source cx t.print t.outline

namespace Understood

variable {t : Term}

theorem of_reads (begins : Begins t.level t.print) (loose : 2 ≤ t.level)
    (reads : Reads source cx t.level t.print t.outline) : Understood source cx t := by
  refine ⟨begins, fun _ => reads, (reads.of_le loose t.level_le ?_).whole⟩
  intro tight
  obtain ⟨first, head_eq, -, plain⟩ := begins
  exact ⟨first, head_eq, plain tight⟩

theorem begins_enclose (understood : Understood source cx t) (least : Nat) :
    Begins least (Term.enclose least t.level t.print) := by
  unfold Term.enclose
  split
  · exact ⟨.punctuation '(', rfl, by decide, fun _ => by decide⟩
  · next tight =>
    obtain ⟨first, head_eq, unclosed, plain⟩ := understood.begins
    have := t.level_le
    exact ⟨first, head_eq, unclosed, fun eq => plain (by omega)⟩

/-- A term is read in every place, in parentheses where it binds too loosely. -/
theorem operand (understood : Understood source cx t) (loose : 2 ≤ least) (bound : least ≤ 11) :
    Reads source cx least (Term.enclose least t.level t.print) t.outline := by
  unfold Term.enclose
  split
  · refine (Reads.parenthesized understood.whole).of_le bound (Nat.le_refl 11) fun _ => ?_
    exact ⟨.punctuation '(', rfl, by decide⟩
  · next tight =>
    refine (understood.reads (by omega)).of_le (by omega) t.level_le fun eq => ?_
    obtain ⟨first, head_eq, -, plain⟩ := understood.begins
    exact ⟨first, head_eq, plain eq⟩

/-- What is attached to an operand makes a term that needs no parentheses. -/
theorem attach {receiver : Term} (understood : Understood source cx receiver)
    (print_eq : t.print = Term.enclose 11 receiver.level receiver.print ++ more)
    (level_eq : t.level = 11) (attaches : Attaches source cx more receiver.outline t.outline) :
    Understood source cx t := by
  refine of_reads ?_ (by omega) ?_
  · rw [print_eq, level_eq]
    exact (understood.begins_enclose 11).append more
  · rw [print_eq, level_eq]
    exact (understood.operand (by decide) (by decide)).attach attaches

end Understood

theorem understood (source : Text) (inBinding : cx.mode = .binding) (t : Term) :
    Understood source cx t := by
  induction t using Term.induction with
  | identifier name =>
    have begins : Begins 11 (Term.identifier name).print := by
      rw [Term.print]
      refine ⟨name.lexeme, rfl, by simp [Name.lexeme], fun _ => List.find?_eq_none.mpr ?_⟩
      intro operator _
      cases operator <;> simp [Name.lexeme, PrefixOperator.lexeme]
    refine .of_reads begins (Nat.le_add_left 2 9) ?_
    rw [Term.print]
    exact .identifier name
  | member receiver safe name first =>
    refine first.attach (by rw [Term.print]) rfl ?_
    rw [Term.outline]
    exact attaches_member safe name
  | keyed receiver key first second =>
    refine first.attach (by rw [Term.print]) rfl ?_
    rw [Term.outline]
    exact attaches_keyed second.whole
  | call callee arguments first more =>
    cases arguments with
    | nil =>
      refine first.attach (by rw [Term.print]) rfl ?_
      rw [Term.outline]
      exact attaches_call lists_nil
    | cons second arguments =>
      obtain ⟨second, more⟩ := List.forall_mem_cons.mp more
      obtain ⟨lexeme, head_eq, unclosed, -⟩ := second.begins
      refine first.attach (by rw [Term.print]) rfl ?_
      rw [Term.outline]
      exact attaches_call (lists_cons second.whole ⟨lexeme, head_eq, unclosed⟩ fun t member =>
        (more t member).whole)
  | nonNull operand first =>
    refine first.attach (by rw [Term.print]) rfl ?_
    rw [Term.outline]
    exact attaches_nonNull
  | prefixed operator operand first =>
    have begins : Begins 10 (Term.prefixed operator operand).print := by
      rw [Term.print]
      refine ⟨operator.lexeme, rfl, ?_, fun tight => absurd tight (by simp)⟩
      cases operator <;> decide
    refine .of_reads begins (Nat.le_add_left 2 8) ?_
    rw [Term.print, Term.outline]
    exact (first.operand (by decide) (by decide)).prefixOperator operator
  | binary operator plain left right first second =>
    have := operator.level_le
    refine .of_reads ?_ plain ?_
    · rw [Term.print, Term.level]
      exact ((first.begins_enclose operator.leftLevel).append _).of_ne (by omega)
    rw [Term.print, Term.outline, Term.level]
    rcases Nat.lt_or_ge operator.level 9 with left_associative | tight
    · have other : operator ≠ .power := by
        rintro rfl
        exact absurd left_associative (by decide)
      rw [BinaryOperator.leftLevel, BinaryOperator.rightLevel, if_neg other, if_neg other]
      exact .leftOperator (by omega) (first.operand plain (by omega))
        (second.operand (by omega) (by omega))
    · cases BinaryOperator.power_of_level (Nat.le_antisymm operator.level_le tight)
      exact .power (first.operand (by decide) (by decide)) (second.operand (by decide) (by decide))
  | conditional condition yes no first second third =>
    refine ⟨?_, fun tighter => absurd tighter (by simp [Term.level]), ?_⟩
    · rw [Term.print]
      exact ((first.begins_enclose 2).append _).of_ne (by simp [Term.level])
    · rw [Term.print, Term.outline]
      exact whole_conditional (first.operand (by decide) (by decide))
        (second.operand (by decide) (by decide)) (third.operand (by decide) (by decide))
  | pipe value name arguments first more =>
    refine ⟨?_, fun tighter => absurd tighter (by simp [Term.level]), ?_⟩
    · rw [Term.print]
      exact ((first.begins_enclose 2).append _).of_ne (by simp [Term.level])
    · rw [Term.print, Term.outline]
      exact whole_pipe inBinding name (first.operand (by decide) (by decide)) fun t member =>
        (more t member).operand (by decide) (by decide)

theorem gives_chain {t : Term} (understood : Understood source cx t)
    (written : List.Forall₂ (Token.Writes source) t.print tokens) :
    (chain cx tokens).Gives (fun nodes => nodes.map (outline source) = [t.outline]) [] := by
  have given := understood.whole tokens [] written (by simp [FollowedBy])
  obtain ⟨lexeme, head_eq, -⟩ := understood.begins
  obtain ⟨token, later, rfl, -⟩ := exists_cons_of_writes written head_eq
  rw [List.append_nil] at given
  rw [chain]
  exact given.andThen fun value _ value_eq => .done (by rw [List.map_singleton, value_eq])

/-- From the text of a term, wherever it stands in a source, the parser makes the
tree that the term asks for, and meets no error. -/
theorem parse_text (t : Term) (before after : Text) :
    Harmless (parse .binding before.byteLength t.text).2 ∧
      (parse .binding before.byteLength t.text).1.map (outline (before ++ t.text ++ after)) =
        [t.outline] := by
  have stands : t.text.StandsAt before.byteLength (before ++ t.text ++ after) :=
    ⟨before, after, rfl, rfl⟩
  have written : List.Forall₂ (Token.Writes (before ++ t.text ++ after)) t.print
      (tokensAt before.byteLength t.text) := writes_tokensAt t.legible_print rfl stands
  obtain ⟨harmless, outline_eq, rest_eq⟩ :
      (chain ⟨.binding, before.byteLength + t.text.byteLength⟩
        (tokensAt before.byteLength t.text)).Gives
          (fun nodes => nodes.map (outline (before ++ t.text ++ after)) = [t.outline]) [] :=
    gives_chain (understood _ rfl t) written
  refine ⟨?_, outline_eq⟩
  rw [parse, rest_eq]
  exact harmless_append.mpr ⟨harmless, harmless_nil⟩

/-- The parentheses around a sum are read, and leave no trace in its outline. -/
theorem parse_text_product : ∃ t : Term, t.text = "( a + b ) * c".toList ∧
    Harmless (parse .binding 2 t.text).2 ∧
      (parse .binding 2 t.text).1.map
        (outline ("\x7b\x7b".toList ++ t.text ++ "\x7d\x7d".toList)) = [t.outline] := by
  let a : Name := ⟨'a', [], rfl, List.forall_mem_nil _, rfl⟩
  let b : Name := ⟨'b', [], rfl, List.forall_mem_nil _, rfl⟩
  let c : Name := ⟨'c', [], rfl, List.forall_mem_nil _, rfl⟩
  let sum : Term := .binary .plus (by decide) (.identifier a) (.identifier b)
  exact ⟨.binary .times (by decide) sum (.identifier c), rfl, parse_text _ "\x7b\x7b".toList _⟩

end Expression

end ComponentExtraction
