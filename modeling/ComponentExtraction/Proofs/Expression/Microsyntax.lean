import ComponentExtraction.Proofs.Expression.Pieces
import ComponentExtraction.Proofs.Expression.Relocation

/-!
# Printed values of structural directives

An entry of a structural directive declares a variable, holds the directive's own
expression or the expression of a key, or renames a key. Entries are printed with a blank
between any two pieces and with semicolons between them, and any expression may stand in
them that can stand alone and has neither of the keywords `as` and `let` (`Embedded`).
Parsing such a value gives back what its entries declare (`parse_value_text`).

An expression is read to its end and no further, as a semicolon or `as` ends every
expression, and its tokens are what they are where it stands alone.
-/

namespace ComponentExtraction

namespace Expression

open Diagnostic Parsing

variable {cx : Context} {token stop : Token} {tokens taken tail rest : List Token}

/-- A whole expression starts as an operand of the tightest operators does. -/
theorem harmless_prefixed_of_binary {level : Nat}
    (harmless : Harmless (binary cx level tokens).diagnostics) :
    Harmless (prefixed cx tokens).diagnostics := by
  rw [binary] at harmless
  split at harmless
  · exact harmless_prefixed_of_binary (harmless_append.mp harmless).1
  · rw [exponentiation_eq] at harmless
    exact (harmless_append.mp harmless).1
termination_by 9 - level

theorem harmless_prefixed_of_pipe (harmless : Harmless (pipe cx tokens).diagnostics) :
    Harmless (prefixed cx tokens).diagnostics := by
  rw [pipe] at harmless
  have assigned := (harmless_append.mp harmless).1
  rw [assignment_eq] at assigned
  have target := (harmless_append.mp assigned).1
  rw [conditional_eq] at target
  exact harmless_prefixed_of_binary (harmless_append.mp target).1

theorem isPunctuation_eq_false_of_pipe {c : Char} (separator : c ∈ [':', ';', ','])
    (harmless : Harmless (pipe cx (token :: rest)).diagnostics) :
    token.isPunctuation c = false := by
  refine Bool.eq_false_iff.mpr fun mark => ?_
  have lexeme_eq : token.lexeme = .punctuation c := beq_iff_eq.mp mark
  have operand := harmless_prefixed_of_pipe harmless
  have opens : ∀ opening ∈ ['(', '[', '\x7b'], token.isPunctuation opening = false := by
    intro opening listed
    have all_apart : [':', ';', ','].all fun c => ['(', '[', '\x7b'].all (c != ·) := by decide
    have apart := List.all_eq_true.mp (List.all_eq_true.mp all_apart c separator) opening listed
    simpa [Token.isPunctuation, lexeme_eq] using apart
  have noPrefix : PrefixOperator.ofLexeme? token.lexeme = none := by
    rw [lexeme_eq]
    rfl
  rw [prefixed] at operand
  simp only [noPrefix] at operand
  rw [postfixed, primary_cons, if_neg (by simp [opens]), if_neg (by simp [opens]),
    if_neg (by simp [opens])] at operand
  have alone : atom token rest = misplaced token rest := by
    simp [atom, lexeme_eq, Lexeme.isLiteral, Lexeme.name?, Token.isKeyword]
  rw [alone] at operand
  have faulty : ¬Harmless (misplaced token rest).diagnostics := not_harmless_misplaced
  exact faulty (harmless_append.mp operand).1

/-- An expression that can stand in an entry: it is accepted where it stands alone, and
none of its tokens is a keyword of entries. -/
structure Embedded where
  text : Text
  clean : Harmless (parse .binding 0 text).2
  nonempty : (parse .binding 0 text).1 ≠ []
  plain : ∀ token ∈ Token.scan text,
    token.isKeyword .as_ = false ∧ token.isKeyword .let_ = false

namespace Embedded

variable (e : Embedded) (offset : Nat)

/-- The tree of the expression where its text stands at an offset. -/
def tree : List Node :=
  (parse .binding offset e.text).1

theorem gives_alone : (pipe ⟨.binding, offset + e.text.byteLength⟩ (tokensAt offset e.text)).Gives
    (fun node => e.tree offset = [node]) [] := by
  obtain ⟨clean, finished⟩ :=
    harmless_parse_iff.mp (harmless_parse_of_offset e.clean offset)
  have given : (chain ⟨.binding, offset + e.text.byteLength⟩ (tokensAt offset e.text)).Gives
      (e.tree offset = ·) [] := ⟨clean, rfl, finished⟩
  cases tokens_eq : tokensAt offset e.text with
  | nil =>
    have scan_eq : Token.scan e.text = [] := List.map_eq_nil_iff.mp tokens_eq
    refine absurd ?_ e.nonempty
    rw [parse, tokensAt, scan_eq]
    rfl
  | cons token rest =>
    rw [tokens_eq, chain] at given
    obtain ⟨node, between, _, first, second⟩ := given.of_andThen
    cases between with
    | nil =>
      obtain ⟨tree_eq, -⟩ := second.of_done
      exact first.mono fun value value_eq => value_eq ▸ tree_eq
    | cons separator more =>
      dsimp only at second
      split at second
      · exact absurd rfl (harmless_cons.mp second.of_reporting.1).1
      · exact absurd second.rest (by simp [done])

/-- In front of what ends expressions, the same tree is read and nothing behind it. -/
theorem gives_pipe (binding : cx.mode = .binding) (ends : Ending tail)
    (matched : Matched (tokensAt offset e.text) taken) :
    (pipe cx (taken ++ tail)).Gives (fun node => e.tree offset = [node]) tail := by
  have alone := e.gives_alone offset
  obtain ⟨clean, value_eq, ⟨left, rest_eq, nothing⟩, -⟩ :=
    extends_pipe binding ends matched alone.diagnostics
  rw [alone.rest] at nothing
  cases nothing
  refine ⟨clean, ?_, rest_eq⟩
  rw [value_eq]
  exact alone.value

def piece : Piece where
  text := e.text
  closed := by
    have alone := e.gives_alone 0
    have same : Matched (tokensAt 0 e.text) (tokensAt 0 e.text) :=
      List.forall₂_same.mpr fun token _ => ⟨rfl, .same _⟩
    have nothing : Ending [] := by simp [Ending]
    obtain ⟨-, -, -, closed⟩ := extends_pipe rfl nothing same alone.diagnostics
    rw [alone.rest] at closed
    exact lastLegible_scan closed

/-- The expression has a first token, which can be told from what else an entry may go on
or start with. -/
theorem exists_first (matched : Matched (tokensAt offset e.text) taken) :
    ∃ token rest, taken = token :: rest ∧ token.isKeyword .as_ = false ∧
      token.isKeyword .let_ = false ∧ ∀ c ∈ [':', ';', ','], token.isPunctuation c = false := by
  have alone := e.gives_alone offset
  obtain ⟨first, more, tokens_eq, -⟩ := takes_pipe alone
  have listed : first ∈ tokensAt offset e.text := by simp [tokens_eq]
  obtain ⟨original, member, shift_eq⟩ := List.mem_map.mp listed
  rw [tokens_eq] at matched alone
  obtain ⟨token, rest, first_matches, -, rfl⟩ := List.forall₂_cons_left_iff.mp matched
  obtain ⟨noAlias, noVariable⟩ := e.plain original member
  have keyword_eq (keyword : Keyword) : token.isKeyword keyword = original.isKeyword keyword := by
    rw [first_matches.alike.isKeyword_eq, ← shift_eq]
    rfl
  refine ⟨token, rest, rfl, (keyword_eq _).trans noAlias, (keyword_eq _).trans noVariable, ?_⟩
  intro c separator
  rw [first_matches.alike.isPunctuation_eq]
  exact isPunctuation_eq_false_of_pipe separator alone.diagnostics

end Embedded

namespace Directive

/-- What an entry adds to the value of a directive. -/
inductive Declaration where
  | name (name : Text)
  | bound (key : Text) (expression : List Node)

/-- The node of a declaration. A bound expression stands behind
its key and a colon, which are leaves of the same node. -/
inductive Declares : Node → Declaration → Prop
  | name {node : Node} {name : Text} (kind_eq : node.kind = .templateVariable name) :
      Declares node (.name name)
  | bound {node : Node} {key : Text} {marks expression : List Node}
      (kind_eq : node.kind = .templateBinding key) (children_eq : node.children = marks ++ expression)
      (tokens : ∀ mark ∈ marks, mark.kind = .token) : Declares node (.bound key expression)

/-- Besides tokens, some nodes are those of declarations in their order. -/
def Introduces (declarations : List Declaration) (nodes : List Node) : Prop :=
  List.Forall₂ Declares (nodes.filter fun node => node.kind != .token) declarations

namespace Introduces

variable {declarations others : List Declaration} {node : Node} {nodes more : List Node}

theorem nil : Introduces [] [] :=
  List.Forall₂.nil

theorem cons {declaration : Declaration} (first : Declares node declaration)
    (later : Introduces declarations nodes) :
    Introduces (declaration :: declarations) (node :: nodes) := by
  have inner : node.kind ≠ .token := by
    cases first with
    | name kind_eq => simp [kind_eq]
    | bound kind_eq _ _ => simp [kind_eq]
  rw [Introduces, List.filter_cons_of_pos (by simp [inner])]
  exact List.Forall₂.cons first later

theorem append (first : Introduces declarations nodes) (later : Introduces others more) :
    Introduces (declarations ++ others) (nodes ++ more) := by
  rw [Introduces, List.filter_append]
  exact List.rel_append first later

theorem leaf (token : Token) (later : Introduces declarations nodes) :
    Introduces declarations (token.leaf :: nodes) := by
  rw [Introduces, List.filter_cons_of_neg (by simp [Token.leaf, Node.leaf])]
  exact later

end Introduces

theorem declares_binding {e : Embedded} {offset start : Nat} (key : Text) (marks : List Node)
    {node : Node} (tokens : ∀ mark ∈ marks, mark.kind = .token)
    (tree_eq : e.tree offset = [node]) :
    Declares (Node.enclosing (.templateBinding key) start (marks ++ [node]))
      (.bound key (e.tree offset)) :=
  .bound rfl (by rw [tree_eq]; rfl) tokens

theorem declares_variableNode (name : Text) (tokens : List Token) :
    Declares (variableNode name tokens) (.name name) :=
  .name rfl

/-- One entry of a directive's value. Only the first one may be the directive's own
expression, and only later ones start with a key. -/
inductive Entry : (isFirst : Bool) → Type
  | declared {isFirst : Bool} (name : Name) (source : Option Name) : Entry isFirst
  | own (e : Embedded) (alias? : Option Name) : Entry true
  | keyed (key : Name) (colon : Bool) (e : Embedded) (alias? : Option Name) : Entry false
  | renamed (key name : Name) : Entry false

def namePiece (name : Name) : Piece :=
  .word name.lexeme (Lexeme.legible_name name) (by simp [Name.lexeme])

def keywordPiece (keyword : Keyword) : Piece :=
  .word (.keyword keyword) (Lexeme.legible_keyword keyword) (by simp)

def markPiece (c : Char) (mark : c ∈ ['.', '(', ')', '[', ']', ',', ':', ';']) : Piece :=
  .word (.punctuation c) (Lexeme.legible_punctuation mark) (by simp)

def equalsPiece : Piece :=
  .word (.operator .assign) (Lexeme.legible_operator .assign (by simp)) (by simp)

def aliasPieces : Option Name → List Piece
  | none => []
  | some name => [keywordPiece .as_, namePiece name]

def colonPieces (colon : Bool) : List Piece :=
  if colon then [markPiece ':' (by simp)] else []

def aliasDeclarations (alias? : Option Name) : List Declaration :=
  alias?.toList.map fun name => .name name.text

namespace Entry

variable {isFirst : Bool}

def pieces : {isFirst : Bool} → Entry isFirst → List Piece
  | _, declared name none => [keywordPiece .let_, namePiece name]
  | _, declared name (some source) =>
    [keywordPiece .let_, namePiece name, equalsPiece, namePiece source]
  | _, own e alias? => e.piece :: aliasPieces alias?
  | _, keyed key colon e alias? =>
    namePiece key :: (colonPieces colon ++ e.piece :: aliasPieces alias?)
  | _, renamed key name => [namePiece key, keywordPiece .as_, namePiece name]

def text (entry : Entry isFirst) : Text :=
  Piece.join entry.pieces

def declarations (directive : Text) (offset : Nat) : {isFirst : Bool} → Entry isFirst →
    List Declaration
  | _, declared name _ => [.name name.text]
  | _, own e alias? => .bound directive (e.tree offset) :: aliasDeclarations alias?
  | _, keyed key colon e alias? =>
    .bound (directive ++ Text.capitalize key.text)
      (e.tree (offset + key.text.byteLength + if colon then 3 else 1)) :: aliasDeclarations alias?
  | _, renamed _ name => [.name name.text]

end Entry

variable {directive : Text} {offset : Nat}

def Divided (tail : List Token) : Prop :=
  ∀ stop ∈ tail.head?, stop.lexeme = .punctuation ';'

namespace Divided

variable (divided : Divided tail)
include divided

theorem ending : Ending tail :=
  fun stop head_eq => .inl (divided stop head_eq)

theorem not_isKeyword (keyword : Keyword) : ∀ stop ∈ tail.head?, stop.isKeyword keyword = false := by
  intro stop head_eq
  rw [Token.isKeyword, divided stop head_eq]
  rfl

theorem not_isOperator (operator : Operator) :
    ∀ stop ∈ tail.head?, stop.isOperator operator = false := by
  intro stop head_eq
  rw [Token.isOperator, divided stop head_eq]
  rfl

end Divided

theorem name?_of_lexeme {name : Name} (lexeme_eq : token.lexeme = name.lexeme) :
    token.lexeme.name? = some name.text := by
  rw [lexeme_eq]
  rfl

theorem identifier?_of_lexeme {name : Name} (lexeme_eq : token.lexeme = name.lexeme) :
    token.lexeme.identifier? = some name.text := by
  rw [lexeme_eq]
  rfl

theorem isKeyword_of_lexeme {name : Name} (lexeme_eq : token.lexeme = name.lexeme)
    (keyword : Keyword) : token.isKeyword keyword = false := by
  rw [Token.isKeyword, lexeme_eq]
  rfl

theorem isSeparator_of_lexeme {name : Name} (lexeme_eq : token.lexeme = name.lexeme) :
    isSeparator token = false := by
  rw [isSeparator, Token.isPunctuation, Token.isPunctuation, lexeme_eq]
  rfl

theorem entry_of_lexeme {name : Name} (lexeme_eq : token.lexeme = name.lexeme) :
    Directive.entry cx directive false token tokens =
      (keyedEntry cx directive name.text token tokens).after token := by
  rw [Directive.entry, if_neg (by simp [isKeyword_of_lexeme lexeme_eq]), if_neg (by simp)]
  simp only [name?_of_lexeme lexeme_eq]

theorem gives_aliasName (front : List Token) {name : Name}
    (lexeme_eq : token.lexeme = name.lexeme) :
    (aliasName cx front (token :: tail)).Gives (Introduces [.name name.text]) tail := by
  rw [aliasName]
  simp only [identifier?_of_lexeme lexeme_eq]
  exact .after (.done (.cons (declares_variableNode _ _) .nil))

theorem ending_alias {alias? : Option Name} (divided : Divided tail)
    (matched : Matched (Piece.tokens offset (aliasPieces alias?)) taken) :
    Ending (taken ++ tail) := by
  cases alias? with
  | none =>
    cases matched
    exact divided.ending
  | some name =>
    obtain ⟨keyword, rest, rfl, keyword_eq, -⟩ := Piece.exists_word matched
    rintro stop ⟨⟩
    exact .inr keyword_eq

theorem gives_optionalAlias {alias? : Option Name} (divided : Divided tail)
    (matched : Matched (Piece.tokens offset (aliasPieces alias?)) taken) :
    (optionalAlias cx (taken ++ tail)).Gives (Introduces (aliasDeclarations alias?)) tail := by
  cases alias? with
  | none =>
    cases matched
    cases tail with
    | nil => exact .done .nil
    | cons stop tail =>
      rw [List.nil_append, optionalAlias,
        if_neg (by simp [divided.not_isKeyword .as_ stop rfl])]
      exact .done .nil
  | some name =>
    obtain ⟨keyword, rest, rfl, keyword_eq, matched⟩ := Piece.exists_word matched
    obtain ⟨token, rest, rfl, lexeme_eq, nothing⟩ := Piece.exists_word matched
    cases nothing
    rw [List.cons_append, optionalAlias, if_pos (by simp [Token.isKeyword, keyword_eq])]
    exact .after (gives_aliasName _ lexeme_eq)

theorem gives_variableEntry {keyword : Token} {name : Name} {source : Option Name}
    (divided : Divided tail) (lexeme_eq : token.lexeme = name.lexeme)
    (matched : Matched (Piece.tokens offset
      (source.toList.flatMap fun source => [equalsPiece, namePiece source])) taken) :
    (variableEntry cx keyword (token :: (taken ++ tail))).Gives (Introduces [.name name.text])
      tail := by
  have introduces (tokens : List Token) :
      Introduces [.name name.text] [variableNode name.text tokens] :=
    .cons (declares_variableNode _ _) .nil
  rw [variableEntry]
  simp only [name?_of_lexeme lexeme_eq]
  refine .after ?_
  cases source with
  | none =>
    cases matched
    cases tail with
    | nil => exact .done (introduces _)
    | cons stop tail =>
      rw [List.nil_append]
      dsimp only
      rw [if_neg (by simp [divided.not_isOperator .assign stop rfl])]
      exact .done (introduces _)
  | some source =>
    obtain ⟨equals, rest, rfl, equals_eq, matched⟩ := Piece.exists_word matched
    obtain ⟨value, rest, rfl, value_eq, nothing⟩ := Piece.exists_word matched
    cases nothing
    rw [List.cons_append]
    dsimp only
    rw [if_pos (by simp [Token.isOperator, equals_eq]), List.cons_append]
    simp only [name?_of_lexeme value_eq]
    exact .after (.after (.done (introduces _)))

theorem exists_embedded {e : Embedded} {alias? : Option Name} (binding : cx.mode = .binding)
    (divided : Divided tail)
    (matched : Matched (Piece.tokens offset (e.piece :: aliasPieces alias?)) taken) :
    ∃ behind, (pipe cx (taken ++ tail)).Gives (fun node => e.tree offset = [node]) behind ∧
      (optionalAlias cx behind).Gives (Introduces (aliasDeclarations alias?)) tail := by
  rw [Piece.tokens_cons] at matched
  obtain ⟨front, back, rfl, inside, behind⟩ := exists_append_of_forall₂ matched
  refine ⟨back ++ tail, ?_, gives_optionalAlias divided behind⟩
  rw [List.append_assoc]
  exact e.gives_pipe offset binding (ending_alias divided behind) inside

theorem gives_ownExpression {e : Embedded} {alias? : Option Name} (binding : cx.mode = .binding)
    (divided : Divided tail)
    (matched : Matched (Piece.tokens offset (e.piece :: aliasPieces alias?)) taken) :
    (ownExpression cx directive (taken ++ tail)).Gives
      (Introduces (.bound directive (e.tree offset) :: aliasDeclarations alias?)) tail := by
  obtain ⟨behind, operand, names⟩ := exists_embedded binding divided matched
  refine operand.andThen fun value _ tree_eq => names.map fun nodes introduces => ?_
  have noMarks : ∀ mark ∈ ([] : List Node), mark.kind = .token := by simp
  exact .cons (declares_binding directive _ noMarks tree_eq) introduces

theorem gives_optionalColon {colon : Bool} {e : Embedded} {alias? : Option Name}
    (matched : Matched (Piece.tokens offset
      (colonPieces colon ++ e.piece :: aliasPieces alias?)) taken) :
    ∃ behind, Matched (Piece.tokens (offset + if colon then 2 else 0)
        (e.piece :: aliasPieces alias?)) behind ∧
      (optionalColon (taken ++ tail)).Gives (fun marks => ∀ mark ∈ marks, mark.kind = .token)
        (behind ++ tail) := by
  cases colon with
  | true =>
    obtain ⟨mark, rest, rfl, mark_eq, matched⟩ := Piece.exists_word matched
    refine ⟨rest, matched, ?_⟩
    rw [List.cons_append, optionalColon, if_pos (by simp [Token.isPunctuation, mark_eq])]
    exact .after (.done (by simp [Token.leaf, Node.leaf]))
  | false =>
    have matched : Matched (Piece.tokens offset (e.piece :: aliasPieces alias?)) taken := matched
    refine ⟨taken, matched, ?_⟩
    rw [Piece.tokens_cons] at matched
    obtain ⟨front, back, rfl, inside, -⟩ := exists_append_of_forall₂ matched
    obtain ⟨first, rest, rfl, -, -, noSeparator⟩ := e.exists_first offset inside
    have noColon := noSeparator ':' (by simp)
    rw [List.cons_append, List.cons_append, optionalColon, if_neg (by simp [noColon])]
    exact .done (by simp)

/-- What follows the key of an expression is no alias of the key. -/
theorem exists_no_alias {colon : Bool} {e : Embedded} {alias? : Option Name}
    (matched : Matched (Piece.tokens offset
      (colonPieces colon ++ e.piece :: aliasPieces alias?)) taken) :
    ∃ next rest, taken = next :: rest ∧ next.isKeyword .as_ = false := by
  cases colon with
  | true =>
    obtain ⟨mark, rest, rfl, mark_eq, -⟩ := Piece.exists_word matched
    exact ⟨mark, rest, rfl, by rw [Token.isKeyword, mark_eq]; rfl⟩
  | false =>
    have matched : Matched (Piece.tokens offset (e.piece :: aliasPieces alias?)) taken := matched
    rw [Piece.tokens_cons] at matched
    obtain ⟨front, back, rfl, inside, -⟩ := exists_append_of_forall₂ matched
    obtain ⟨first, rest, rfl, noAlias, -, -⟩ := e.exists_first offset inside
    exact ⟨first, rest ++ back, rfl, noAlias⟩

theorem gives_keyedExpression {key : Text} {colon : Bool} {e : Embedded} {alias? : Option Name}
    (binding : cx.mode = .binding) (divided : Divided tail)
    (matched : Matched (Piece.tokens offset
      (colonPieces colon ++ e.piece :: aliasPieces alias?)) taken) :
    (keyedExpression cx directive key token (taken ++ tail)).Gives
      (Introduces (.bound (directive ++ Text.capitalize key)
        (e.tree (offset + if colon then 2 else 0)) :: aliasDeclarations alias?)) tail := by
  obtain ⟨behind, matched, marked⟩ := gives_optionalColon matched
  refine marked.andThen fun marks _ tokens => ?_
  obtain ⟨behind', operand, names⟩ := exists_embedded binding divided matched
  have valued : (optionalValue cx (behind ++ tail)).Gives
      (e.tree (offset + if colon then 2 else 0) = ·) behind' := by
    rw [Piece.tokens_cons] at matched
    obtain ⟨front, back, rfl, inside, -⟩ := exists_append_of_forall₂ matched
    obtain ⟨first, rest, rfl, -, -, noSeparator⟩ := e.exists_first _ inside
    rw [List.cons_append, List.cons_append, optionalValue,
      if_neg (by simp [isSeparator, noSeparator])]
    exact operand.map fun _ tree_eq => tree_eq
  refine valued.andThen fun value _ tree_eq => names.map fun nodes introduces => ?_
  have marks_tokens : ∀ mark ∈ token.leaf :: marks, mark.kind = .token := by
    simpa [Token.leaf, Node.leaf] using tokens
  refine .cons (.bound rfl ?_ marks_tokens) introduces
  rw [tree_eq]
  rfl

theorem gives_keyedEntry {key : Text} {colon : Bool} {e : Embedded} {alias? : Option Name}
    (binding : cx.mode = .binding) (divided : Divided tail)
    (matched : Matched (Piece.tokens offset
      (colonPieces colon ++ e.piece :: aliasPieces alias?)) taken) :
    (keyedEntry cx directive key token (taken ++ tail)).Gives
      (Introduces (.bound (directive ++ Text.capitalize key)
        (e.tree (offset + if colon then 2 else 0)) :: aliasDeclarations alias?)) tail := by
  have given : (keyedExpression cx directive key token (taken ++ tail)).Gives _ tail :=
    gives_keyedExpression binding divided matched
  obtain ⟨next, rest, rfl, noAlias⟩ := exists_no_alias matched
  rw [List.cons_append, keyedEntry, if_neg (by simp [noAlias])]
  exact given

/-- A key behind which an alias follows binds nothing and declares the alias. -/
theorem gives_renamedEntry {key : Text} {name : Name}
    (matched : Matched (Piece.tokens offset [keywordPiece .as_, namePiece name]) taken) :
    (keyedEntry cx directive key token (taken ++ tail)).Gives
      (Introduces [.name name.text]) tail := by
  obtain ⟨keyword, rest, rfl, keyword_eq, matched⟩ := Piece.exists_word matched
  obtain ⟨other, rest, rfl, other_eq, nothing⟩ := Piece.exists_word matched
  cases nothing
  simp only [List.cons_append]
  rw [keyedEntry, if_pos (by simp [Token.isKeyword, keyword_eq])]
  exact .after (gives_aliasName _ other_eq)

theorem exists_entry (directive : Text) {isFirst : Bool} (entry : Entry isFirst)
    (binding : cx.mode = .binding)
    (divided : Divided tail) (matched : Matched (Piece.tokens offset entry.pieces) taken) :
    ∃ token rest, taken = token :: rest ∧ isSeparator token = false ∧
      (Directive.entry cx directive isFirst token (rest ++ tail)).Gives
        (Introduces (entry.declarations directive offset)) tail := by
  cases entry with
  | declared name source =>
    obtain ⟨keyword, rest, rfl, keyword_eq, matched⟩ : ∃ keyword rest, taken = keyword :: rest ∧
        keyword.lexeme = .keyword .let_ ∧ Matched (Piece.tokens _ (namePiece name ::
          source.toList.flatMap fun source => [equalsPiece, namePiece source])) rest := by
      cases source <;> exact Piece.exists_word matched
    obtain ⟨token, rest, rfl, lexeme_eq, matched⟩ := Piece.exists_word matched
    refine ⟨keyword, _, rfl, by simp [isSeparator, Token.isPunctuation, keyword_eq], ?_⟩
    rw [Directive.entry, if_pos (by simp [Token.isKeyword, keyword_eq])]
    exact .after (gives_variableEntry divided lexeme_eq matched)
  | own e alias? =>
    have given : (ownExpression cx directive (taken ++ tail)).Gives _ tail :=
      gives_ownExpression binding divided matched
    rw [Entry.pieces, Piece.tokens_cons] at matched
    obtain ⟨front, back, rfl, inside, -⟩ := exists_append_of_forall₂ matched
    obtain ⟨first, rest, rfl, -, noVariable, noSeparator⟩ := e.exists_first offset inside
    refine ⟨first, rest ++ back, rfl, by simp [isSeparator, noSeparator], ?_⟩
    rw [Directive.entry, if_neg (by simp [noVariable]), if_pos rfl]
    exact given
  | keyed key colon e alias? =>
    obtain ⟨token, rest, rfl, lexeme_eq, matched⟩ := Piece.exists_word matched
    refine ⟨token, rest, rfl, isSeparator_of_lexeme lexeme_eq, ?_⟩
    have place_eq : offset + key.text.byteLength + 1 + (if colon then 2 else 0) =
        offset + key.text.byteLength + if colon then 3 else 1 := by
      cases colon <;> rfl
    rw [entry_of_lexeme lexeme_eq, Entry.declarations, ← place_eq]
    exact .after (gives_keyedEntry binding divided matched)
  | renamed key name =>
    obtain ⟨token, rest, rfl, lexeme_eq, matched⟩ := Piece.exists_word matched
    refine ⟨token, rest, rfl, isSeparator_of_lexeme lexeme_eq, ?_⟩
    rw [entry_of_lexeme lexeme_eq]
    exact .after (gives_renamedEntry matched)

def piecesBehind (later : List (Entry false)) : List Piece :=
  later.flatMap fun entry => markPiece ';' (by simp) :: entry.pieces

def declarationsBehind (directive : Text) (offset : Nat) : List (Entry false) → List Declaration
  | [] => []
  | entry :: later =>
    entry.declarations directive (offset + 3) ++
      declarationsBehind directive (offset + 3 + entry.text.byteLength) later

inductive Value where
  | nothing
  | entries (first : Entry true) (later : List (Entry false))

namespace Value

def text : Value → Text
  | nothing => []
  | entries first later => Text.joinWith " ; ".toList (first.text :: later.map Entry.text)

example (x k a : Name) (e : Embedded) :
    (entries (.declared x none) [.keyed k true e (some a)]).text =
      ("let".toList ++ " ".toList ++ x.text) ++ " ; ".toList ++
        (k.text ++ " ".toList ++ (":".toList ++ " ".toList ++
          (e.text ++ " ".toList ++ ("as".toList ++ " ".toList ++ a.text)))) := rfl

def declarations (directive : Text) (offset : Nat) : Value → List Declaration
  | nothing => []
  | entries first later =>
    first.declarations directive offset ++
      declarationsBehind directive (offset + first.text.byteLength) later

end Value

theorem Entry.exists_pieces {isFirst : Bool} (entry : Entry isFirst) :
    ∃ first more, entry.pieces = first :: more := by
  cases entry with
  | declared name source => cases source <;> exact ⟨_, _, rfl⟩
  | own | keyed | renamed => exact ⟨_, _, rfl⟩

theorem piecesBehind_cons (entry : Entry false) (later : List (Entry false)) :
    piecesBehind (entry :: later) =
      markPiece ';' (by simp) :: (entry.pieces ++ piecesBehind later) := rfl

/-- Entries with semicolons between them are pieces with blanks between them. -/
theorem joinWith_text {isFirst : Bool} (first : Entry isFirst) (later : List (Entry false)) :
    Text.joinWith " ; ".toList (first.text :: later.map Entry.text) =
      Piece.join (first.pieces ++ piecesBehind later) := by
  induction later generalizing isFirst first with
  | nil =>
    rw [piecesBehind, List.flatMap_nil, List.append_nil]
    rfl
  | cons second later ih =>
    obtain ⟨head, pieces, pieces_eq⟩ := first.exists_pieces
    obtain ⟨head', pieces', pieces_eq'⟩ := second.exists_pieces
    rw [List.map_cons, Text.joinWith, ih, piecesBehind_cons, Entry.text, pieces_eq, pieces_eq',
      Piece.join_append, List.cons_append, Piece.join_cons_cons, List.append_assoc]
    · rfl
    · simp

theorem entries_semicolon {isFirst : Bool} (semicolon : token.lexeme = .punctuation ';') :
    entries cx directive isFirst (token :: tokens) =
      (token.leaf :: (entries cx directive isFirst tokens).1,
        (entries cx directive isFirst tokens).2) := by
  rw [entries, if_pos (by simp [isSeparator, Token.isPunctuation, semicolon])]

theorem exists_entries {isFirst : Bool} (entry : Entry isFirst) (binding : cx.mode = .binding)
    (divided : Divided tail) (matched : Matched (Piece.tokens offset entry.pieces) taken) :
    ∃ nodes diagnostics, Introduces (entry.declarations directive offset) nodes ∧
      Harmless diagnostics ∧ entries cx directive isFirst (taken ++ tail) =
        (nodes ++ (entries cx directive false tail).1,
          diagnostics ++ (entries cx directive false tail).2) := by
  obtain ⟨token, rest, rfl, noSeparator, ⟨clean, introduces, rest_eq⟩⟩ :=
    exists_entry directive entry binding divided matched
  refine ⟨_, _, introduces, clean, ?_⟩
  rw [List.cons_append, entries, if_neg (by simp [noSeparator])]
  simp only [rest_eq]
  rw [dif_pos (by simp)]

/-- All entries are read, and what they declare is found in their order. -/
theorem introduces_entries {isFirst : Bool} (entry : Entry isFirst) (later : List (Entry false))
    (binding : cx.mode = .binding)
    (matched : Matched (Piece.tokens offset (entry.pieces ++ piecesBehind later)) taken) :
    Harmless (entries cx directive isFirst taken).2 ∧
      Introduces (entry.declarations directive offset ++
        declarationsBehind directive (offset + entry.text.byteLength) later)
        (entries cx directive isFirst taken).1 := by
  induction later generalizing isFirst entry offset taken with
  | nil =>
    rw [piecesBehind, List.flatMap_nil, List.append_nil] at matched
    have divided : Divided [] := by simp [Divided]
    obtain ⟨nodes, diagnostics, introduces, clean, entries_eq⟩ :=
      exists_entries entry binding divided matched
    rw [List.append_nil] at entries_eq
    rw [entries_eq, entries, List.append_nil, List.append_nil, declarationsBehind, List.append_nil]
    exact ⟨clean, introduces⟩
  | cons second later ih =>
    obtain ⟨head, pieces, pieces_eq⟩ := entry.exists_pieces
    rw [pieces_eq, Piece.tokens_append, ← pieces_eq, piecesBehind_cons] at matched
    obtain ⟨front, back, rfl, inside, behind⟩ := exists_append_of_forall₂ matched
    obtain ⟨semicolon, back, rfl, semicolon_eq, behind⟩ := Piece.exists_word behind
    have divided : Divided (semicolon :: back) := by
      rintro stop ⟨⟩
      exact semicolon_eq
    obtain ⟨nodes, diagnostics, introduces, clean, entries_eq⟩ :=
      exists_entries entry binding divided inside
    obtain ⟨clean', introduces'⟩ := ih second behind
    rw [entries_eq, entries_semicolon semicolon_eq]
    exact ⟨harmless_append.mpr ⟨clean, clean'⟩, introduces.append (.leaf semicolon introduces')⟩

/-- Parsing the printed value of a directive meets no error and gives back what the entries
of the value declare, in their order. -/
theorem parse_value_text (directive : Text) (offset : Nat) (value : Value) :
    Harmless (parse directive offset value.text).2 ∧
      Introduces (value.declarations directive offset) (parse directive offset value.text).1 := by
  cases value with
  | nothing =>
    have none : tokensAt offset (Value.text .nothing) = [] := by
      rw [tokensAt, Token.scan, Token.scanFrom_of_nil rfl]
      rfl
    rw [parse, none, entries]
    exact ⟨harmless_nil, .nil⟩
  | entries first later =>
    have matched := Piece.matched_tokensAt offset (first.pieces ++ piecesBehind later)
    rw [← joinWith_text] at matched
    exact introduces_entries first later rfl matched

/-- A variable, and behind it a key with an expression and an alias. -/
theorem parse_value_text_forOf : ∃ value : Value, ∃ items : List Node,
    value.text = "let item ; of list ( 0 ) as all".toList ∧
      value.declarations "ngFor".toList 8 =
        [.name "item".toList, .bound "ngForOf".toList items, .name "all".toList] ∧
      Harmless (parse "ngFor".toList 8 value.text).2 ∧
      Introduces (value.declarations "ngFor".toList 8) (parse "ngFor".toList 8 value.text).1 := by
  let item : Name := ⟨'i', "tem".toList, rfl, List.all_eq_true.mp rfl, rfl⟩
  let all : Name := ⟨'a', "ll".toList, rfl, List.all_eq_true.mp rfl, rfl⟩
  let key : Name := ⟨'o', ['f'], rfl, List.all_eq_true.mp rfl, rfl⟩
  let list : Embedded :=
    { text := "list ( 0 )".toList
      clean := by decide +kernel
      nonempty := by decide +kernel
      plain := by decide +kernel }
  have key_eq : "ngFor".toList ++ Text.capitalize key.text = "ngForOf".toList := by
    decide +kernel
  rw [← key_eq]
  exact ⟨.entries (.declared item none) [.keyed key false list (some all)], _, rfl, rfl,
    parse_value_text _ _ _⟩

end Directive

end Expression

end ComponentExtraction
