import ComponentExtraction.Text.Basic

/-!
# Lexemes of template expressions

The words, symbols and literals that expressions are made of. A lexeme that no
rule accepts is kept as an error, so that reading a text never fails.
-/

namespace ComponentExtraction

namespace Expression

inductive Keyword where
  | var_
  | let_
  | as_
  | null_
  | undefined_
  | true_
  | false_
  | if_
  | else_
  | this_
  | typeof_
  | void_
  | in_
deriving DecidableEq, Repr

namespace Keyword

def all : List Keyword :=
  [var_, let_, as_, null_, undefined_, true_, false_, if_, else_, this_, typeof_, void_, in_]

def word : Keyword → Text
  | var_ => "var".toList
  | let_ => "let".toList
  | as_ => "as".toList
  | null_ => "null".toList
  | undefined_ => "undefined".toList
  | true_ => "true".toList
  | false_ => "false".toList
  | if_ => "if".toList
  | else_ => "else".toList
  | this_ => "this".toList
  | typeof_ => "typeof".toList
  | void_ => "void".toList
  | in_ => "in".toList

def ofWord? (text : Text) : Option Keyword :=
  all.find? fun keyword => keyword.word = text

def isLiteral : Keyword → Bool
  | null_ | undefined_ | true_ | false_ => true
  | _ => false

end Keyword

/-- Operator symbols, whether or not an expression has a use for them. -/
inductive Operator where
  | strictEqual
  | strictUnequal
  | spread
  | andAssign
  | orAssign
  | coalesceAssign
  | equal
  | unequal
  | lessEqual
  | greaterEqual
  | and
  | or
  | coalesce
  | safeAccess
  | plusAssign
  | minusAssign
  | timesAssign
  | divideAssign
  | remainderAssign
  | power
  | arrow
  | plus
  | minus
  | times
  | divide
  | remainder
  | less
  | greater
  | not
  | assign
  | question
  | pipe
  | ampersand
deriving DecidableEq, Repr

namespace Operator

/-- Every operator, longer symbols first: the first symbol that a text begins
with is then the longest one. -/
def all : List Operator :=
  [strictEqual, strictUnequal, spread, andAssign, orAssign, coalesceAssign,
   equal, unequal, lessEqual, greaterEqual, and, or, coalesce, safeAccess,
   plusAssign, minusAssign, timesAssign, divideAssign, remainderAssign, power, arrow,
   plus, minus, times, divide, remainder, less, greater, not, assign, question, pipe, ampersand]

def symbol : Operator → Text
  | strictEqual => "===".toList
  | strictUnequal => "!==".toList
  | spread => "...".toList
  | andAssign => "&&=".toList
  | orAssign => "||=".toList
  | coalesceAssign => "??=".toList
  | equal => "==".toList
  | unequal => "!=".toList
  | lessEqual => "<=".toList
  | greaterEqual => ">=".toList
  | and => "&&".toList
  | or => "||".toList
  | coalesce => "??".toList
  | safeAccess => "?.".toList
  | plusAssign => "+=".toList
  | minusAssign => "-=".toList
  | timesAssign => "*=".toList
  | divideAssign => "/=".toList
  | remainderAssign => "%=".toList
  | power => "**".toList
  | arrow => "=>".toList
  | plus => "+".toList
  | minus => "-".toList
  | times => "*".toList
  | divide => "/".toList
  | remainder => "%".toList
  | less => "<".toList
  | greater => ">".toList
  | not => "!".toList
  | assign => "=".toList
  | question => "?".toList
  | pipe => "|".toList
  | ampersand => "&".toList

end Operator

/-- Why some characters form no lexeme. The column is the byte offset in the
expression, which is quoted whole. -/
inductive LexicalError where
  | unexpectedCharacter (character : Char) (column : Nat) (expression : Text)
  | unterminatedQuote (column : Nat) (expression : Text)
deriving DecidableEq, Repr

namespace LexicalError

def message : LexicalError → Text
  | unexpectedCharacter character column expression =>
    "Lexer Error: Unexpected character [".toList ++ character :: "] at column ".toList
      ++ Text.ofNat column ++ " in expression [".toList ++ expression ++ "]".toList
  | unterminatedQuote column expression =>
    "Lexer Error: Unterminated quote at column ".toList ++ Text.ofNat column
      ++ " in expression [".toList ++ expression ++ "]".toList

end LexicalError

inductive Lexeme where
  | punctuation (character : Char)
  | identifier (name : Text)
  | keyword (word : Keyword)
  | string (value : Text)
  | operator (sign : Operator)
  | number (digits : Text)
  | error (cause : LexicalError)
deriving DecidableEq, Repr

namespace Lexeme

/-- The text that stands for a lexeme: its spelling, but for a string its value
and for an error its message. -/
def text : Lexeme → Text
  | punctuation character => [character]
  | identifier name => name
  | keyword k => k.word
  | string value => value
  | operator o => o.symbol
  | number digits => digits
  | error e => e.message

/-- Strings, numbers and the keywords that denote a value. -/
def isLiteral : Lexeme → Bool
  | string _ | number _ => true
  | keyword k => k.isLiteral
  | _ => false

/-- The name a lexeme can serve as after a dot, a pipe or in a directive, where
keywords are allowed too. -/
def name? : Lexeme → Option Text
  | identifier name => some name
  | keyword k => some k.word
  | _ => none

def identifier? : Lexeme → Option Text
  | identifier name => some name
  | _ => none

end Lexeme

end Expression

end ComponentExtraction
