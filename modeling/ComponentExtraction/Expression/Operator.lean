import ComponentExtraction.Expression.Lexeme

/-!
# Operators of expressions and how tightly they bind

A binary operator has a level; a higher level binds tighter. Assignments have
level 0, the conditional level 1, and the left-associative operators the levels
2 to 8. Exponentiation, which associates to the right, has level 9.
-/

namespace ComponentExtraction

namespace Expression

inductive BinaryOperator where
  | assign
  | plusAssign
  | minusAssign
  | timesAssign
  | divideAssign
  | remainderAssign
  | andAssign
  | orAssign
  | coalesceAssign
  | or
  | and
  | coalesce
  | equal
  | unequal
  | strictEqual
  | strictUnequal
  | less
  | greater
  | lessEqual
  | greaterEqual
  | within
  | plus
  | minus
  | times
  | divide
  | remainder
  | power
deriving DecidableEq, Repr

namespace BinaryOperator

def all : List BinaryOperator :=
  [assign, plusAssign, minusAssign, timesAssign, divideAssign, remainderAssign, andAssign,
   orAssign, coalesceAssign, or, and, coalesce, equal, unequal, strictEqual, strictUnequal,
   less, greater, lessEqual, greaterEqual, within, plus, minus, times, divide, remainder, power]

def lexeme : BinaryOperator → Lexeme
  | assign => .operator .assign
  | plusAssign => .operator .plusAssign
  | minusAssign => .operator .minusAssign
  | timesAssign => .operator .timesAssign
  | divideAssign => .operator .divideAssign
  | remainderAssign => .operator .remainderAssign
  | andAssign => .operator .andAssign
  | orAssign => .operator .orAssign
  | coalesceAssign => .operator .coalesceAssign
  | or => .operator .or
  | and => .operator .and
  | coalesce => .operator .coalesce
  | equal => .operator .equal
  | unequal => .operator .unequal
  | strictEqual => .operator .strictEqual
  | strictUnequal => .operator .strictUnequal
  | less => .operator .less
  | greater => .operator .greater
  | lessEqual => .operator .lessEqual
  | greaterEqual => .operator .greaterEqual
  | within => .keyword .in_
  | plus => .operator .plus
  | minus => .operator .minus
  | times => .operator .times
  | divide => .operator .divide
  | remainder => .operator .remainder
  | power => .operator .power

/-- The level of the operator; a higher one binds tighter. Level 1 is left
to conditionals and level 10 to the operators in front of an operand. -/
def level : BinaryOperator → Nat
  | assign | plusAssign | minusAssign | timesAssign | divideAssign | remainderAssign
  | andAssign | orAssign | coalesceAssign => 0
  | or => 2
  | and => 3
  | coalesce => 4
  | equal | unequal | strictEqual | strictUnequal => 5
  | less | greater | lessEqual | greaterEqual | within => 6
  | plus | minus => 7
  | times | divide | remainder => 8
  | power => 9

def ofLexeme? (level : Nat) (lexeme : Lexeme) : Option BinaryOperator :=
  all.find? fun operator => operator.lexeme = lexeme ∧ operator.level = level

end BinaryOperator

inductive PrefixOperator where
  | not
  | minus
  | plus
  | typeof
  | void
deriving DecidableEq, Repr

namespace PrefixOperator

def all : List PrefixOperator :=
  [not, minus, plus, typeof, void]

def lexeme : PrefixOperator → Lexeme
  | not => .operator .not
  | minus => .operator .minus
  | plus => .operator .plus
  | typeof => .keyword .typeof_
  | void => .keyword .void_

def ofLexeme? (lexeme : Lexeme) : Option PrefixOperator :=
  all.find? fun operator => operator.lexeme = lexeme

end PrefixOperator

end Expression

end ComponentExtraction
