/-!
# Operators

Signs and precedences. Binary operators have twelve levels; everything that is not a binary
operation binds tighter than all of them.
-/

namespace ExprLang

inductive UnaryOp where
  | plus | minus | not | bitNot
  /-- Parentheses, kept so that errors can point at them. -/
  | group
  /-- `a..` in a subscript. -/
  | startingAt
  /-- `..b` in a subscript. -/
  | endingAt
deriving DecidableEq

inductive BinaryOp where
  | add | subtract | multiply | divide | modulo
  | and | or
  | bitAnd | bitXor | bitOr | shiftLeft | shiftRight
  | less | lessOrEqual | greater | greaterOrEqual | equal | notEqual
  | range
  /-- `c -> a`: the right operand if the left one holds, else undefined. -/
  | guarded
deriving DecidableEq

namespace BinaryOp

def precedence : BinaryOp → Nat
  | multiply | divide | modulo => 12
  | add | subtract => 11
  | shiftLeft | shiftRight => 10
  | less | lessOrEqual | greater | greaterOrEqual => 9
  | equal | notEqual => 8
  | bitAnd => 7
  | bitXor => 6
  | bitOr => 5
  | and => 4
  | or => 3
  | range => 2
  | guarded => 1

/-- The precedence of an expression that is not a binary operation. -/
def maxPrecedence : Nat := 13

theorem precedence_lt (op : BinaryOp) : op.precedence < maxPrecedence := by cases op <;> decide

def symbol : BinaryOp → String
  | add => "+"
  | subtract => "-"
  | multiply => "*"
  | divide => "/"
  | modulo => "%"
  | and => "&&"
  | or => "||"
  | bitAnd => "&"
  | bitXor => "^"
  | bitOr => "|"
  | shiftLeft => "<<"
  | shiftRight => ">>"
  | less => "<"
  | lessOrEqual => "<="
  | greater => ">"
  | greaterOrEqual => ">="
  | equal => "=="
  | notEqual => "!="
  | range => ".."
  | guarded => "->"

end BinaryOp

end ExprLang
