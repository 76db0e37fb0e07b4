import ExprLang.Expr.Basic

/-!
# The text of an expression

Canonical source text on one line, without locations. Parentheses appear only where the tree has a
group.
-/

namespace ExprLang

def UnaryOp.write (operand : String) : UnaryOp → String
  | plus => "+" ++ operand
  | minus => "-" ++ operand
  | not => "!" ++ operand
  | bitNot => "~" ++ operand
  | group => "( " ++ operand ++ " )"
  | startingAt => operand ++ ".."
  | endingAt => ".." ++ operand

/-- A range is written without spaces, every other operator with one on each side. -/
def BinaryOp.write (left right : String) : BinaryOp → String
  | range => left ++ ".." ++ right
  | op => left ++ " " ++ op.symbol ++ " " ++ right

mutual

def Expr.text : Expr → String
  | .literal _ v => v.text
  | .var _ name => name
  | .array _ items => "[ " ++ ", ".intercalate (exprTexts items) ++ " ]"
  | .map _ entries => "\x7b " ++ ", ".intercalate (entryTexts entries) ++ " \x7d"
  | .unary _ op a => op.write a.text
  | .binary _ op a b => op.write a.text b.text
  | .subscript _ a b => a.text ++ "[" ++ b.text ++ "]"
  | .switch _ cases => "\x7b\x7b " ++ ", ".intercalate (exprTexts cases) ++ " \x7d\x7d"

def exprTexts : List Expr → List String
  | [] => []
  | e :: es => e.text :: exprTexts es

def entryTexts : List (String × Expr) → List String
  | [] => []
  | (k, e) :: es => (Text.quote k ++ ": " ++ e.text) :: entryTexts es

end

end ExprLang
