import ExprLang.Expr.Operator
import ExprLang.Value.Convert

/-!
# Unary operators

What an operator makes of its operand. An undefined operand gives undefined.
-/

namespace ExprLang

namespace Value

def invalidOperand (v : Value) : Error := .evaluation none none (.invalidOperand v.kind)

/-- The number of a boolean, a number or a numeric string. -/
def signed? (v : Value) : Option Float := if v.kind ∈ [Kind.boolean, .number, .string] then v.number? else none

/-- A computed value, or the error of an operand that the operator does not take. -/
def orInvalidOperand (v : Value) : Option Value → Except Error Value
  | some w => .ok w
  | none => .error v.invalidOperand

end Value

def UnaryOp.apply (op : UnaryOp) (v : Value) : Except Error Value :=
  if v.isUndefined then .ok .undefined
  else match op with
    | plus => v.orInvalidOperand (v.signed?.map .number)
    | minus => v.orInvalidOperand (v.signed?.map fun x => .number (-x))
    | not =>
      match v.content with
      | .boolean b => .ok (.boolean !b)
      | _ => .error v.invalidOperand
    | bitNot =>
      if v.kind ∈ [Kind.number, .string] then
        v.orInvalidOperand (v.integer?.map fun i => .integer (Number.bitNot i))
      else .error v.invalidOperand
    | group => .ok v
    | startingAt => do return .range (.startingAt (← v.toInteger))
    | endingAt => do return .range (.endingAt (← v.toInteger))

end ExprLang
