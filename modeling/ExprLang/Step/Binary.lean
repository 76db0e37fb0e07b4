import ExprLang.Expr.Operator
import ExprLang.Number.Remainder
import ExprLang.Value.Compare

/-!
# Binary operators

What an operator makes of its operands. It first sees the left one, and then either has its result
or demands the right one: `&&`, `||` and `->` may do without it. Undefined operands give undefined,
except in comparisons, which order them.
-/

namespace ExprLang

/-- What an operator does after its left operand. -/
inductive Demand where
  | done (result : Except Error Value)
  | right (finish : Value → Except Error Value)

namespace Value

def invalidOperands (l r : Value) : Error := .evaluation none none (.invalidOperands l.kind r.kind)

def orInvalidOperands (l r : Value) : Option Value → Except Error Value
  | some v => .ok v
  | none => .error (l.invalidOperands r)

/-! ## Arithmetic -/

def isNumeric (v : Value) : Bool := v.kind == .boolean || v.kind == .number

/-- Both operands as numbers: two booleans or numbers, or one of them with a numeric string. -/
def numbers? (l r : Value) : Option (Float × Float) :=
  if l.isNumeric && (r.isNumeric || r.kind == .string) || l.kind == .string && r.isNumeric then do
    return (← l.number?, ← r.number?)
  else none

def arithmetic (f : Float → Float → Float) (l r : Value) : Except Error Value :=
  if l.isUndefined || r.isUndefined then .ok undefined
  else l.orInvalidOperands r ((l.numbers? r).map fun (x, y) => number (f x y))

/-- Two strings, arrays or maps put together; under a shared key the right map wins. -/
def concatenation? (l r : Value) : Option Value :=
  match l.content, r.content with
  | .string s, .string t => some (string (s ++ t))
  | .array vs, .array ws => some (array (vs ++ ws))
  | .map es, .map fs => some (map (Entries.union es fs))
  | _, _ => none

def add (l r : Value) : Except Error Value :=
  if l.isUndefined || r.isUndefined then .ok undefined
  else l.orInvalidOperands r (((l.numbers? r).map fun (x, y) => number (x + y)).or (l.concatenation? r))

def bitwise (f : Int → Int → Int) (l r : Value) : Except Error Value :=
  if l.isUndefined || r.isUndefined then .ok undefined
  else l.orInvalidOperands r do return integer (f (← l.integer?) (← r.integer?))

/-! ## Comparison and ranges -/

def comparison (test : Ordering → Bool) (l r : Value) : Except Error Value := (boolean ∘ test) <$> l.compare r

def rangeTo (l r : Value) : Except Error Value :=
  if l.isUndefined || r.isUndefined then .ok undefined
  else do return range (.between (← l.toInteger) (← r.toInteger))

/-! ## Operators that may not need their right operand -/

def isLogical (v : Value) : Bool := v.kind == .boolean || v.kind == .null

/-- Conjunction, decided by `false`, and disjunction, decided by `true`. -/
def logical (decisive : Bool) (l : Value) : Demand :=
  if l.isUndefined then .done (.ok undefined)
  else if l.isLogical && l.boolean? == some decisive then .done (.ok (boolean decisive))
  else .right fun r =>
    match r.isLogical && l.isLogical, r.boolean? with
    | true, some b => .ok (boolean b)
    | _, _ => if r.isUndefined then .ok undefined else .error (l.invalidOperands r)

/-- The right operand itself, if the condition holds. -/
def guarded (condition : Value) : Demand :=
  if condition.isUndefined then .done (.ok undefined)
  else match condition.toBoolean with
    | .ok true => .right .ok
    | .ok false => .done (.ok undefined)
    | .error e => .done (.error e)

end Value

namespace BinaryOp

def afterLeft (l : Value) : BinaryOp → Demand
  | add => .right l.add
  | subtract => .right (l.arithmetic fun x y => x - y)
  | multiply => .right (l.arithmetic fun x y => x * y)
  | divide => .right (l.arithmetic fun x y => x / y)
  | modulo => .right (l.arithmetic Number.remainder)
  | and => l.logical false
  | or => l.logical true
  | bitAnd => .right (l.bitwise Number.bitAnd)
  | bitXor => .right (l.bitwise Number.bitXor)
  | bitOr => .right (l.bitwise Number.bitOr)
  | shiftLeft => .right (l.bitwise Number.shiftLeft)
  | shiftRight => .right (l.bitwise Number.shiftRight)
  | less => .right (l.comparison Ordering.isLT)
  | lessOrEqual => .right (l.comparison Ordering.isLE)
  | greater => .right (l.comparison Ordering.isGT)
  | greaterOrEqual => .right (l.comparison Ordering.isGE)
  | equal => .right (l.comparison Ordering.isEq)
  | notEqual => .right (l.comparison Ordering.isNe)
  | range => .right l.rangeTo
  | guarded => l.guarded

end BinaryOp

end ExprLang
