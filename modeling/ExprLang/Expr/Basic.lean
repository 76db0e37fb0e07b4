import ExprLang.Expr.Operator
import ExprLang.Location
import ExprLang.Value.Compare

/-!
# Expressions

An expression is a tree whose nodes may know where they stand in a source. Equality ignores
locations and the order of map entries. The values in an expression become objects by `Expr.stamp`,
as values do.
-/

namespace ExprLang

inductive Expr where
  | literal (location : Option Location) (value : Value)
  | var (location : Option Location) (name : String)
  | array (location : Option Location) (items : List Expr)
  | map (location : Option Location) (entries : List (String × Expr))
  | unary (location : Option Location) (op : UnaryOp) (operand : Expr)
  | binary (location : Option Location) (op : BinaryOp) (left right : Expr)
  | subscript (location : Option Location) (base index : Expr)
  | switch (location : Option Location) (cases : List Expr)

namespace Expr

instance : Inhabited Expr := ⟨literal none Value.undefined⟩

def location : Expr → Option Location
  | literal l _ | var l _ | array l _ | map l _ | unary l _ _ | binary l _ _ _ | subscript l _ _ | switch l _ => l

def precedence : Expr → Nat
  | binary _ op _ _ => op.precedence
  | _ => BinaryOp.maxPrecedence

def value? : Expr → Option Value
  | literal _ v => some v
  | _ => none

def isLiteral (e : Expr) : Bool := e.value?.isSome

end Expr

/-! ## Equality -/

mutual

def Expr.equals : Expr → Expr → Bool
  | .literal _ v, .literal _ w => v == w
  | .var _ m, .var _ n => m == n
  | .array _ l, .array _ r => equalExprs l r
  | .map _ l, .map _ r => l.length == r.length && equalExprEntries l r
  | .unary _ o a, .unary _ p b => o == p && a.equals b
  | .binary _ o a b, .binary _ p c d => o == p && a.equals c && b.equals d
  | .subscript _ a b, .subscript _ c d => a.equals c && b.equals d
  | .switch _ l, .switch _ r => equalExprs l r
  | _, _ => false

def equalExprs : List Expr → List Expr → Bool
  | [], [] => true
  | e :: es, f :: fs => e.equals f && equalExprs es fs
  | _, _ => false

def equalExprEntries : List (String × Expr) → List (String × Expr) → Bool
  | [], _ => true
  | (k, e) :: es, fs =>
    (match Entries.find? fs k with
      | some f => e.equals f
      | none => false) && equalExprEntries es fs

end

instance : BEq Expr := ⟨Expr.equals⟩

/-! ## Parts -/

mutual

/-- The expression and its parts, each before its own parts and from left to right. -/
def Expr.nodes : Expr → List Expr
  | .literal l v => [.literal l v]
  | .var l n => [.var l n]
  | .array l items => .array l items :: nodesOf items
  | .map l entries => .map l entries :: nodesOfEntries entries
  | .unary l op a => .unary l op a :: a.nodes
  | .binary l op a b => .binary l op a b :: (a.nodes ++ b.nodes)
  | .subscript l a b => .subscript l a b :: (a.nodes ++ b.nodes)
  | .switch l cases => .switch l cases :: nodesOf cases

def nodesOf : List Expr → List Expr
  | [] => []
  | e :: es => e.nodes ++ nodesOf es

def nodesOfEntries : List (String × Expr) → List Expr
  | [] => []
  | (_, e) :: es => e.nodes ++ nodesOfEntries es

end

/-! ## Objects -/

mutual

def Expr.stamp : Expr → Supply Expr
  | .literal l v => do return .literal l (← v.stamp)
  | .var l n => pure (.var l n)
  | .array l items => do return .array l (← stampExprs items)
  | .map l entries => do return .map l (← stampExprEntries entries)
  | .unary l op a => do return .unary l op (← a.stamp)
  | .binary l op a b => do return .binary l op (← a.stamp) (← b.stamp)
  | .subscript l a b => do return .subscript l (← a.stamp) (← b.stamp)
  | .switch l cases => do return .switch l (← stampExprs cases)

def stampExprs : List Expr → Supply (List Expr)
  | [] => pure []
  | e :: es => do return (← e.stamp) :: (← stampExprs es)

def stampExprEntries : List (String × Expr) → Supply (List (String × Expr))
  | [] => pure []
  | (k, e) :: es => do return (k, ← e.stamp) :: (← stampExprEntries es)

end

mutual

/-- The least number above every mark in an expression. -/
def Expr.nextMark : Expr → Nat
  | .literal _ v => v.nextMark
  | .var _ _ => 0
  | .array _ items => nextMarkExprs items
  | .map _ entries => nextMarkExprEntries entries
  | .unary _ _ a => a.nextMark
  | .binary _ _ a b => max a.nextMark b.nextMark
  | .subscript _ a b => max a.nextMark b.nextMark
  | .switch _ cases => nextMarkExprs cases

def nextMarkExprs : List Expr → Nat
  | [] => 0
  | e :: es => max e.nextMark (nextMarkExprs es)

def nextMarkExprEntries : List (String × Expr) → Nat
  | [] => 0
  | (_, e) :: es => max e.nextMark (nextMarkExprEntries es)

end

end ExprLang
