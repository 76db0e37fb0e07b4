import ExprLang.Expr.Basic

/-!
# Joining two expressions by an operator

A reader meets operators from left to right and joins what it has with the next operand. `Expr.join`
puts the operator where its precedence belongs: as long as it binds tighter than one of the two
expressions, it moves into the near side of that one, the looser of the two, and of two equally
loose ones the right one. Every operator keeps its own location.
-/

namespace ExprLang.Expr

/-- How many operators can be passed on the way down. -/
def joints : Expr → Nat
  | binary _ _ a b => a.joints + b.joints + 1
  | _ => 0

def join (location : Option Location) (op : BinaryOp) (l r : Expr) : Expr :=
  if op.precedence ≤ min l.precedence r.precedence then binary location op l r
  else if l.precedence < r.precedence then
    match l with
    | binary here above a b => binary here above a (join location op b r)
    | _ => binary location op l r
  else
    match r with
    | binary here above a b => binary here above (join location op l a) b
    | _ => binary location op l r
termination_by l.joints + r.joints
decreasing_by all_goals simp only [joints]; omega

end ExprLang.Expr
