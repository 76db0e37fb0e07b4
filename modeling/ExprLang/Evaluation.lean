import ExprLang.Context
import ExprLang.Expr.Text
import ExprLang.Step.Binary
import ExprLang.Step.Subscript
import ExprLang.Step.Unary

/-!
# Evaluation

The operands of a node are evaluated from left to right and as far as they are needed, then the node
takes its own step. What comes out becomes an object and is recorded at the node; an error is
attributed to the node. Lenient evaluation puts undefined in the place of every expression whose
step fails, strict evaluation ends with the error. In both cases the context is kept.
-/

namespace ExprLang

inductive Mode where
  | strict | lenient
deriving DecidableEq

/-! ## What every node does with its outcome -/

/-- Attributes an error to an expression. -/
def Expr.blame (e : Expr) (err : Error) : Error :=
  if err.awaitsExpression then err.inExpression e.text e.location else err.orLocation e.location

theorem Expr.blame_eq (e : Expr) (err : Error) : e.blame err = err.inExpression e.text e.location := by
  unfold blame
  split
  · rfl
  · next h => rw [Error.inExpression_of_not_awaits (by simpa using h)]

/-- The value as an object that is produced by an expression. -/
def Context.produce (e : Expr) (v : Value) (c : Context) : Value × Context :=
  let (v, c) := c.object v
  (v, c.record v e.location)

/-- Completes the outcome of the step of an expression. -/
def Evaluation.settle (mode : Mode) (e : Expr) (step : Evaluation Value) : Evaluation Value := fun c =>
  match step c with
  | (.ok v, c) =>
    let (v, c) := c.produce e v
    (.ok v, c)
  | (.error err, c) =>
    let err := e.blame err
    if mode = .lenient ∧ err.isEvaluation then
      let (v, c) := c.object .undefined
      (.ok v, c)
    else (.error err, c)

/-- A result that does not depend on the context. -/
def Evaluation.result {α : Type} (r : Except Error α) : Evaluation α := fun c => (r, c)

/-- What an item contributes to an array: a range its integers, anything else itself. -/
def Value.splice (v : Value) : Except Error (List Value) := if v.kind = .range then v.toItems else .ok [v]

/-! ## Nodes -/

open Evaluation (result settle)

mutual

def Expr.run (mode : Mode) : Expr → Evaluation Value
  | .literal l v => settle mode (.literal l v) (result (.ok v))
  | .var l name => settle mode (.var l name) fun c => (.ok (c.lookup name), c)
  | .array l items => settle mode (.array l items) do return .array (← runItems mode items)
  | .map l entries => settle mode (.map l entries) do return .map (← runEntries mode entries)
  | .unary l op a => settle mode (.unary l op a) do result (op.apply (← a.run mode))
  | .binary l op a b => settle mode (.binary l op a b) do
    match op.afterLeft (← a.run mode) with
    | .done r => result r
    | .right finish => result (finish (← b.run mode))
  | .subscript l a b => settle mode (.subscript l a b) do
    let base ← a.run mode
    let index ← b.run mode
    fun c => (base.subscript c.origin index, c)
  | .switch l cases => settle mode (.switch l cases) (runCases mode cases)

/-- The items of an array, ranges spliced in. -/
def runItems (mode : Mode) : List Expr → Evaluation (List Value)
  | [] => pure []
  | e :: es => do
    let vs ← result (← e.run mode).splice
    return vs ++ (← runItems mode es)

def runEntries (mode : Mode) : List (String × Expr) → Evaluation (Entries Value)
  | [] => pure []
  | (k, e) :: es => do return (k, ← e.run mode) :: (← runEntries mode es)

/-- The first case that is not undefined. -/
def runCases (mode : Mode) : List Expr → Evaluation Value
  | [] => pure .undefined
  | e :: es => do
    let v ← e.run mode
    if v.isUndefined then runCases mode es else return v

end

namespace Expr

def evaluate (e : Expr) (c : Context) : Except Error Value × Context := e.run .strict c

/-- Evaluates with undefined in the place of whatever fails. -/
def tryEvaluate (e : Expr) (c : Context) : Value × Context :=
  match e.run .lenient c with
  | (.ok v, c) => (v, c)
  | (.error _, c) => c.object .undefined

end Expr

end ExprLang
