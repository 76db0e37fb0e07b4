import ExprLang.Evaluation

/-!
# Constant folding

A node whose operands are literals takes its step once and for all, if that succeeds; a node whose
step fails is kept, so that it fails where it did. An operand that the step does not demand need not
be a literal. Variables are never read. A folded node is a literal at its own location and its value
a new object, except where the step hands on an object that is there.
-/

namespace ExprLang

namespace Expr

/-- A literal for the result of a step, or else the node itself. -/
def ofStep (node : Expr) : Except Error Value → Supply Expr
  | .ok v => do return .literal node.location (← v.stamp)
  | .error _ => return node

/-! ## Nodes whose operands are folded -/

def values? (es : List Expr) : Option (List Value) := es.mapM value?

def closeArray (location : Option Location) (items : List Expr) : Supply Expr :=
  match values? items with
  | some vs => ofStep (.array location items) do return .array (← vs.mapM Value.splice).flatten
  | none => return .array location items

def closeMap (location : Option Location) (entries : List (String × Expr)) : Supply Expr :=
  match entries.mapM fun (k, e) => e.value?.map (k, ·) with
  | some vs => ofStep (.map location entries) (.ok (.map vs))
  | none => return .map location entries

def closeUnary (location : Option Location) (op : UnaryOp) (a : Expr) : Supply Expr :=
  match a.value? with
  | some v => ofStep (.unary location op a) (op.apply v)
  | none => return .unary location op a

def closeBinary (location : Option Location) (op : BinaryOp) (a b : Expr) : Supply Expr :=
  match a.value?.map (BinaryOp.afterLeft · op), b.value? with
  | some (.done r), _ => ofStep (.binary location op a b) r
  | some (.right finish), some w => ofStep (.binary location op a b) (finish w)
  | _, _ => return .binary location op a b

def closeSubscript (location : Option Location) (a b : Expr) : Supply Expr :=
  match a.value?, b.value? with
  | some v, some w => ofStep (.subscript location a b) (v.subscript (fun _ => none) w)
  | _, _ => return .subscript location a b

/-- A case that is sure to be passed over. -/
def isUndefinedLiteral (e : Expr) : Bool := e.value?.any Value.isUndefined

/-- A switch begins at its first case that may count; if that case is a literal, nothing else is left
of the switch. -/
def closeSwitch (location : Option Location) (cases : List Expr) : Supply Expr :=
  match cases.dropWhile isUndefinedLiteral with
  | [] => do return .literal location (← Value.undefined.stamp)
  | .literal _ v :: _ => return .literal location v
  | rest => return .switch location rest

/-- A folded item of an array: a bounded range becomes one literal for each of its integers. -/
def spliceItem (e : Expr) : Supply (List Expr) :=
  match e.value? with
  | some v =>
    match if v.kind = .range then v.items? else none with
    | some ns => ns.mapM fun n => do return .literal e.location (← n.stamp)
    | none => return [e]
  | none => return [e]

end Expr

/-! ## Folding -/

open ExprLang.Expr in
mutual

def Expr.fold : Expr → Supply Expr
  | .literal l v => return .literal l v
  | .var l name => return .var l name
  | .array l items => do closeArray l (← foldItems items)
  | .map l entries => do closeMap l (← foldEntries entries)
  | .unary l op a => do closeUnary l op (← a.fold)
  | .binary l op a b => do closeBinary l op (← a.fold) (← b.fold)
  | .subscript l a b => do closeSubscript l (← a.fold) (← b.fold)
  | .switch l cases => do closeSwitch l (← foldCases cases)

def foldItems : List Expr → Supply (List Expr)
  | [] => return []
  | e :: es => do
    let items ← spliceItem (← e.fold)
    return items ++ (← foldItems es)

def foldEntries : List (String × Expr) → Supply (List (String × Expr))
  | [] => return []
  | (k, e) :: es => do return (k, ← e.fold) :: (← foldEntries es)

def foldCases : List Expr → Supply (List Expr)
  | [] => return []
  | e :: es => do return (← e.fold) :: (← foldCases es)

end

/-- Folds an expression; new objects get marks that the expression does not use. -/
def Expr.optimize (e : Expr) : Expr := (e.fold e.nextMark).1

end ExprLang
