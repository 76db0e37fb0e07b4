import ExprLang.Proofs.Printing.Source

/-!
# Texts of subscripts by ranges

Ranges between integer literals, bounded or open at one end, are the entries of subscripts (`RangeLiteral.spells`).
A list of them is read as one subscript (`RangeLiteral.spells_list`), and operands with plus signs between them are
added from left to right (`Spells.sum`), so a sum of subscripts is read as one (`RangeLiteral.spells_sum`).
-/

namespace ExprLang

/-- Operands with plus signs between them. -/
theorem Spells.sum {a : String} {r : Expr} {parts : List String} {rs : List Expr} (ha : Spells a.toList r)
    (hr : BinaryOp.add.precedence ≤ r.precedence)
    (h : List.Forall₂ (fun p q => Spells p.toList q ∧ BinaryOp.add.precedence < q.precedence) parts rs) :
    Spells (" + ".intercalate (a :: parts)).toList (rs.foldl (.binary none .add) r) := by
  induction h generalizing a r with
  | nil => rwa [String.intercalate_singleton]
  | @cons p q parts rs hp _ ih =>
    have htext : " + ".intercalate (a :: p :: parts) = " + ".intercalate (BinaryOp.add.write a p :: parts) := by
      simp [BinaryOp.write, BinaryOp.symbol, String.append_assoc]
    rw [List.foldl_cons, htext]
    exact ih (ha.binary hp.1 hr hp.2) (Nat.le_refl _)

/-! ## Ranges between integer literals -/

/-- Digits, maybe behind a minus. -/
structure IntegerLiteral where
  sign : Float.Model.UnpackedFloat.Sign
  digits : List Char
  isDigits : Numeral.IsDigits digits

/-- The shortest literal of an integer. -/
def IntegerLiteral.ofInt (i : Int) : IntegerLiteral :=
  ⟨if i < 0 then .negative else .positive, Nat.toDigits 10 i.natAbs, Number.isDigits_toDigits _⟩

def IntegerLiteral.text (n : IntegerLiteral) : String := Number.signText n.sign ++ String.ofList n.digits

/-- What the text of the literal is read as. -/
def IntegerLiteral.node (n : IntegerLiteral) : Expr := Number.sourceOf n.text.toList

/-- A range as it is written in a subscript. -/
inductive RangeLiteral where
  | between (first last : IntegerLiteral)
  | startingAt (first : IntegerLiteral)
  | endingAt (last : IntegerLiteral)

namespace RangeLiteral

def isOpen : RangeLiteral → Bool
  | between _ _ => false
  | _ => true

def text : RangeLiteral → String
  | between first last => BinaryOp.range.write first.text last.text
  | startingAt first => UnaryOp.startingAt.write first.text
  | endingAt last => UnaryOp.endingAt.write last.text

def node : RangeLiteral → Expr
  | between first last => .binary none .range first.node last.node
  | startingAt first => .unary none .startingAt first.node
  | endingAt last => .unary none .endingAt last.node

end RangeLiteral

theorem IntegerLiteral.isPlainNumeral (n : IntegerLiteral) : Number.IsPlainNumeral n.digits :=
  ⟨n.digits, [], n.isDigits, .inl rfl, (List.append_nil _).symm⟩

theorem IntegerLiteral.spells (n : IntegerLiteral) : Spells n.text.toList n.node := by
  simpa [node, text] using Number.spells_sourceOf (.inl n.isPlainNumeral) n.sign

theorem IntegerLiteral.precedence_node (n : IntegerLiteral) : n.node.precedence = BinaryOp.maxPrecedence :=
  Expr.precedence_of_not_binary (Number.isBinary_sourceOf _).1

namespace RangeLiteral

theorem spells (r : RangeLiteral) : SpellsIndex r.text.toList r.node := by
  cases r with
  | between first last =>
    exact Spells.index (first.spells.binary last.spells (by rw [first.precedence_node]; decide)
      (by rw [last.precedence_node]; decide))
  | startingAt first => exact first.spells.startingAt
  | endingAt last => exact last.spells.endingAt

/-! ## Lists and sums -/

/-- A variable with one range as its subscript. -/
def single (name : String) (r : RangeLiteral) : String := name ++ "[" ++ r.text ++ "]"

/-- A variable with ranges as the entries of its subscript. -/
def list (name : String) (rs : List RangeLiteral) : String := name ++ "[" ++ ", ".intercalate (rs.map text) ++ "]"

/-- The sum of the subscripts by one range each. -/
def sum (name : String) (rs : List RangeLiteral) : String := " + ".intercalate (rs.map (single name))

def singleNode (name : String) (r : RangeLiteral) : Expr := .subscript none (.var none name) r.node

def listNode (name : String) (rs : List RangeLiteral) : Expr :=
  .subscript none (.var none name) (.ofIndices none (rs.map node))

theorem listNode_eq (name : String) {rs : List RangeLiteral} (h : 2 ≤ rs.length) :
    listNode name rs = .subscript none (.var none name) (.array none (rs.map node)) := by
  match rs, h with
  | _ :: _ :: _, _ => rfl

variable {name : String} (hname : Spells name.toList (.var none name))

include hname

theorem spells_single (r : RangeLiteral) : Spells (single name r).toList (singleNode name r) :=
  hname.subscript r.spells rfl rfl

theorem spells_list (rs : List RangeLiteral) : Spells (list name rs).toList (listNode name rs) :=
  hname.subscripts (List.forall₂_map_left_iff.2 (List.forall₂_map_right_iff.2 (List.forall₂_same.2 fun r _ => r.spells)))
    rfl rfl

theorem spells_sum (r : RangeLiteral) (rs : List RangeLiteral) : Spells (sum name (r :: rs)).toList
    ((rs.map (singleNode name)).foldl (.binary none .add) (singleNode name r)) :=
  (spells_single hname r).sum (Nat.le_of_lt BinaryOp.add.precedence_lt) (List.forall₂_map_left_iff.2 (List.forall₂_map_right_iff.2
    (List.forall₂_same.2 fun r _ => ⟨spells_single hname r, BinaryOp.add.precedence_lt⟩)))

end RangeLiteral

end ExprLang
