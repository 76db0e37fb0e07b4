import ExprLang.Proofs.Parts

/-!
# Joining two trees

`Expr.Joins` says how an operator comes between two trees: it stays above both if it binds no tighter than either, or
else it goes into the near side of the looser one. There is no other way (`Expr.joins_join`): a tree that binds looser
than an operator is a binary operation, so it has a side to go into. By induction on the way down,

* `Joins.precedence`: the root is the loosest of the two roots and the operator;
* `Joins.ordered`: trees in which every operator binds no tighter than its operands give such a tree.

With `row_join`, which keeps the operands and signs in a row, this is what joining does to trees in order
(`Expr.join_ordered`).
-/

namespace ExprLang.Expr

/-! ## Trees in order -/

/-- The operator of a binary operation binds no tighter than its operands. -/
def Loosest : Expr → Prop
  | binary _ op a b => op.precedence ≤ a.precedence ∧ op.precedence ≤ b.precedence
  | _ => True

/-- Every operator in the tree binds no tighter than its operands. -/
def Ordered (e : Expr) : Prop := e.Each Loosest

theorem ordered_binary {l : Option Location} {op : BinaryOp} {a b : Expr} : (binary l op a b).Ordered ↔
    (op.precedence ≤ a.precedence ∧ op.precedence ≤ b.precedence) ∧ a.Ordered ∧ b.Ordered := each_binary

/-! ## The way down -/

/-- The operator comes between two trees: above both, or in the right operand of the left tree, or in the left operand
of the right one. -/
inductive Joins (l : Option Location) (op : BinaryOp) : Expr → Expr → Expr → Prop
  | above {a b : Expr} : op.precedence ≤ a.precedence → op.precedence ≤ b.precedence → Joins l op a b (binary l op a b)
  | intoLeft {here : Option Location} {root : BinaryOp} {a₁ a₂ b t : Expr} : root.precedence < op.precedence →
      root.precedence < b.precedence → Joins l op a₂ b t → Joins l op (binary here root a₁ a₂) b (binary here root a₁ t)
  | intoRight {here : Option Location} {root : BinaryOp} {a b₁ b₂ t : Expr} : root.precedence < op.precedence →
      root.precedence ≤ a.precedence → Joins l op a b₁ t → Joins l op a (binary here root b₁ b₂) (binary here root t b₂)

section

variable {l : Option Location} {op : BinaryOp} {a b t : Expr}

/-- Only a binary operation is looser than another expression or an operator. -/
theorem not_lt_of_not_binary (h : ∀ here root a₁ a₂, a ≠ binary here root a₁ a₂) : ¬ a.precedence < b.precedence := by
  have hmax : a.precedence = BinaryOp.maxPrecedence := by
    cases a with
    | binary here root a₁ a₂ => exact absurd rfl (h here root a₁ a₂)
    | _ => rfl
  have hle := b.precedence_le_max
  omega

/-- Joining goes down until the operator may stay. -/
theorem joins_join (l : Option Location) (op : BinaryOp) (a b : Expr) : Joins l op a b (a.join l op b) := by
  fun_induction join l op a b with
  | case1 a b h => exact .above (by omega) (by omega)
  | case2 b here root a₁ a₂ h hlt ih =>
    have hroot : (binary here root a₁ a₂).precedence = root.precedence := rfl
    exact .intoLeft (by omega) hlt ih
  | case3 a b h hlt hleaf => exact absurd hlt (not_lt_of_not_binary hleaf)
  | case4 a here root b₁ b₂ h hle ih =>
    have hroot : (binary here root b₁ b₂).precedence = root.precedence := rfl
    exact .intoRight (by omega) (by omega) ih
  | case5 a b h hle hleaf =>
    have htight := not_lt_of_not_binary (b := binary l op a b) hleaf
    have hroot : (binary l op a b).precedence = op.precedence := rfl
    omega

namespace Joins

theorem precedence (h : Joins l op a b t) : t.precedence = min op.precedence (min a.precedence b.precedence) := by
  cases h with
  | above ha hb =>
    show op.precedence = _
    omega
  | @intoLeft here root a₁ a₂ _ _ hop hb _ =>
    show root.precedence = min op.precedence (min root.precedence b.precedence)
    omega
  | @intoRight here root _ b₁ b₂ _ hop ha _ =>
    show root.precedence = min op.precedence (min a.precedence root.precedence)
    omega

theorem ordered (h : Joins l op a b t) (ha : a.Ordered) (hb : b.Ordered) : t.Ordered := by
  induction h with
  | above hla hlb => exact ordered_binary.2 ⟨⟨hla, hlb⟩, ha, hb⟩
  | intoLeft hop hroot hjoins ih =>
    obtain ⟨⟨h₁, h₂⟩, ha₁, ha₂⟩ := ordered_binary.1 ha
    have hprecedence := hjoins.precedence
    exact ordered_binary.2 ⟨⟨h₁, by omega⟩, ha₁, ih ha₂ hb⟩
  | intoRight hop hroot hjoins ih =>
    obtain ⟨⟨h₁, h₂⟩, hb₁, hb₂⟩ := ordered_binary.1 hb
    have hprecedence := hjoins.precedence
    exact ordered_binary.2 ⟨⟨by omega, h₂⟩, ih ha hb₁, hb₂⟩

/-- The operator stays above both trees only where it may. -/
theorem eq_binary_iff (h : Joins l op a b t) :
    t = binary l op a b ↔ op.precedence ≤ a.precedence ∧ op.precedence ≤ b.precedence := by
  constructor
  · rintro rfl
    have hprecedence : op.precedence = _ := h.precedence
    omega
  · rintro ⟨ha, hb⟩
    cases h with
    | above => rfl
    | @intoLeft here root a₁ a₂ _ _ hop _ _ => exact absurd ha (Nat.not_le.2 hop)
    | @intoRight here root _ b₁ b₂ _ hop _ _ => exact absurd hb (Nat.not_le.2 hop)

end Joins

end

/-- An operator that is joined to two trees finds its place on the way down, above both of them just if it binds no
tighter than either. Trees in order give a tree in order, as loose as the loosest of the trees and the operator, with
the operands and signs of the left tree, the operator at its place, and those of the right tree in a row. -/
theorem join_ordered (l : Option Location) (op : BinaryOp) (a b : Expr) :
    Joins l op a b (a.join l op b) ∧
      (a.join l op b = binary l op a b ↔ op.precedence ≤ a.precedence ∧ op.precedence ≤ b.precedence) ∧
      (a.Ordered → b.Ordered → (a.join l op b).Ordered ∧
        (a.join l op b).precedence = min op.precedence (min a.precedence b.precedence) ∧
        (a.join l op b).row = a.row ++ .sign op l :: b.row) := by
  have hjoins := joins_join l op a b
  exact ⟨hjoins, hjoins.eq_binary_iff, fun ha hb => ⟨hjoins.ordered ha hb, hjoins.precedence, row_join l op a b⟩⟩

/-- `x || y && z` and `u -> v`, with a product between them that goes down on both sides. -/
theorem join_ordered_product :
    let a : Expr := binary (some ⟨1, 3⟩) .or (var none "x") (binary (some ⟨1, 8⟩) .and (var none "y") (var none "z"))
    let b : Expr := binary (some ⟨1, 17⟩) .guarded (var none "u") (var none "v")
    let t := a.join (some ⟨1, 13⟩) .multiply b
    a.Ordered ∧ b.Ordered ∧ t.Ordered ∧ t.precedence = 1 ∧ t.row = a.row ++ .sign .multiply (some ⟨1, 13⟩) :: b.row := by
  intro a b t
  have ha : a.Ordered := by
    refine ordered_binary.2 ⟨by decide, each_var.2 trivial, ?_⟩
    exact ordered_binary.2 ⟨by decide, each_var.2 trivial, each_var.2 trivial⟩
  have hb : b.Ordered := ordered_binary.2 ⟨by decide, each_var.2 trivial, each_var.2 trivial⟩
  obtain ⟨-, -, hordered⟩ := join_ordered (some ⟨1, 13⟩) .multiply a b
  obtain ⟨ht, hprecedence, hrow⟩ := hordered ha hb
  exact ⟨ha, hb, ht, hprecedence, hrow⟩

end ExprLang.Expr
