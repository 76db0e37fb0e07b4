import ExprLang.Proofs.ModelTrees
import ExprLang.Proofs.Printing.Shape
import ExprLang.Proofs.Rotation

/-!
# Folding keeps operators in order

A binary operation is graded if its operator binds no tighter than its left operand and looser than its right one. All
nodes that are read are graded, in expressions (`Expr.graded_of_read`) and in model lists (`ModelList.graded_of_read`).
What an expression is folded to binds at least as tightly as the expression, so all nodes of a folded tree are graded
again (`Expr.tolerant_graded`). Hence an operation can be put together from folded operands as it stands: joining them
by its operator would not move anything (`Expr.optimize_graded`).
-/

namespace ExprLang

namespace Expr

/-- The operator of a binary operation may be as loose as its left operand, and is looser than its right one. -/
def Graded : Expr → Prop
  | binary _ op a b => op.precedence ≤ a.precedence ∧ op.precedence < b.precedence
  | _ => True

variable {l : Option Location} {op : BinaryOp} {a b e : Expr}

theorem each_graded_binary : (binary l op a b).Each Graded ↔
    (op.precedence ≤ a.precedence ∧ op.precedence < b.precedence) ∧ a.Each Graded ∧ b.Each Graded := each_binary

/-- The operator of a graded operation is where joining puts it. -/
theorem Graded.join_eq (h : (binary l op a b).Graded) : a.join l op b = binary l op a b :=
  (joins_join l op a b).eq_binary_iff.2 ⟨h.1, Nat.le_of_lt h.2⟩

/-! ## Trees that are read -/

theorem Shaped.graded : ∀ {n : Expr}, n.Shaped → n.Graded
  | binary .., h => h.2
  | literal .., _ | var .., _ | array .., _ | map .., _ | unary .., _ | subscript .., _ | switch .., _ => trivial

theorem graded_of_read {mode : ParseMode} {c : Cursor} (h : (read mode c).1 = .ok e) : e.Each Graded := by
  have hreads : ∃ s', Reads (.expression e) (Tokens.read c) s' := by
    cases mode with
    | strict =>
      obtain ⟨s', _, hreads, _, _⟩ := read_strict_iff.1 h
      exact ⟨s', hreads⟩
    | lenient =>
      obtain ⟨s', hreads, -⟩ := read_lenient_iff.1 (Prod.ext h rfl : read .lenient c = (.ok e, (read .lenient c).2))
      exact ⟨s', hreads⟩
  obtain ⟨s', hreads⟩ := hreads
  obtain ⟨hformed, -⟩ : e.FormedWhole := hreads.formed (Tokens.wf_read c)
  exact fun n hn => (hformed n hn).1.graded

end Expr

namespace ModelList

/-- The arrow of an entry is looser than its condition, and the condition compares two operands that are no operations. -/
theorem IsEntry.graded {e : Expr} (h : IsEntry e) : e.Each Expr.Graded := by
  cases h with
  | model l v => exact Expr.each_literal.2 trivial
  | conditional l v hcondition =>
    obtain ⟨key, sign, name, w, rfl⟩ := hcondition
    have hequation : (Expr.binary sign .equal (.var key name) (.literal sign w)).Each Expr.Graded :=
      Expr.each_graded_binary.2 ⟨⟨Nat.le_of_lt BinaryOp.equal.precedence_lt, BinaryOp.equal.precedence_lt⟩,
        Expr.each_var.2 trivial, Expr.each_literal.2 trivial⟩
    have hlooser : BinaryOp.guarded.precedence ≤ BinaryOp.equal.precedence := by decide
    exact Expr.each_graded_binary.2
      ⟨⟨hlooser, BinaryOp.guarded.precedence_lt⟩, hequation, Expr.each_literal.2 trivial⟩
  | dynamic l hes =>
    refine Expr.each_map.2 ⟨trivial, fun f hf => ?_⟩
    obtain ⟨m, name, hvar⟩ := hes f hf
    rw [hvar]
    exact Expr.each_var.2 trivial

theorem graded_of_read {closing : List Token.Kind} {c : Cursor} {e : Expr} (h : (read closing c).1 = .ok e) :
    e.Each Expr.Graded := by
  obtain ⟨es, rfl, hes⟩ := read_entries h
  exact Expr.each_switch.2 ⟨trivial, fun f hf => (hes f hf).graded⟩

end ModelList

/-! ## Trees that are folded -/

namespace Expr

/-- An operation stays graded over operands that bind more tightly. -/
theorem tolerant_graded : Tolerant Graded where
  literal _ _ := trivial
  array _ _ := trivial
  map _ _ := trivial
  unary _ _ := trivial
  binary := fun ⟨hle, hlt⟩ ha hb => ⟨Nat.le_trans hle ha.precedence, Nat.lt_of_lt_of_le hlt hb.precedence⟩
  subscript _ _ _ := trivial
  switch _ _ := trivial

/-- If all nodes of an expression are graded, then so are all nodes of what it is folded to, which binds at least as
tightly; so folding may leave every operator where it is, as joining its operands would. All nodes of an expression that
is read, as the whole of a source or as the first in it, are graded, and so are those of a model list. -/
theorem optimize_graded :
    (∀ e : Expr, e.Each Graded → e.optimize.Each Graded ∧ e.precedence ≤ e.optimize.precedence ∧
      ∀ l op a b, binary l op a b ∈ e.optimize.nodes → a.join l op b = binary l op a b) ∧
    (∀ (mode : ParseMode) (c : Cursor) (e : Expr), (read mode c).1 = .ok e → e.Each Graded) ∧
    ∀ (closing : List Token.Kind) (c : Cursor) (e : Expr), (ModelList.read closing c).1 = .ok e → e.Each Graded := by
  refine ⟨fun e he => ?_, fun _ _ _ => graded_of_read, fun _ _ _ => ModelList.graded_of_read⟩
  have hfolded : e.optimize.Each Graded := tolerant_graded.fold he e.nextMark
  exact ⟨hfolded, (kept_fold e e.nextMark).precedence, fun l op a b hmem => (hfolded _ hmem).join_eq⟩

/-- A sum in parentheses becomes a number, a switch loses its first case, and a model list has a condition. -/
theorem optimize_graded_group :
    ∃ e f : Expr, parse "x - (1 + 2) * y + \x7b\x7bfalse -> 1, y == 1 -> 2\x7d\x7d" = .ok e ∧
      e.optimize.text = "x - 3 * y + \x7b\x7b y == 1 -> 2 \x7d\x7d" ∧
      (ModelList.read [.endOfInput] (Cursor.start "\"a.b3d\" flag = 1" .start)).1 = .ok f ∧
      e.Each Graded ∧ e.optimize.Each Graded ∧ f.Each Graded ∧ f.optimize.Each Graded := by
  obtain ⟨hkept, hread, hlist⟩ := optimize_graded
  have hfolds : (parse "x - (1 + 2) * y + \x7b\x7bfalse -> 1, y == 1 -> 2\x7d\x7d").toOption.any
      (fun e => e.optimize.text == "x - 3 * y + \x7b\x7b y == 1 -> 2 \x7d\x7d") = true := by decide +kernel
  have hmodel : (ModelList.read [.endOfInput] (Cursor.start "\"a.b3d\" flag = 1" .start)).1.toOption.isSome = true := by
    decide +kernel
  cases he : parse "x - (1 + 2) * y + \x7b\x7bfalse -> 1, y == 1 -> 2\x7d\x7d" with
  | error err =>
    rw [he] at hfolds
    cases hfolds
  | ok e =>
    cases hf : (ModelList.read [.endOfInput] (Cursor.start "\"a.b3d\" flag = 1" .start)).1 with
    | error err =>
      rw [hf] at hmodel
      cases hmodel
    | ok f =>
      rw [he] at hfolds
      have hegraded := hread .strict _ e he
      have hfgraded := hlist _ _ f hf
      exact ⟨e, f, rfl, beq_iff_eq.1 hfolds, rfl, hegraded, (hkept e hegraded).1, hfgraded, (hkept f hfgraded).1⟩

end Expr

end ExprLang
