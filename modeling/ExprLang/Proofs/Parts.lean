import ExprLang.Proofs.Precedence
import Mathlib.Tactic.Tauto

/-!
# Properties of all nodes

`Expr.Each P` says that every node of a tree has the property `P`, one lemma for each constructor. If
`P` looks only at the sign and the location of a binary operation, it does not matter how operators were
joined (`each_join`, `each_joinAll`).
-/

namespace ExprLang.Expr

/-- Whether all nodes of an expression have a property. -/
def Each (P : Expr → Prop) (e : Expr) : Prop := ∀ n ∈ e.nodes, P n

instance (P : Expr → Prop) [DecidablePred P] (e : Expr) : Decidable (e.Each P) :=
  inferInstanceAs (Decidable (∀ n ∈ e.nodes, P n))

section

variable {P : Expr → Prop} {l : Option Location}

theorem forall_nodesOf : ∀ {es : List Expr}, (∀ n ∈ nodesOf es, P n) ↔ ∀ e ∈ es, e.Each P
  | [] => by simp [nodesOf]
  | e :: es => by rw [nodesOf, List.forall_mem_append, List.forall_mem_cons, forall_nodesOf, Each]

theorem forall_nodesOfEntries : ∀ {es : List (String × Expr)},
    (∀ n ∈ nodesOfEntries es, P n) ↔ ∀ f ∈ es, f.2.Each P
  | [] => by simp [nodesOfEntries]
  | (k, e) :: es => by rw [nodesOfEntries, List.forall_mem_append, List.forall_mem_cons, forall_nodesOfEntries, Each]

theorem each_literal {v : Value} : (literal l v).Each P ↔ P (literal l v) := by simp [Each, nodes]

theorem each_var {n : String} : (var l n).Each P ↔ P (var l n) := by simp [Each, nodes]

theorem each_array {es : List Expr} : (array l es).Each P ↔ P (array l es) ∧ ∀ e ∈ es, e.Each P := by
  rw [Each, nodes, List.forall_mem_cons, forall_nodesOf]

theorem each_switch {es : List Expr} : (switch l es).Each P ↔ P (switch l es) ∧ ∀ e ∈ es, e.Each P := by
  rw [Each, nodes, List.forall_mem_cons, forall_nodesOf]

theorem each_map {es : List (String × Expr)} : (map l es).Each P ↔ P (map l es) ∧ ∀ f ∈ es, f.2.Each P := by
  rw [Each, nodes, List.forall_mem_cons, forall_nodesOfEntries]

theorem each_unary {op : UnaryOp} {a : Expr} : (unary l op a).Each P ↔ P (unary l op a) ∧ a.Each P := by
  rw [Each, nodes, List.forall_mem_cons, Each]

theorem each_binary {op : BinaryOp} {a b : Expr} :
    (binary l op a b).Each P ↔ P (binary l op a b) ∧ a.Each P ∧ b.Each P := by
  rw [Each, nodes, List.forall_mem_cons, List.forall_mem_append, Each, Each]

theorem each_subscript {a b : Expr} : (subscript l a b).Each P ↔ P (subscript l a b) ∧ a.Each P ∧ b.Each P := by
  rw [Each, nodes, List.forall_mem_cons, List.forall_mem_append, Each, Each]

end

/-! ## Joined operators -/

section

variable {P : Expr → Prop} {Q : Option Location → BinaryOp → Prop}
  (hP : ∀ l op a b, P (binary l op a b) ↔ Q l op)

include hP

theorem each_binary_iff {l : Option Location} {op : BinaryOp} {a b : Expr} :
    (binary l op a b).Each P ↔ Q l op ∧ a.Each P ∧ b.Each P :=
  each_binary.trans (and_congr_left fun _ => hP l op a b)

/-- Wherever the operator goes, the nodes are those of both sides and one more, and every operator keeps its place. -/
theorem each_join (l : Option Location) (op : BinaryOp) (a b : Expr) :
    (a.join l op b).Each P ↔ Q l op ∧ a.Each P ∧ b.Each P := by
  fun_induction join l op a b with
  | case1 a b h => exact each_binary_iff hP
  | case2 b here above a₁ a₂ h h' ih =>
    rw [each_binary_iff hP, each_binary_iff hP, ih]
    tauto
  | case3 a b h h' hb => exact each_binary_iff hP
  | case4 a here above b₁ b₂ h h' ih =>
    rw [each_binary_iff hP, each_binary_iff hP, ih]
    tauto
  | case5 a b h h' hb => exact each_binary_iff hP

theorem each_joinAll {js : List Joint} {t : Expr} :
    (t.joinAll js).Each P ↔ t.Each P ∧ ∀ j ∈ js, Q j.location j.op ∧ j.right.Each P := by
  induction js generalizing t with
  | nil => simp
  | cons j js ih =>
    rw [joinAll_cons, ih, each_join hP, List.forall_mem_cons]
    tauto

end

/-- If `P` holds of binary operations anyway, signs and locations do not count. -/
theorem each_joinAll_of_binary {P : Expr → Prop} (hP : ∀ l op a b, P (binary l op a b)) {js : List Joint} {t : Expr} :
    (t.joinAll js).Each P ↔ t.Each P ∧ ∀ j ∈ js, j.right.Each P := by
  have hiff : ∀ l op a b, P (binary l op a b) ↔ True := fun l op a b => iff_true_intro (hP l op a b)
  have hall : (t.joinAll js).Each P ↔ t.Each P ∧ ∀ j ∈ js, True ∧ j.right.Each P := each_joinAll hiff
  simpa only [true_and] using hall

end ExprLang.Expr
