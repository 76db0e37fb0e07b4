import ExprLang.Expr.Join

/-!
# Operators in order

Two views of a tree of binary operations: the row of its operands and signs from left to right
(`Expr.row`), and whether it is the tree of precedence climbing (`Expr.Climbs`), in which a left
operand may be as loose as its operator and a right one must be tighter.

* `row_join`: joining two trees puts their rows on both sides of the sign, whatever the trees.
* `joinAll_of_climbs`: the row of a climbing tree determines the tree.
* `joinAll_climbs_unique`: operators that are joined one after the other give the one climbing tree
  over their row.
-/

namespace ExprLang

/-- A sign with its place, and the operand to its right. -/
structure Joint where
  op : BinaryOp
  location : Option Location
  right : Expr

/-- An entry of the row of a tree. -/
inductive Piece where
  | operand (e : Expr)
  | sign (op : BinaryOp) (location : Option Location)

/-- The row of a sequence: an operand, and further ones after their signs. -/
def Joint.row (t : Expr) (js : List Joint) : List Piece :=
  .operand t :: js.flatMap fun j => [.sign j.op j.location, .operand j.right]

namespace Expr

def isBinary : Expr → Bool
  | binary _ _ _ _ => true
  | _ => false

/-- The operands and signs of a tree from left to right. -/
def row : Expr → List Piece
  | binary l op a b => a.row ++ .sign op l :: b.row
  | e => [.operand e]

/-- Each operator binds at most as tightly as its left operand, and looser than its right one. -/
def Climbs : Expr → Prop
  | binary _ op a b => op.precedence ≤ a.precedence ∧ op.precedence < b.precedence ∧ a.Climbs ∧ b.Climbs
  | _ => True

/-- Joins operators to a tree from left to right. -/
def joinAll (t : Expr) (js : List Joint) : Expr := js.foldl (fun e j => e.join j.location j.op j.right) t

@[simp] theorem joinAll_nil (t : Expr) : t.joinAll [] = t := rfl

@[simp] theorem joinAll_cons (t : Expr) (j : Joint) (js : List Joint) :
    t.joinAll (j :: js) = (t.join j.location j.op j.right).joinAll js := rfl

theorem joinAll_append (t : Expr) (js ks : List Joint) : t.joinAll (js ++ ks) = (t.joinAll js).joinAll ks := by
  simp [joinAll]

/-! ## Operands -/

section Operands

variable {e : Expr}

theorem row_of_not_binary (h : e.isBinary = false) : e.row = [.operand e] := by
  cases e with
  | binary => cases h
  | _ => rfl

theorem climbs_of_not_binary (h : e.isBinary = false) : e.Climbs := by
  cases e with
  | binary => cases h
  | _ => trivial

theorem precedence_of_not_binary (h : e.isBinary = false) : e.precedence = BinaryOp.maxPrecedence := by
  cases e with
  | binary => cases h
  | _ => rfl

theorem precedence_le_max (e : Expr) : e.precedence ≤ BinaryOp.maxPrecedence := by
  cases e with
  | binary l op a b => exact Nat.le_of_lt op.precedence_lt
  | _ => exact Nat.le_refl _

end Operands

/-! ## Joining -/

/-- Whichever way the operator goes, operands and signs stay in order. -/
theorem row_join (l : Option Location) (op : BinaryOp) (a b : Expr) :
    (a.join l op b).row = a.row ++ .sign op l :: b.row := by
  fun_induction join l op a b with
  | case1 a b h => rfl
  | case2 b here above a₁ a₂ h h' ih => simp [row, ih]
  | case3 a b h h' hb => rfl
  | case4 a here above b₁ b₂ h h' ih => simp [row, ih]
  | case5 a b h h' hb => rfl

theorem row_joinAll {t : Expr} {js : List Joint} (hjs : ∀ j ∈ js, j.right.isBinary = false) :
    (t.joinAll js).row = t.row ++ js.flatMap fun j => [.sign j.op j.location, .operand j.right] := by
  induction js generalizing t with
  | nil => simp
  | cons j js ih =>
    rw [joinAll_cons, ih fun k hk => hjs k (List.mem_cons_of_mem _ hk), row_join,
      row_of_not_binary (hjs j List.mem_cons_self)]
    simp

section Operand

variable {l : Option Location} {op : BinaryOp} {a t : Expr}

/-- An operator no tighter than the tree before it takes the tree as its left operand. -/
theorem join_of_le (h : op.precedence ≤ a.precedence) (ht : t.isBinary = false) :
    a.join l op t = binary l op a t := by
  have hlt := op.precedence_lt
  rw [join.eq_def, if_pos (by rw [precedence_of_not_binary ht]; omega)]

/-- A tighter operator moves into the right operand. -/
theorem join_of_lt {here : Option Location} {above : BinaryOp} {b : Expr} (h : above.precedence < op.precedence)
    (ht : t.isBinary = false) : (binary here above a b).join l op t = binary here above a (b.join l op t) := by
  have hlt := above.precedence_lt
  have hp : (binary here above a b).precedence = above.precedence := rfl
  rw [join.eq_def, if_neg (by rw [hp]; omega), if_pos (by rw [hp, precedence_of_not_binary ht]; exact hlt)]

/-- Only a binary operation is looser than an operator. -/
theorem eq_binary_of_lt (h : a.precedence < op.precedence) :
    ∃ here above a₁ a₂, a = binary here above a₁ a₂ ∧ above.precedence < op.precedence := by
  cases a with
  | binary here above a₁ a₂ => exact ⟨here, above, a₁, a₂, rfl, h⟩
  | _ => exact absurd h (Nat.lt_asymm op.precedence_lt)

theorem precedence_join (ht : t.isBinary = false) : (a.join l op t).precedence = min op.precedence a.precedence := by
  rcases Nat.lt_or_ge a.precedence op.precedence with h | h
  · obtain ⟨here, above, a₁, a₂, rfl, hlt⟩ := eq_binary_of_lt h
    rw [join_of_lt hlt ht, Nat.min_eq_right (Nat.le_of_lt h)]
    rfl
  · rw [join_of_le h ht, Nat.min_eq_left h]
    rfl

end Operand

theorem climbs_join {l : Option Location} {op : BinaryOp} {t : Expr} (ht : t.isBinary = false) :
    ∀ {a : Expr}, a.Climbs → (a.join l op t).Climbs := by
  intro a ha
  rcases Nat.lt_or_ge a.precedence op.precedence with h | h
  · obtain ⟨here, above, a₁, a₂, rfl, hlt⟩ := eq_binary_of_lt h
    obtain ⟨hl, hr, c₁, c₂⟩ := ha
    rw [join_of_lt hlt ht]
    refine ⟨hl, ?_, c₁, climbs_join ht c₂⟩
    rw [precedence_join ht]
    omega
  · rw [join_of_le h ht]
    refine ⟨h, ?_, ha, climbs_of_not_binary ht⟩
    rw [precedence_of_not_binary ht]
    exact op.precedence_lt

theorem climbs_joinAll {t : Expr} {js : List Joint} (ht : t.Climbs) (hjs : ∀ j ∈ js, j.right.isBinary = false) :
    (t.joinAll js).Climbs := by
  induction js generalizing t with
  | nil => exact ht
  | cons j js ih =>
    exact ih (climbs_join (hjs j List.mem_cons_self) ht) fun k hk => hjs k (List.mem_cons_of_mem _ hk)

/-! ## The row determines the tree -/

/-- The leftmost operand. -/
def first : Expr → Expr
  | binary _ _ a _ => a.first
  | e => e

/-- The signs of a tree, each with the operand to its right. -/
def jointList : Expr → List Joint
  | binary l op a b => a.jointList ++ ⟨op, l, b.first⟩ :: b.jointList
  | _ => []

theorem first_not_binary : ∀ e : Expr, e.first.isBinary = false
  | binary _ _ a _ => first_not_binary a
  | literal .. | var .. | array .. | map .. | unary .. | subscript .. | switch .. => rfl

theorem jointList_not_binary : ∀ (e : Expr), ∀ j ∈ e.jointList, j.right.isBinary = false
  | binary l op a b, j, hj => by
    rcases List.mem_append.1 hj with h | h
    · exact jointList_not_binary a j h
    · rcases List.mem_cons.1 h with rfl | h
      · exact b.first_not_binary
      · exact jointList_not_binary b j h
  | literal .., _, hj | var .., _, hj | array .., _, hj | map .., _, hj | unary .., _, hj | subscript .., _, hj
  | switch .., _, hj => nomatch hj

theorem row_eq : ∀ e : Expr, e.row = Joint.row e.first e.jointList
  | binary l op a b => by
    rw [row, row_eq a, row_eq b, first, jointList]
    simp [Joint.row]
  | literal .. | var .. | array .. | map .. | unary .. | subscript .. | switch .. => rfl

/-- No sign in a climbing tree is looser than its root. -/
theorem Climbs.precedence_le : ∀ {e : Expr}, e.Climbs → ∀ j ∈ e.jointList, e.precedence ≤ j.op.precedence
  | binary l op a b, h, j, hj => by
    obtain ⟨hl, hr, ca, cb⟩ := h
    rcases List.mem_append.1 hj with hj | hj
    · exact Nat.le_trans hl (ca.precedence_le j hj)
    · rcases List.mem_cons.1 hj with rfl | hj
      · exact Nat.le_refl _
      · exact Nat.le_trans (Nat.le_of_lt hr) (cb.precedence_le j hj)
  | literal .., _, _, hj | var .., _, _, hj | array .., _, _, hj | map .., _, _, hj | unary .., _, _, hj
  | subscript .., _, _, hj | switch .., _, _, hj => nomatch hj

/-- Tighter signs after an operator all go into its right operand. -/
theorem joinAll_binary (l : Option Location) (op : BinaryOp) (a : Expr) {b : Expr} {js : List Joint}
    (hop : ∀ j ∈ js, op.precedence < j.op.precedence) (hjs : ∀ j ∈ js, j.right.isBinary = false) :
    (binary l op a b).joinAll js = binary l op a (b.joinAll js) := by
  induction js generalizing b with
  | nil => rfl
  | cons j js ih =>
    rw [joinAll_cons, join_of_lt (hop j List.mem_cons_self) (hjs j List.mem_cons_self), joinAll_cons]
    exact ih (fun k hk => hop k (List.mem_cons_of_mem _ hk)) fun k hk => hjs k (List.mem_cons_of_mem _ hk)

/-- A climbing tree is what joining its own signs gives. -/
theorem joinAll_of_climbs : ∀ {e : Expr}, e.Climbs → e.first.joinAll e.jointList = e
  | binary l op a b, h => by
    obtain ⟨hl, hr, ca, cb⟩ := h
    have tighter : ∀ j ∈ b.jointList, op.precedence < j.op.precedence := fun j hj =>
      Nat.lt_of_lt_of_le hr (cb.precedence_le j hj)
    calc (binary l op a b).first.joinAll (binary l op a b).jointList
        = (a.first.joinAll a.jointList).joinAll (⟨op, l, b.first⟩ :: b.jointList) := by
          rw [first, jointList, joinAll_append]
      _ = (binary l op a b.first).joinAll b.jointList := by
          rw [joinAll_of_climbs ca, joinAll_cons, join_of_le hl b.first_not_binary]
      _ = binary l op a b := by
          rw [joinAll_binary l op a tighter b.jointList_not_binary, joinAll_of_climbs cb]
  | literal .., _ | var .., _ | array .., _ | map .., _ | unary .., _ | subscript .., _ | switch .., _ => rfl

end Expr

/-- A row tells its operands and signs. -/
theorem Joint.row_inj {t u : Expr} {js ks : List Joint} (h : Joint.row t js = Joint.row u ks) : t = u ∧ js = ks := by
  injection h with ht h
  injection ht with ht
  refine ⟨ht, ?_⟩
  induction js generalizing ks with
  | nil =>
    cases ks with
    | nil => rfl
    | cons k ks => cases h
  | cons j js ih =>
    cases ks with
    | nil => cases h
    | cons k ks =>
      obtain ⟨jop, jl, jr⟩ := j
      obtain ⟨kop, kl, kr⟩ := k
      simp only [List.flatMap_cons, List.cons_append, List.nil_append, List.cons.injEq, Piece.sign.injEq,
        Piece.operand.injEq] at h
      obtain ⟨⟨rfl, rfl⟩, rfl, h⟩ := h
      rw [ih h]

namespace Expr

theorem eq_joinAll {t u : Expr} {js : List Joint} (hu : u.Climbs) (h : u.row = Joint.row t js) : u = t.joinAll js := by
  obtain ⟨ht, hj⟩ := Joint.row_inj (u.row_eq.symm.trans h)
  rw [← ht, ← hj, joinAll_of_climbs hu]

/-- Operators that are joined to operands one after the other, each with its place, give the climbing tree
over their row, and there is no other. -/
theorem joinAll_climbs_unique (t : Expr) (js : List Joint) (ht : t.isBinary = false)
    (hjs : ∀ j ∈ js, j.right.isBinary = false) :
    (js.foldl (fun e j => e.join j.location j.op j.right) t).row = Joint.row t js ∧
      (js.foldl (fun e j => e.join j.location j.op j.right) t).Climbs ∧
      ∀ u : Expr, u.row = Joint.row t js → u.Climbs →
        u = js.foldl (fun e j => e.join j.location j.op j.right) t := by
  refine ⟨?_, climbs_joinAll (climbs_of_not_binary ht) hjs, fun u hu hc => eq_joinAll hc hu⟩
  calc (t.joinAll js).row
      = t.row ++ js.flatMap fun j => [.sign j.op j.location, .operand j.right] := row_joinAll hjs
    _ = Joint.row t js := by rw [row_of_not_binary ht]; rfl

/-- `a - b * c -> d` with a place for every sign. -/
theorem joinAll_climbs_unique_four :
    (var none "a").isBinary = false ∧
      (∀ j ∈ [Joint.mk .subtract (some ⟨1, 3⟩) (var none "b"), ⟨.multiply, some ⟨1, 7⟩, var none "c"⟩,
        ⟨.guarded, some ⟨1, 11⟩, var none "d"⟩], j.right.isBinary = false) ∧
      [Joint.mk .subtract (some ⟨1, 3⟩) (var none "b"), ⟨.multiply, some ⟨1, 7⟩, var none "c"⟩,
        ⟨.guarded, some ⟨1, 11⟩, var none "d"⟩].foldl (fun e j => e.join j.location j.op j.right) (var none "a") =
        binary (some ⟨1, 11⟩) .guarded (binary (some ⟨1, 3⟩) .subtract (var none "a")
          (binary (some ⟨1, 7⟩) .multiply (var none "b") (var none "c"))) (var none "d") := by
  have operands : ∀ j ∈ [Joint.mk .subtract (some ⟨1, 3⟩) (var none "b"), ⟨.multiply, some ⟨1, 7⟩, var none "c"⟩,
      ⟨.guarded, some ⟨1, 11⟩, var none "d"⟩], j.right.isBinary = false := by simp [isBinary]
  refine ⟨rfl, operands, ((joinAll_climbs_unique _ _ rfl operands).2.2 _ rfl ?_).symm⟩
  simp [Climbs, precedence, BinaryOp.precedence, BinaryOp.maxPrecedence]

end Expr

end ExprLang
