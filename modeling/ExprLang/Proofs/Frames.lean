import ExprLang.Expr.Basic

/-!
# Frames

A frame is a node with a hole for one operand. An occurrence of a sub-expression is the expression
together with the frames around it, from the outermost to the innermost; `Frame.fillAll` puts the
whole together again.

- `nodes_fill`: what fills a frame is a part of the whole, and the other parts do not depend on it;
- `length_nodes_lt`, `length_nodes_fillAll_lt`: the whole has more nodes than the part, and fewer if
  the part is replaced by a smaller one.
-/

namespace ExprLang

/-- A node with a hole in the place of an operand. -/
inductive Frame where
  | item (location : Option Location) (before after : List Expr)
  | entry (location : Option Location) (before : List (String × Expr)) (key : String) (after : List (String × Expr))
  | operand (location : Option Location) (op : UnaryOp)
  | left (location : Option Location) (op : BinaryOp) (right : Expr)
  | right (location : Option Location) (op : BinaryOp) (left : Expr)
  | base (location : Option Location) (index : Expr)
  | index (location : Option Location) (base : Expr)
  | case (location : Option Location) (before after : List Expr)

namespace Frame

def fill (e : Expr) : Frame → Expr
  | item l before after => .array l (before ++ e :: after)
  | entry l before key after => .map l (before ++ (key, e) :: after)
  | operand l op => .unary l op e
  | left l op b => .binary l op e b
  | right l op a => .binary l op a e
  | base l b => .subscript l e b
  | index l a => .subscript l a e
  | case l before after => .switch l (before ++ e :: after)

/-- The expression with the given one in the innermost hole. -/
def fillAll (e : Expr) : List Frame → Expr
  | [] => e
  | F :: Fs => F.fill (fillAll e Fs)

@[simp] theorem fillAll_nil (e : Expr) : fillAll e [] = e := rfl

@[simp] theorem fillAll_cons (e : Expr) (F : Frame) (Fs : List Frame) :
    fillAll e (F :: Fs) = F.fill (fillAll e Fs) := rfl

end Frame

/-! ## Nodes -/

theorem Expr.mem_nodes_self (e : Expr) : e ∈ e.nodes := by
  cases e <;> exact List.mem_cons_self

theorem nodesOf_append (es fs : List Expr) : nodesOf (es ++ fs) = nodesOf es ++ nodesOf fs := by
  induction es with
  | nil => rfl
  | cons e es ih => rw [List.cons_append, nodesOf, nodesOf, ih, List.append_assoc]

theorem nodesOfEntries_append (es fs : List (String × Expr)) :
    nodesOfEntries (es ++ fs) = nodesOfEntries es ++ nodesOfEntries fs := by
  induction es with
  | nil => rfl
  | cons e es ih =>
    obtain ⟨k, e⟩ := e
    rw [List.cons_append, nodesOfEntries, nodesOfEntries, ih, List.append_assoc]

namespace Frame

/-- The nodes of a filled frame are the nodes of what fills it, between others that stay the same. -/
theorem nodes_fill (F : Frame) : ∃ before after : List Expr, ∀ e : Expr,
    (F.fill e).nodes = F.fill e :: (before ++ (e.nodes ++ after)) := by
  cases F with
  | item l before after | case l before after =>
    refine ⟨nodesOf before, nodesOf after, fun e => ?_⟩
    rw [fill, Expr.nodes, nodesOf_append, nodesOf]
  | entry l before key after =>
    refine ⟨nodesOfEntries before, nodesOfEntries after, fun e => ?_⟩
    rw [fill, Expr.nodes, nodesOfEntries_append, nodesOfEntries]
  | operand l op =>
    refine ⟨[], [], fun e => ?_⟩
    rw [fill, Expr.nodes, List.nil_append, List.append_nil]
  | left l op b | base l b => exact ⟨[], b.nodes, fun e => rfl⟩
  | right l op a | index l a =>
    refine ⟨a.nodes, [], fun e => ?_⟩
    rw [fill, Expr.nodes, List.append_nil]

theorem length_nodes_lt (F : Frame) (e : Expr) : e.nodes.length < (F.fill e).nodes.length := by
  obtain ⟨before, after, hnodes⟩ := F.nodes_fill
  simp only [hnodes, List.length_cons, List.length_append]
  omega

theorem one_lt_length_nodes (F : Frame) (e : Expr) : 1 < (F.fill e).nodes.length := by
  have hpos : 0 < e.nodes.length := List.length_pos_of_mem e.mem_nodes_self
  have hlt := F.length_nodes_lt e
  omega

/-- An expression with fewer nodes makes the whole have fewer nodes. -/
theorem length_nodes_fillAll_lt {n m : Expr} (h : m.nodes.length < n.nodes.length) (Fs : List Frame) :
    (fillAll m Fs).nodes.length < (fillAll n Fs).nodes.length := by
  induction Fs with
  | nil => exact h
  | cons F Fs ih =>
    obtain ⟨before, after, hnodes⟩ := F.nodes_fill
    simp only [fillAll_cons, hnodes, List.length_cons, List.length_append]
    omega

theorem mem_nodes_fillAll (n : Expr) (Fs : List Frame) : n ∈ (fillAll n Fs).nodes := by
  induction Fs with
  | nil => exact Expr.mem_nodes_self n
  | cons F Fs ih =>
    obtain ⟨before, after, hnodes⟩ := F.nodes_fill
    rw [fillAll_cons, hnodes]
    exact List.mem_cons_of_mem _ (List.mem_append_right _ (List.mem_append_left _ ih))

end Frame

end ExprLang
