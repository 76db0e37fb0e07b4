import ExprLang.Folding
import ExprLang.Proofs.Parts

/-!
# Invariants of folding

What folding makes of an expression is built by closing nodes over folded parts. So a property of leaves
that is kept by every way of closing (`FoldInvariant`) holds of all folded expressions
(`FoldInvariant.fold`). The items of a folded array are no bounded ranges (`Expr.Single`), and the
entries of a folded map keep their keys.
-/

namespace ExprLang

namespace Expr

/-! ## Items -/

/-- The expression stays one item of a folded array. -/
def Single (e : Expr) : Prop := ∀ n, spliceItem e n = ([e], n)

/-- Literals for values, all in one place. -/
def literals (place : Option Location) (vs : List Value) : Supply (List Expr) :=
  vs.mapM fun v => do return .literal place (← v.stamp)

theorem literals_cons (place : Option Location) (v : Value) (vs : List Value) (n : Nat) : literals place (v :: vs) n =
    (.literal place (v.stamp n).1 :: (literals place vs (v.stamp n).2).1, (literals place vs (v.stamp n).2).2) := by
  rw [literals, List.mapM_cons]
  rfl

/-- Only a bounded range is more than one item: a literal for each of its integers. -/
theorem spliceItem_cases (e : Expr) : e.Single ∨ ∃ m first last, e.value? = some ⟨m, .range (.between first last)⟩ ∧
    ∀ n, spliceItem e n = literals e.location (Value.integers first last) n := by
  unfold Single spliceItem
  cases hv : e.value? with
  | none => exact .inl fun _ => rfl
  | some v =>
    obtain ⟨m, c⟩ := v
    cases c with
    | range r =>
      cases r with
      | between first last => exact .inr ⟨m, first, last, rfl, fun _ => rfl⟩
      | _ => exact .inl fun _ => rfl
    | _ => exact .inl fun _ => rfl

/-- The literals that are made for values hold objects of them. -/
theorem mem_literals {place : Option Location} {vs : List Value} {n : Nat} {f : Expr}
    (h : f ∈ (literals place vs n).1) :
    ∃ v ∈ vs, ∃ m, f = .literal place (v.stamp m).1 := by
  induction vs generalizing n with
  | nil => exact absurd h List.not_mem_nil
  | cons v vs ih =>
    rw [literals_cons] at h
    rcases List.mem_cons.1 h with rfl | h
    · exact ⟨v, List.mem_cons_self, n, rfl⟩
    · obtain ⟨w, hw, hf⟩ := ih h
      exact ⟨w, List.mem_cons_of_mem _ hw, hf⟩

/-- An item of a folded array is an item of the open array or a new literal for an integer. -/
theorem mem_spliceItem {e f : Expr} {n : Nat} (h : f ∈ (spliceItem e n).1) :
    f = e ∧ e.Single ∨ ∃ i m, f = .literal e.location ((Value.integer i).stamp m).1 := by
  rcases spliceItem_cases e with hsingle | ⟨_, first, last, -, hsplice⟩
  · rw [hsingle n] at h
    exact .inl ⟨List.mem_singleton.1 h, hsingle⟩
  · rw [hsplice n] at h
    obtain ⟨v, hv, m, rfl⟩ := mem_literals h
    obtain ⟨i, -, rfl⟩ := List.mem_map.1 hv
    exact .inr ⟨i, m, rfl⟩

end Expr

/-! ## Folded parts -/

open ExprLang.Expr in
/-- `P` holds of folded leaves and is kept by closing, over an expression whose nodes have the property `Q`. -/
structure FoldInvariant (Q P : Expr → Prop) : Prop where
  literal {l : Option Location} {v : Value} : Q (.literal l v) → P (.literal l v)
  var {l : Option Location} {name : String} : Q (.var l name) → P (.var l name)
  integer {e : Expr} (i : Int) (m : Nat) : P e → P (.literal e.location ((Value.integer i).stamp m).1)
  array {l : Option Location} {items folded : List Expr} (n : Nat) : Q (.array l items) →
    (∀ e ∈ folded, P e ∧ e.Single) → P (closeArray l folded n).1
  map {l : Option Location} {entries folded : List (String × Expr)} (n : Nat) : Q (.map l entries) →
    Entries.keys folded = Entries.keys entries → (∀ f ∈ folded, P f.2) → P (closeMap l folded n).1
  unary {l : Option Location} {op : UnaryOp} {a folded : Expr} (n : Nat) : Q (.unary l op a) → P folded →
    P (closeUnary l op folded n).1
  binary {l : Option Location} {op : BinaryOp} {a b left right : Expr} (n : Nat) : Q (.binary l op a b) → P left →
    P right → P (closeBinary l op left right n).1
  subscript {l : Option Location} {a b base index : Expr} (n : Nat) : Q (.subscript l a b) → P base → P index →
    P (closeSubscript l base index n).1
  switch {l : Option Location} {cases folded : List Expr} (n : Nat) : Q (.switch l cases) → (∀ e ∈ folded, P e) →
    P (closeSwitch l folded n).1

theorem keys_foldEntries (es : List (String × Expr)) (n : Nat) : Entries.keys (foldEntries es n).1 = Entries.keys es := by
  induction es generalizing n with
  | nil => rfl
  | cons f es ih =>
    rw [foldEntries]
    exact congrArg (f.1 :: ·) (ih _)

variable {Q P : Expr → Prop}

theorem FoldInvariant.of_mem_spliceItem (h : FoldInvariant Q P) {e f : Expr} (he : P e) {n : Nat}
    (hf : f ∈ (Expr.spliceItem e n).1) : P f ∧ f.Single := by
  rcases Expr.mem_spliceItem hf with ⟨rfl, hsingle⟩ | ⟨i, m, rfl⟩
  · exact ⟨he, hsingle⟩
  · exact ⟨h.integer i m he, fun _ => rfl⟩

open ExprLang.Expr in
mutual

theorem FoldInvariant.fold (h : FoldInvariant Q P) : ∀ {e : Expr}, e.Each Q → ∀ n, P (e.fold n).1
  | .literal _ _, he, _ => h.literal (each_literal.1 he)
  | .var _ _, he, _ => h.var (each_var.1 he)
  | .array _ items, he, n => by
    obtain ⟨hnode, he⟩ := each_array.1 he
    rw [Expr.fold]
    exact h.array _ hnode (h.foldItems he n)
  | .map _ entries, he, n => by
    obtain ⟨hnode, he⟩ := each_map.1 he
    rw [Expr.fold]
    exact h.map _ hnode (keys_foldEntries entries n) (h.foldEntries he n)
  | .unary _ _ a, he, n => by
    obtain ⟨hnode, ha⟩ := each_unary.1 he
    rw [Expr.fold]
    exact h.unary _ hnode (h.fold ha n)
  | .binary _ _ a b, he, n => by
    obtain ⟨hnode, ha, hb⟩ := each_binary.1 he
    rw [Expr.fold]
    exact h.binary _ hnode (h.fold ha n) (h.fold hb _)
  | .subscript _ a b, he, n => by
    obtain ⟨hnode, ha, hb⟩ := each_subscript.1 he
    rw [Expr.fold]
    exact h.subscript _ hnode (h.fold ha n) (h.fold hb _)
  | .switch _ cases, he, n => by
    obtain ⟨hnode, he⟩ := each_switch.1 he
    rw [Expr.fold]
    exact h.switch _ hnode (h.foldCases he n)

theorem FoldInvariant.foldItems (h : FoldInvariant Q P) : ∀ {es : List Expr}, (∀ e ∈ es, e.Each Q) →
    ∀ n, ∀ f ∈ (foldItems es n).1, P f ∧ f.Single
  | [], _, _ => fun _ hf => absurd hf List.not_mem_nil
  | e :: es, hes, n => by
    obtain ⟨he, hes⟩ := List.forall_mem_cons.1 hes
    rw [ExprLang.foldItems]
    exact List.forall_mem_append.2 ⟨fun f hf => h.of_mem_spliceItem (h.fold he n) hf, h.foldItems hes _⟩

theorem FoldInvariant.foldEntries (h : FoldInvariant Q P) : ∀ {es : List (String × Expr)}, (∀ f ∈ es, f.2.Each Q) →
    ∀ n, ∀ f ∈ (foldEntries es n).1, P f.2
  | [], _, _ => fun _ hf => absurd hf List.not_mem_nil
  | (_, e) :: es, hes, n => by
    obtain ⟨he, hes⟩ := List.forall_mem_cons.1 hes
    rw [ExprLang.foldEntries]
    exact List.forall_mem_cons.2 ⟨h.fold he n, h.foldEntries hes _⟩

theorem FoldInvariant.foldCases (h : FoldInvariant Q P) : ∀ {es : List Expr}, (∀ e ∈ es, e.Each Q) →
    ∀ n, ∀ f ∈ (foldCases es n).1, P f
  | [], _, _ => fun _ hf => absurd hf List.not_mem_nil
  | e :: es, hes, n => by
    obtain ⟨he, hes⟩ := List.forall_mem_cons.1 hes
    rw [ExprLang.foldCases]
    exact List.forall_mem_cons.2 ⟨h.fold he n, h.foldCases hes _⟩

end

end ExprLang
