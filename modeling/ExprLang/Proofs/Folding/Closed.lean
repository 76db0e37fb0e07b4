import ExprLang.Proofs.Folding.Invariant
import ExprLang.Proofs.Folding.Meaning
import ExprLang.Proofs.Heredity
import ExprLang.Proofs.Variables

/-!
# Folding is complete

An expression is decided if it is a literal as soon as it means a value. Every node that is closed over
decided parts is decided, and so is whatever is folded from an expression without variables
(`Expr.foldInvariant_decided`). Hence such an expression is folded to a literal if and only if it evaluates to a
value, which the literal then holds (`Expr.optimize_closed`).
-/

namespace ExprLang

variable {σ : String → Value}

/-- The expression does not mean a value unless it is a literal. -/
def Expr.Decided (σ : String → Value) (e : Expr) : Prop := ∀ v, e.denote .strict σ = .ok v → e.isLiteral = true

/-! ## Outcomes -/

theorem settled_strict_ok {r : Except Error Value} {v : Value} : settled .strict r = .ok v ↔ r = .ok v := by
  cases r <;> simp [settled]

theorem Except.map_ok {ε α β : Type} {f : α → β} {r : Except ε α} {b : β} (h : r.map f = .ok b) : ∃ a, r = .ok a := by
  cases r with
  | ok a => exact ⟨a, rfl⟩
  | error e => cases h

theorem Option.exists_mapM {α β : Type} {f : α → Option β} {xs : List α} (h : ∀ x ∈ xs, (f x).isSome = true) :
    ∃ ys, xs.mapM f = some ys := by
  induction xs with
  | nil => exact ⟨[], rfl⟩
  | cons x xs ih =>
    obtain ⟨hx, hxs⟩ := List.forall_mem_cons.1 h
    obtain ⟨y, hy⟩ := Option.isSome_iff_exists.1 hx
    obtain ⟨ys, hys⟩ := ih hxs
    exact ⟨y :: ys, by rw [List.mapM_cons, hy, hys]; rfl⟩

/-! ## Parts that mean values -/

/-- Decided items that mean values together are literals. -/
theorem isLiteral_of_denoteItems {es : List Expr} (h : ∀ e ∈ es, e.Decided σ) {vs : List Value}
    (hvs : denoteItems .strict σ es = .ok vs) : ∀ e ∈ es, e.isLiteral = true := by
  induction es generalizing vs with
  | nil => exact fun _ he => absurd he List.not_mem_nil
  | cons e es ih =>
    obtain ⟨he, hes⟩ := List.forall_mem_cons.1 h
    rw [denoteItems] at hvs
    obtain ⟨v, hv, hvs⟩ := Except.bind_ok.1 hvs
    obtain ⟨us, -, hvs⟩ := Except.bind_ok.1 hvs
    obtain ⟨ws, hws, -⟩ := Except.bind_ok.1 hvs
    exact List.forall_mem_cons.2 ⟨he v hv, ih hes hws⟩

theorem isLiteral_of_denoteEntries {es : List (String × Expr)} (h : ∀ f ∈ es, f.2.Decided σ) {vs : Entries Value}
    (hvs : denoteEntries .strict σ es = .ok vs) : ∀ f ∈ es, f.2.isLiteral = true := by
  induction es generalizing vs with
  | nil => exact fun _ hf => absurd hf List.not_mem_nil
  | cons f es ih =>
    obtain ⟨hf, hes⟩ := List.forall_mem_cons.1 h
    rw [denoteEntries] at hvs
    obtain ⟨v, hv, hvs⟩ := Except.bind_ok.1 hvs
    obtain ⟨ws, hws, -⟩ := Except.bind_ok.1 hvs
    exact List.forall_mem_cons.2 ⟨hf v hv, ih hes hws⟩

namespace Expr

variable {l : Option Location}

/-- A decided expression that means a value is a literal for it. -/
theorem Decided.exists_value? {e : Expr} (h : e.Decided σ) {v : Value} (hv : e.denote .strict σ = .ok v) :
    ∃ w, e.value? = some w ∧ v = w.bare := by
  obtain ⟨w, hw⟩ := Option.isSome_iff_exists.1 (h v hv)
  rw [denote_of_value? .strict σ hw] at hv
  exact ⟨w, hw, (Except.ok.inj hv).symm⟩

theorem decided_of_isLiteral {e : Expr} (h : e.isLiteral = true) : e.Decided σ := fun _ _ => h

theorem isLiteral_ofStep (node : Expr) {r : Except Error Value} (h : ∃ v, r = .ok v) (n : Nat) :
    (ofStep node r n).1.isLiteral = true := by
  obtain ⟨v, rfl⟩ := h
  rfl

/-! ## Closed nodes -/

theorem decided_closeArray {items : List Expr} (h : ∀ e ∈ items, e.Decided σ) (n : Nat) :
    (closeArray l items n).1.Decided σ := by
  intro v hv
  rw [denote_closeArray, denote, settled_strict_ok] at hv
  obtain ⟨us, hus, -⟩ := Except.bind_ok.1 hv
  obtain ⟨vs, hvs⟩ : ∃ vs, values? items = some vs := Option.exists_mapM (isLiteral_of_denoteItems h hus)
  rw [denoteItems_of_values .strict σ hvs] at hus
  obtain ⟨parts, hparts⟩ := Except.map_ok hus
  unfold closeArray
  rw [hvs]
  exact isLiteral_ofStep _ ⟨.array parts.flatten, by rw [hparts]; rfl⟩ n

theorem decided_closeMap {entries : List (String × Expr)} (h : ∀ f ∈ entries, f.2.Decided σ) (n : Nat) :
    (closeMap l entries n).1.Decided σ := by
  intro v hv
  rw [denote_closeMap, denote, settled_strict_ok] at hv
  obtain ⟨us, hus, -⟩ := Except.bind_ok.1 hv
  unfold closeMap
  generalize hvs : entries.mapM (m := Option) _ = vs
  cases vs with
  | some => exact isLiteral_ofStep _ ⟨_, rfl⟩ n
  | none =>
    refine absurd hvs (Option.ne_none_iff_exists'.2 (Option.exists_mapM fun f hf => ?_))
    rw [Option.isSome_map]
    exact isLiteral_of_denoteEntries h hus f hf

theorem decided_closeUnary {op : UnaryOp} {a : Expr} (ha : a.Decided σ) (n : Nat) :
    (closeUnary l op a n).1.Decided σ := by
  intro v hv
  rw [denote_closeUnary, denote, settled_strict_ok] at hv
  obtain ⟨u, hu, hv⟩ := Except.bind_ok.1 hv
  obtain ⟨w, hw, rfl⟩ := ha.exists_value? hu
  rw [op.apply_bare] at hv
  unfold closeUnary
  rw [hw]
  exact isLiteral_ofStep _ (Except.map_ok hv) n

theorem decided_closeBinary {op : BinaryOp} {a b : Expr} (ha : a.Decided σ) (hb : b.Decided σ) (n : Nat) :
    (closeBinary l op a b n).1.Decided σ := by
  intro v hv
  rw [denote_closeBinary, denote, settled_strict_ok] at hv
  obtain ⟨u, hu, hv⟩ := Except.bind_ok.1 hv
  obtain ⟨w, hw, rfl⟩ := ha.exists_value? hu
  have demand := op.afterLeft_bare w
  unfold closeBinary
  rw [hw, Option.map_some]
  generalize op.afterLeft w = d at demand ⊢
  generalize op.afterLeft w.bare = d' at demand hv
  cases demand with
  | done r => exact isLiteral_ofStep _ (Except.map_ok hv) n
  | right h =>
    obtain ⟨u', hu', hv⟩ := Except.bind_ok.1 hv
    obtain ⟨w', hw', rfl⟩ := hb.exists_value? hu'
    rw [h] at hv
    rw [hw']
    exact isLiteral_ofStep _ (Except.map_ok hv) n

theorem decided_closeSubscript {a b : Expr} (ha : a.Decided σ) (hb : b.Decided σ) (n : Nat) :
    (closeSubscript l a b n).1.Decided σ := by
  intro v hv
  rw [denote_closeSubscript, denote, settled_strict_ok] at hv
  obtain ⟨u, hu, hv⟩ := Except.bind_ok.1 hv
  obtain ⟨u', hu', hv⟩ := Except.bind_ok.1 hv
  obtain ⟨w, hw, rfl⟩ := ha.exists_value? hu
  obtain ⟨w', hw', rfl⟩ := hb.exists_value? hu'
  have agrees := w.subscript_agrees (fun _ => none) w'
  rw [hv] at agrees
  unfold closeSubscript
  rw [hw, hw']
  obtain ⟨x, hx, -⟩ := agrees.exists_ok
  exact isLiteral_ofStep _ ⟨x, hx⟩ n

/-- The first case that may count decides a switch. -/
theorem decided_closeSwitch {cases : List Expr} (h : ∀ e ∈ cases, e.Decided σ) (n : Nat) :
    (closeSwitch l cases n).1.Decided σ := by
  intro v hv
  rw [denote_closeSwitch, denote, settled_strict_ok, ← denoteCases_dropWhile] at hv
  have hrest : ∀ e ∈ cases.dropWhile isUndefinedLiteral, e.Decided σ := fun e he =>
    h e (List.dropWhile_subset _ he)
  unfold closeSwitch
  cases hc : cases.dropWhile isUndefinedLiteral with
  | nil => rfl
  | cons e es =>
    rw [hc] at hv hrest
    obtain ⟨u, hu, -⟩ := Except.bind_ok.1 hv
    obtain ⟨w, hw, -⟩ := (List.forall_mem_cons.1 hrest).1.exists_value? hu
    rw [eq_literal_of_value? hw]
    rfl

/-! ## Whole expressions -/

theorem foldInvariant_decided : FoldInvariant (fun n => n.name? = none) (Decided σ) where
  literal _ := decided_of_isLiteral rfl
  var h := by cases h
  integer _ _ _ := decided_of_isLiteral rfl
  array n _ h := decided_closeArray (fun e he => (h e he).1) n
  map n _ _ h := decided_closeMap h n
  unary n _ ha := decided_closeUnary ha n
  binary n _ ha hb := decided_closeBinary ha hb n
  subscript n _ ha hb := decided_closeSubscript ha hb n
  switch n _ h := decided_closeSwitch h n

/-- Without variables, an expression is folded to a literal if and only if it evaluates to a value, whatever the
context, and then the literal holds that value. -/
theorem optimize_closed (e : Expr) (h : e.names = []) (c : Context) :
    (e.optimize.isLiteral = true ↔ ∃ v, (e.evaluate c).1 = .ok v) ∧
      ∀ l v, e.optimize = .literal l v → ∃ w, (e.evaluate c).1 = .ok w ∧ w.bare = v.bare := by
  have hdecided : e.optimize.Decided c.store.values := foldInvariant_decided.fold (names_eq_nil_iff.1 h) e.nextMark
  have hmeaning : e.optimize.denote .strict c.store.values = e.denote .strict c.store.values :=
    denote_fold .strict c.store.values e e.nextMark
  have agrees : Agrees Value.bare (e.evaluate c).1 (e.optimize.denote .strict c.store.values) := by
    rw [hmeaning]
    exact (run_yields .strict c.store e c rfl).2
  have holds : ∀ l v, e.optimize = .literal l v → ∃ w, (e.evaluate c).1 = .ok w ∧ w.bare = v.bare := fun l v hv => by
    rw [hv, denote] at agrees
    exact agrees.exists_ok
  refine ⟨⟨fun hliteral => ?_, fun ⟨v, hv⟩ => ?_⟩, holds⟩
  · obtain ⟨v, hv⟩ := Option.isSome_iff_exists.1 hliteral
    obtain ⟨w, hw, -⟩ := holds _ v (eq_literal_of_value? hv)
    exact ⟨w, hw⟩
  · rw [hv] at agrees
    exact hdecided v.bare agrees.eq_ok

/-- The negative of a text does not exist, but a false left side keeps it from being asked for. -/
def shortCircuit : Expr :=
  .binary none .and (.literal none (.boolean false)) (.unary none .minus (.literal none (.string "a")))

theorem optimize_closed_shortCircuit :
    shortCircuit.names = [] ∧ shortCircuit.optimize.isLiteral = true ∧ ∃ v, (shortCircuit.evaluate .empty).1 = .ok v :=
  ⟨rfl, rfl, (optimize_closed shortCircuit rfl .empty).1.1 rfl⟩

end Expr

end ExprLang
