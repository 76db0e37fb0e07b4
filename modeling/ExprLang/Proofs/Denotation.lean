import ExprLang.Evaluation
import ExprLang.Proofs.Bare.Step

/-!
# What an expression means

`Expr.denote` gives the bare outcome of an expression over the bare values of its variables, without
a context: no marks, no trace, no locations. It is what evaluation computes (`run_yields`): in every
context over the store the outcome of a run agrees with the meaning, and the store is left as it was.
-/

namespace ExprLang

/-! ## Meanings -/

/-- What a node makes of the outcome of its step, up to location and expression. -/
def settled (mode : Mode) : Except Error Value → Except Error Value
  | .ok v => .ok v
  | .error e => if mode = .lenient ∧ e.bare.isEvaluation then .ok .undefined else .error e.bare

mutual

def Expr.denote (mode : Mode) (σ : String → Value) : Expr → Except Error Value
  | .literal _ v => .ok v.bare
  | .var _ name => .ok (σ name)
  | .array _ items => settled mode do return .array (← denoteItems mode σ items)
  | .map _ entries => settled mode do return .map (← denoteEntries mode σ entries)
  | .unary _ op a => settled mode do op.apply (← a.denote mode σ)
  | .binary _ op a b => settled mode do
    match op.afterLeft (← a.denote mode σ) with
    | .done r => r
    | .right finish => finish (← b.denote mode σ)
  | .subscript _ a b => settled mode do
    let base ← a.denote mode σ
    base.subscript (fun _ => none) (← b.denote mode σ)
  | .switch _ cases => settled mode (denoteCases mode σ cases)

def denoteItems (mode : Mode) (σ : String → Value) : List Expr → Except Error (List Value)
  | [] => .ok []
  | e :: es => do
    let vs ← (← e.denote mode σ).splice
    return vs ++ (← denoteItems mode σ es)

def denoteEntries (mode : Mode) (σ : String → Value) : List (String × Expr) → Except Error (Entries Value)
  | [] => .ok []
  | (k, e) :: es => do return (k, ← e.denote mode σ) :: (← denoteEntries mode σ es)

def denoteCases (mode : Mode) (σ : String → Value) : List Expr → Except Error Value
  | [] => .ok .undefined
  | e :: es => do
    let v ← e.denote mode σ
    if v.isUndefined then denoteCases mode σ es else return v

end

/-- The bare values of the variables. -/
def Store.values (s : Store) (name : String) : Value := (s.lookup name).bare

mutual

/-- Making objects of the values in an expression keeps its meaning. -/
theorem Expr.denote_stamp (mode : Mode) (σ : String → Value) : ∀ (e : Expr) (n : Nat),
    (e.stamp n).1.denote mode σ = e.denote mode σ
  | .literal _ v, n => by
    show Except.ok (v.stamp n).1.bare = .ok v.bare
    rw [Value.bare_stamp]
  | .var _ _, _ => rfl
  | .array _ items, n => by
    rw [Expr.denote, ← denoteItems_stamp mode σ items n]
    rfl
  | .map _ entries, n => by
    rw [Expr.denote, ← denoteEntries_stamp mode σ entries n]
    rfl
  | .unary _ _ a, n => by
    rw [Expr.denote, ← Expr.denote_stamp mode σ a n]
    rfl
  | .binary _ _ a b, n => by
    rw [Expr.denote, ← Expr.denote_stamp mode σ a n, ← Expr.denote_stamp mode σ b (a.stamp n).2]
    rfl
  | .subscript _ a b, n => by
    rw [Expr.denote, ← Expr.denote_stamp mode σ a n, ← Expr.denote_stamp mode σ b (a.stamp n).2]
    rfl
  | .switch _ cases, n => by
    rw [Expr.denote, ← denoteCases_stamp mode σ cases n]
    rfl

theorem denoteItems_stamp (mode : Mode) (σ : String → Value) : ∀ (es : List Expr) (n : Nat),
    denoteItems mode σ (stampExprs es n).1 = denoteItems mode σ es
  | [], _ => rfl
  | e :: es, n => by
    rw [denoteItems, ← Expr.denote_stamp mode σ e n, ← denoteItems_stamp mode σ es (e.stamp n).2]
    rfl

theorem denoteEntries_stamp (mode : Mode) (σ : String → Value) : ∀ (es : List (String × Expr)) (n : Nat),
    denoteEntries mode σ (stampExprEntries es n).1 = denoteEntries mode σ es
  | [], _ => rfl
  | (_, e) :: es, n => by
    rw [denoteEntries, ← Expr.denote_stamp mode σ e n, ← denoteEntries_stamp mode σ es (e.stamp n).2]
    rfl

theorem denoteCases_stamp (mode : Mode) (σ : String → Value) : ∀ (es : List Expr) (n : Nat),
    denoteCases mode σ (stampExprs es n).1 = denoteCases mode σ es
  | [], _ => rfl
  | e :: es, n => by
    rw [denoteCases, ← Expr.denote_stamp mode σ e n, ← denoteCases_stamp mode σ es (e.stamp n).2]
    rfl

end

/-! ## Evaluations that agree with a meaning -/

theorem Value.splice_bare (v : Value) : v.bare.splice = v.splice.map (·.map Value.bare) := by
  unfold splice
  rw [kind_bare, toItems_bare]
  split <;> rfl

/-- In every context over a store, the outcome agrees with a meaning and the store stays. -/
def Evaluation.Yields {α β : Type} (f : α → β) (x : Evaluation α) (s : Store) (r : Except Error β) : Prop :=
  ∀ c : Context, c.store = s → (x c).2.store = s ∧ Agrees f (x c).1 r

namespace Evaluation

section

variable {α β γ δ : Type} {f : α → β} {g : γ → δ} {s : Store}

theorem bind_apply (x : Evaluation α) (k : α → Evaluation γ) (c : Context) : (x >>= k) c = match x c with
    | (.ok a, c') => k a c'
    | (.error e, c') => (.error e, c') := by
  show ExceptT.bindCont k (x c).1 (x c).2 = _
  rcases x c with ⟨_ | _, _⟩ <;> rfl

theorem result_bind (a : α) (k : α → Evaluation γ) : (result (.ok a) >>= k) = k a := rfl

theorem Yields.pure (a : α) : Yields f (Pure.pure a) s (.ok (f a)) := fun _ hc => ⟨hc, .ok a⟩

theorem Yields.result {r : Except Error α} {t : Except Error β} (h : Agrees f r t) : Yields f (result r) s t :=
  fun _ hc => ⟨hc, h⟩

theorem Yields.bind {x : Evaluation α} {r : Except Error β} {k : α → Evaluation γ} {l : β → Except Error δ}
    (h : Yields f x s r) (hk : ∀ a, Yields g (k a) s (l (f a))) : Yields g (x >>= k) s (r >>= l) := by
  intro c hc
  obtain ⟨hs, ha⟩ := h c hc
  rw [bind_apply]
  rcases hx : x c with ⟨o, c'⟩
  rw [hx] at hs ha
  cases ha with
  | ok a => exact hk a c' hs
  | error he => exact ⟨hs, .error he⟩

end

variable {s : Store}

theorem store_record (v : Value) (place : Option Location) (c : Context) : (c.record v place).store = c.store := by
  unfold Context.record
  split <;> rfl

theorem Yields.settle {mode : Mode} {e : Expr} {x : Evaluation Value} {r : Except Error Value}
    (h : Yields Value.bare x s r) : Yields Value.bare (settle mode e x) s (settled mode r) := by
  intro c hc
  obtain ⟨hs, ha⟩ := h c hc
  unfold Evaluation.settle settled
  rcases hx : x c with ⟨o, c'⟩
  rw [hx] at hs ha
  cases ha with
  | ok v =>
    refine ⟨(store_record _ _ _).trans hs, ?_⟩
    rw [← Value.bare_stamp v c'.next]
    exact .ok _
  | @error err err' he =>
    simp only [Expr.blame_eq, Error.isEvaluation_inExpression, he]
    split
    · exact ⟨hs, .ok _⟩
    · exact ⟨hs, .error (by simp [he])⟩

end Evaluation

/-! ## Evaluation computes the meaning -/

open Evaluation (Yields)

mutual

theorem Expr.run_yields (mode : Mode) (s : Store) : ∀ e : Expr,
    Yields Value.bare (e.run mode) s (e.denote mode s.values)
  | .literal l v => .settle (.result (.ok v))
  | .var l name => Yields.settle (r := .ok (s.values name)) fun c hc => ⟨hc, by
      rw [← hc]
      exact .ok (c.lookup name)⟩
  | .array l items => .settle ((runItems_yields mode s items).bind fun vs => by
      rw [← Value.bare_array]
      exact .pure _)
  | .map l entries => .settle ((runEntries_yields mode s entries).bind fun es => by
      rw [← Value.bare_map]
      exact .pure _)
  | .unary l op a => .settle ((Expr.run_yields mode s a).bind fun v => .result (by
      rw [op.apply_bare]
      exact .map_self _ _))
  | .binary l op a b => .settle ((Expr.run_yields mode s a).bind fun v => by
      have demand := op.afterLeft_bare v
      generalize op.afterLeft v = d at demand ⊢
      generalize op.afterLeft v.bare = d' at demand ⊢
      cases demand with
      | done r => exact .result (.map_self _ r)
      | @right finish bareFinish h =>
        refine (Expr.run_yields mode s b).bind fun w => .result ?_
        rw [h]
        exact .map_self _ _)
  | .subscript l a b => .settle ((Expr.run_yields mode s a).bind fun v =>
      (Expr.run_yields mode s b).bind fun w => fun c hc => ⟨hc, v.subscript_agrees c.origin w⟩)
  | .switch l cases => .settle (runCases_yields mode s cases)

theorem runItems_yields (mode : Mode) (s : Store) : ∀ es : List Expr,
    Yields (·.map Value.bare) (runItems mode es) s (denoteItems mode s.values es)
  | [] => .pure []
  | e :: es => (Expr.run_yields mode s e).bind fun v => by
    refine Yields.bind (f := (·.map Value.bare)) (.result ?_) fun vs => (runItems_yields mode s es).bind fun ws => ?_
    · rw [v.splice_bare]
      exact .map_self _ _
    · rw [← List.map_append]
      exact .pure (vs ++ ws)

theorem runEntries_yields (mode : Mode) (s : Store) : ∀ es : List (String × Expr),
    Yields (Entries.mapValues Value.bare) (runEntries mode es) s (denoteEntries mode s.values es)
  | [] => .pure []
  | (k, e) :: es => (Expr.run_yields mode s e).bind fun v => (runEntries_yields mode s es).bind fun vs => by
    rw [← Entries.mapValues_cons]
    exact .pure ((k, v) :: vs)

theorem runCases_yields (mode : Mode) (s : Store) : ∀ es : List Expr,
    Yields Value.bare (runCases mode es) s (denoteCases mode s.values es)
  | [] => .pure _
  | e :: es => (Expr.run_yields mode s e).bind fun v => by
    rw [v.isUndefined_bare]
    split
    · exact runCases_yields mode s es
    · exact .pure v

end

/-- An error that leaves an expression has been given its expression. -/
theorem Expr.run_error {mode : Mode} {e : Expr} {c : Context} {err : Error} (h : (e.run mode c).1 = .error err) :
    err.awaitsExpression = false := by
  have settled : ∀ (x : Evaluation Value), (Evaluation.settle mode e x c).1 = .error err →
      err.awaitsExpression = false := fun x hx => by
    unfold Evaluation.settle at hx
    rcases hc : x c with ⟨_ | _, c'⟩
    · rw [hc] at hx
      simp only [blame_eq] at hx
      split at hx
      · cases hx
      · cases hx
        exact Error.awaitsExpression_inExpression _ _ _
    · rw [hc] at hx
      cases hx
  cases e <;> exact settled _ h

/-- Lenient evaluation gives the meaning, or undefined if there is none. -/
theorem Expr.tryEvaluate_bare (e : Expr) (c : Context) :
    (e.tryEvaluate c).1.bare = (e.denote .lenient c.store.values).toOption.getD .undefined := by
  obtain ⟨-, agrees⟩ := run_yields .lenient c.store e c rfl
  unfold tryEvaluate
  rcases hr : e.run .lenient c with ⟨_ | _, _⟩
  · rw [hr] at agrees
    generalize e.denote .lenient c.store.values = r at agrees ⊢
    cases agrees
    rfl
  · rw [hr] at agrees
    rw [agrees.eq_ok]
    rfl

end ExprLang
