import ExprLang.Proofs.Denotation
import ExprLang.Proofs.Raised
import ExprLang.Proofs.Variables

/-!
# What evaluation depends on

Two runs of an expression are twins over stores that agree on its variables (`Expr.run_twin`): they end
with values that differ in marks only, or with errors that differ in location only. The traces of
the two contexts are arbitrary. An error is known up to location by its cause, `Error.bare`, and by the
expression that it is attributed to, `Error.expression?`.
-/

namespace ExprLang

/-! ## Errors -/

namespace Error

/-- The error without its location. A fault of a source has no other place than its own. -/
def unplaced : Error → Error
  | .conversion _ v s t => .conversion none v s t
  | .dereference _ v a r => .dereference none v a r
  | .evaluation _ e f => .evaluation none e f
  | .index _ v k i j => .index none v k i j
  | .outOfBounds _ v i => .outOfBounds none v i
  | e => e

/-- The cause, attributed to an expression. -/
def attributed (text? : Option String) : Error → Error
  | .evaluation l _ f => .evaluation l text? f
  | e => e

theorem unplaced_eq {e : Error} (h : e.awaitsExpression = false) : e.unplaced = e.bare.attributed e.expression? := by
  cases e with
  | conversion | dereference => cases h
  | _ => rfl

/-- Errors of one cause that are attributed to the same expression. -/
structure Twin (e f : Error) : Prop where
  bare : e.bare = f.bare
  expression : e.expression? = f.expression?

theorem Twin.inExpression {e f : Error} (h : Twin e f) (text : String) (place place' : Option Location) :
    Twin (e.inExpression text place) (f.inExpression text place') where
  bare := by rw [bare_inExpression, bare_inExpression, h.bare]
  expression := by rw [expression?_inExpression, expression?_inExpression, h.bare, h.expression]

theorem Twin.unplaced {e f : Error} (h : Twin e f) (he : e.awaitsExpression = false) (hf : f.awaitsExpression = false) :
    e.unplaced = f.unplaced := by
  rw [unplaced_eq he, unplaced_eq hf, h.bare, h.expression]

end Error

/-! ## Twin outcomes -/

/-- Values that look the same through `f`, or errors that are twins. -/
inductive Outcome.Twin {α β : Type} (f : α → β) : Except Error α → Except Error α → Prop
  | ok {a b : α} (h : f a = f b) : Twin f (.ok a) (.ok b)
  | error {e e' : Error} (h : e.Twin e') : Twin f (.error e) (.error e')

namespace Outcome.Twin

variable {α β : Type} {f : α → β}

/-- A step that does the same to the images of its operands. -/
theorem of_map_eq {r s : Except Error α} (h : r.map f = s.map f) : Twin f r s := by
  cases r with
  | ok a =>
    cases s with
    | ok b => exact .ok (Except.ok.inj h)
    | error => cases h
  | error e =>
    cases s with
    | ok => cases h
    | error e' =>
      cases h
      exact .error ⟨rfl, rfl⟩

theorem of_agrees {r s : Except Error α} {t : Except Error β} (hr : Agrees f r t) (hs : Agrees f s t)
    (hraised : Raises r) (hraised' : Raises s) : Twin f r s := by
  cases hr with
  | ok a =>
    cases s with
    | ok b => exact .ok (Except.ok.inj hs.eq_ok)
    | error => cases hs
  | error he =>
    cases hs with
    | error he' => exact .error ⟨he.trans he'.symm, (hraised _ rfl).expression.trans (hraised' _ rfl).expression.symm⟩

end Outcome.Twin

variable {v w v' w' : Value}

theorem UnaryOp.apply_twin (op : UnaryOp) (h : v.bare = w.bare) :
    Outcome.Twin Value.bare (op.apply v) (op.apply w) :=
  .of_map_eq (by rw [← op.apply_bare, h, op.apply_bare])

theorem Value.splice_twin (h : v.bare = w.bare) : Outcome.Twin (·.map Value.bare) v.splice w.splice :=
  .of_map_eq (by rw [← splice_bare, h, splice_bare])

theorem Value.subscript_twin (h : v.bare = w.bare) (h' : v'.bare = w'.bare) (origin origin' : Value → Option Location) :
    Outcome.Twin bare (v.subscript origin v') (w.subscript origin' w') := by
  have agrees := v.subscript_agrees origin v'
  rw [h, h'] at agrees
  exact .of_agrees agrees (w.subscript_agrees origin' w') (subscript_raises origin v v') (subscript_raises origin' w w')

/-- Two demands that do the same to operands that differ in marks only. -/
inductive Demand.Twin : Demand → Demand → Prop
  | done {r s : Except Error Value} (h : Outcome.Twin Value.bare r s) : Twin (.done r) (.done s)
  | right {f g : Value → Except Error Value}
      (h : ∀ v w, v.bare = w.bare → Outcome.Twin Value.bare (f v) (g w)) : Twin (.right f) (.right g)

theorem BinaryOp.afterLeft_twin (op : BinaryOp) (h : v.bare = w.bare) : (op.afterLeft v).Twin (op.afterLeft w) := by
  have hv := op.afterLeft_bare v
  have hw := op.afterLeft_bare w
  rw [h] at hv
  generalize op.afterLeft v = d at hv ⊢
  generalize op.afterLeft w = d' at hw ⊢
  generalize op.afterLeft w.bare = d'' at hv hw
  cases hv with
  | done r =>
    generalize ht : r.map Value.bare = t at hw
    cases hw
    exact .done (.of_map_eq ht)
  | right hf =>
    cases hw with
    | right hg => exact .right fun v w h => .of_map_eq (by rw [← hf, h, hg])

/-! ## Twin evaluations -/

/-- In all contexts over two stores, both evaluations leave the stores and their outcomes are twins. -/
def Evaluation.Twin {α β : Type} (f : α → β) (s t : Store) (x y : Evaluation α) : Prop :=
  ∀ c d : Context, c.store = s → d.store = t →
    (x c).2.store = s ∧ (y d).2.store = t ∧ Outcome.Twin f (x c).1 (y d).1

namespace Evaluation.Twin

variable {α β γ δ : Type} {f : α → β} {g : γ → δ} {s t : Store}

theorem result {r r' : Except Error α} (h : Outcome.Twin f r r') : Twin f s t (result r) (result r') :=
  fun _ _ hc hd => ⟨hc, hd, h⟩

theorem pure {a b : α} (h : f a = f b) : Twin f s t (Pure.pure a) (Pure.pure b) := result (.ok h)

theorem bind {x y : Evaluation α} {k l : α → Evaluation γ} (h : Twin f s t x y)
    (hk : ∀ a b, f a = f b → Twin g s t (k a) (l b)) : Twin g s t (x >>= k) (y >>= l) := by
  intro c d hc hd
  obtain ⟨hs, ht, houtcome⟩ := h c d hc hd
  rw [bind_apply, bind_apply]
  generalize x c = p at hs houtcome ⊢
  generalize y d = q at ht houtcome ⊢
  obtain ⟨o, c'⟩ := p
  obtain ⟨o', d'⟩ := q
  cases houtcome with
  | ok hab => exact hk _ _ hab c' d' hs ht
  | error he => exact ⟨hs, ht, .error he⟩

theorem settle {mode : Mode} {e : Expr} {x y : Evaluation Value} (h : Twin Value.bare s t x y) :
    Twin Value.bare s t (settle mode e x) (settle mode e y) := by
  intro c d hc hd
  obtain ⟨hs, ht, houtcome⟩ := h c d hc hd
  unfold Evaluation.settle
  generalize x c = p at hs houtcome ⊢
  generalize y d = q at ht houtcome ⊢
  obtain ⟨o, c'⟩ := p
  obtain ⟨o', d'⟩ := q
  cases houtcome with
  | @ok a b hab =>
    have hbare : (a.stamp c'.next).1.bare = (b.stamp d'.next).1.bare := by
      rw [Value.bare_stamp, Value.bare_stamp, hab]
    exact ⟨(store_record _ _ _).trans hs, (store_record _ _ _).trans ht, .ok hbare⟩
  | error he =>
    simp only [Expr.blame_eq, Error.isEvaluation_inExpression, he.bare]
    split
    · exact ⟨hs, ht, .ok rfl⟩
    · exact ⟨hs, ht, .error (he.inExpression _ _ _)⟩

end Evaluation.Twin

/-! ## Two runs -/

open Evaluation (Twin)

variable {mode : Mode} {s t : Store}

open ExprLang.Expr in
mutual

theorem Expr.run_twin : ∀ {e : Expr}, (e.Each fun n => ∀ x, n.name? = some x → s.values x = t.values x) →
    Twin Value.bare s t (e.run mode) (e.run mode)
  | .literal _ v, _ => .settle (.result (.ok rfl))
  | .var _ name, h => Twin.settle fun c d hc hd => ⟨hc, hd, by
      have hvalue : s.values name = t.values name := each_var.1 h name rfl
      rw [← hc, ← hd] at hvalue
      exact .ok hvalue⟩
  | .array _ items, h => .settle ((runItems_twin (each_array.1 h).2).bind fun vs ws hvs => .pure (by
      rw [Value.bare_array, Value.bare_array, hvs]))
  | .map _ entries, h => .settle ((runEntries_twin (each_map.1 h).2).bind fun es fs hes => .pure (by
      rw [Value.bare_map, Value.bare_map, hes]))
  | .unary _ op a, h => .settle ((Expr.run_twin (each_unary.1 h).2).bind fun v w hvw => .result (op.apply_twin hvw))
  | .binary _ op a b, h => .settle (by
      obtain ⟨-, ha, hb⟩ := each_binary.1 h
      refine (Expr.run_twin ha).bind fun v w hvw => ?_
      have demand := op.afterLeft_twin hvw
      generalize op.afterLeft v = d at demand ⊢
      generalize op.afterLeft w = d' at demand ⊢
      cases demand with
      | done hr => exact .result hr
      | right hfinish => exact (Expr.run_twin hb).bind fun v' w' h' => .result (hfinish v' w' h'))
  | .subscript _ a b, h => .settle (by
      obtain ⟨-, ha, hb⟩ := each_subscript.1 h
      exact (Expr.run_twin ha).bind fun v w hvw => (Expr.run_twin hb).bind fun v' w' h' => fun c d hc hd =>
        ⟨hc, hd, Value.subscript_twin hvw h' c.origin d.origin⟩)
  | .switch _ cases, h => .settle (runCases_twin (each_switch.1 h).2)

theorem runItems_twin : ∀ {es : List Expr},
    (∀ e ∈ es, e.Each fun n => ∀ x, n.name? = some x → s.values x = t.values x) →
    Twin (·.map Value.bare) s t (runItems mode es) (runItems mode es)
  | [], _ => .pure rfl
  | e :: es, h => by
    obtain ⟨he, hes⟩ := List.forall_mem_cons.1 h
    refine (Expr.run_twin he).bind fun v w hvw => ?_
    refine (Twin.result (Value.splice_twin hvw)).bind fun vs ws hvs => (runItems_twin hes).bind fun vs' ws' hvs' => ?_
    refine .pure ?_
    simp only [List.map_append] at hvs hvs' ⊢
    rw [hvs, hvs']

theorem runEntries_twin : ∀ {es : List (String × Expr)},
    (∀ f ∈ es, f.2.Each fun n => ∀ x, n.name? = some x → s.values x = t.values x) →
    Twin (Entries.mapValues Value.bare) s t (runEntries mode es) (runEntries mode es)
  | [], _ => .pure rfl
  | (k, e) :: es, h => by
    obtain ⟨he, hes⟩ := List.forall_mem_cons.1 h
    refine (Expr.run_twin he).bind fun v w hvw => (runEntries_twin hes).bind fun vs ws hvs => .pure ?_
    rw [Entries.mapValues_cons, Entries.mapValues_cons, hvw, hvs]

theorem runCases_twin : ∀ {es : List Expr},
    (∀ e ∈ es, e.Each fun n => ∀ x, n.name? = some x → s.values x = t.values x) →
    Twin Value.bare s t (runCases mode es) (runCases mode es)
  | [], _ => .pure rfl
  | e :: es, h => by
    obtain ⟨he, hes⟩ := List.forall_mem_cons.1 h
    refine (Expr.run_twin he).bind fun v w hvw => ?_
    rw [← v.isUndefined_bare, ← w.isUndefined_bare, hvw]
    split
    · exact runCases_twin hes
    · exact .pure hvw

end

/-- An outcome without marks and locations. -/
def Outcome.erased : Except Error Value → Except Error Value
  | .ok v => .ok v.bare
  | .error e => .error e.unplaced

theorem Outcome.Twin.erased {r r' : Except Error Value} (h : Twin Value.bare r r')
    (hr : ∀ e, r = .error e → e.awaitsExpression = false) (hr' : ∀ e, r' = .error e → e.awaitsExpression = false) :
    Outcome.erased r = Outcome.erased r' := by
  cases h with
  | ok hvw => exact congrArg Except.ok hvw
  | error he => exact congrArg Except.error (he.unplaced (hr _ rfl) (hr' _ rfl))

/-- Evaluation depends on the values of the variables that occur in the expression, and on nothing else that
is bound or traced. -/
theorem Expr.evaluate_agrees (e : Expr) (c d : Context) (h : ∀ x ∈ e.names, c.store.values x = d.store.values x) :
    Outcome.erased (e.evaluate c).1 = Outcome.erased (e.evaluate d).1 ∧
      (e.tryEvaluate c).1.bare = (e.tryEvaluate d).1.bare := by
  have twin : ∀ mode, Outcome.Twin Value.bare (e.run mode c).1 (e.run mode d).1 := fun mode =>
    (run_twin (forall_names.1 h) c d rfl rfl).2.2
  refine ⟨(twin .strict).erased (fun _ => run_error) fun _ => run_error, ?_⟩
  have lenient := twin .lenient
  unfold tryEvaluate
  generalize e.run .lenient c = p at lenient ⊢
  generalize e.run .lenient d = q at lenient ⊢
  obtain ⟨o, c'⟩ := p
  obtain ⟨o', d'⟩ := q
  cases lenient with
  | ok hvw => exact hvw
  | error _ => rfl

/-- A context over a text alone, and one that has another variable too and knows where objects came from. -/
def Context.textAlone : Context := ⟨Store.ofPairs [("s", ⟨some 0, .string "ab"⟩)], [], 1⟩

def Context.textTraced : Context :=
  ⟨Store.ofPairs [("t", ⟨some 5, .null⟩), ("s", ⟨some 8, .string "ab"⟩)], [(8, ⟨1, 1⟩)], 9⟩

theorem Expr.evaluate_agrees_outOfBounds :
    let e : Expr := .subscript none (.var none "s") (.literal none (.number 3))
    (∀ x ∈ e.names, Context.textAlone.store.values x = Context.textTraced.store.values x) ∧
      Outcome.erased (e.evaluate .textAlone).1 = Outcome.erased (e.evaluate .textTraced).1 := by
  intro e
  have h : ∀ x ∈ e.names, Context.textAlone.store.values x = Context.textTraced.store.values x := by
    intro x hx
    obtain rfl := List.mem_singleton.1 hx
    rfl
  exact ⟨h, (evaluate_agrees e _ _ h).1⟩

end ExprLang
