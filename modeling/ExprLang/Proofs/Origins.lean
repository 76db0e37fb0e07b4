import ExprLang.Proofs.Failing
import ExprLang.Template

/-!
# Where objects come from

A context only ever learns. Evaluation, in whatever way it is started and whether it succeeds or fails, leaves the
variables as they are and puts its productions behind those that the context knows (`Context.Extends`); declarations
and assignments do not touch the productions. So the origin of an object stays for the whole life of the context, and
an expression that hands on an object that exists already, as a group does, leaves it the place where it was produced
first (`Expr.HandsOn`).

* `Expr.run_keeps`: one case for each kind of node.
* `Context.origin_useAll`: any uses of a context, one after the other.
* `Expr.run_object`: what a node records of an object.
-/

namespace ExprLang

/-! ## Contexts that know more -/

/-- The later context has the same variables, and further productions behind those of the earlier one. The trace has
the newest first. -/
structure Context.Extends (c c' : Context) : Prop where
  store : c'.store = c.store
  trace : c.trace <:+ c'.trace

namespace Context

variable {c c' c'' : Context} {v : Value} {l : Location}

theorem Extends.refl (c : Context) : c.Extends c := ⟨rfl, List.suffix_refl _⟩

theorem Extends.trans (h : c.Extends c') (h' : c'.Extends c'') : c.Extends c'' :=
  ⟨h'.store.trans h.store, h.trace.trans h'.trace⟩

theorem extends_supply {α : Type} (c : Context) (s : Supply α) : c.Extends (supply s c).2 := ⟨rfl, List.suffix_refl _⟩

theorem extends_record (c : Context) (v : Value) (place : Option Location) : c.Extends (c.record v place) := by
  refine ⟨Evaluation.store_record v place c, ?_⟩
  unfold record
  split
  · exact List.suffix_cons _ _
  · exact List.suffix_refl _

theorem extends_produce (c : Context) (e : Expr) (v : Value) : c.Extends (c.produce e v).2 :=
  (c.extends_supply v.stamp).trans (extends_record _ _ _)

theorem origin_of_suffix (h : c.trace <:+ c'.trace) (hv : c.origin v = some l) : c'.origin v = some l := by
  obtain ⟨m, hm, hl⟩ := Option.bind_eq_some_iff.1 hv
  obtain ⟨newer, hnewer⟩ := h
  rw [origin, hm, Option.bind_some, ← hnewer, List.reverse_append, List.lookup_append, hl, Option.some_or]

end Context

/-! ## Evaluation -/

/-- From every context the evaluation, failing or not, leads to one that extends it. -/
def Evaluation.Keeps {α : Type} (x : Evaluation α) : Prop := ∀ c : Context, c.Extends (x c).2

namespace Evaluation

variable {α β : Type}

theorem keeps_pure (a : α) : Keeps (pure a) := Context.Extends.refl

theorem keeps_result (r : Except Error α) : Keeps (result r) := Context.Extends.refl

theorem Keeps.bind {x : Evaluation α} {k : α → Evaluation β} (hx : x.Keeps) (hk : ∀ a, (k a).Keeps) :
    Keeps (x >>= k) := by
  intro c
  have hfirst := hx c
  rw [bind_apply]
  split
  · next a c' hrun =>
    rw [hrun] at hfirst
    exact hfirst.trans (hk a c')
  · next hrun =>
    rw [hrun] at hfirst
    exact hfirst

theorem Keeps.settle {mode : Mode} {e : Expr} {step : Evaluation Value} (h : step.Keeps) :
    Keeps (settle mode e step) := by
  intro c
  have hstep := h c
  unfold Evaluation.settle
  rcases hrun : step c with ⟨err | v, c'⟩
  · rw [hrun] at hstep
    dsimp only
    split
    · exact hstep.trans (c'.extends_supply (Value.stamp .undefined))
    · exact hstep
  · rw [hrun] at hstep
    exact hstep.trans (c'.extends_produce e v)

end Evaluation

open Evaluation (Keeps keeps_pure keeps_result)

mutual

theorem Expr.run_keeps (mode : Mode) : ∀ e : Expr, Keeps (e.run mode)
  | .literal _ _ => (keeps_result _).settle
  | .var _ _ => Keeps.settle Context.Extends.refl
  | .array _ items => ((runItems_keeps mode items).bind fun _ => keeps_pure _).settle
  | .map _ entries => ((runEntries_keeps mode entries).bind fun _ => keeps_pure _).settle
  | .unary _ _ a => ((Expr.run_keeps mode a).bind fun _ => keeps_result _).settle
  | .binary _ op a b => by
    refine ((Expr.run_keeps mode a).bind fun v => ?_).settle
    cases op.afterLeft v with
    | done r => exact keeps_result r
    | right finish => exact (Expr.run_keeps mode b).bind fun _ => keeps_result _
  | .subscript _ a b => by
    refine ((Expr.run_keeps mode a).bind fun _ => (Expr.run_keeps mode b).bind fun _ => ?_).settle
    exact Context.Extends.refl
  | .switch _ cases => (runCases_keeps mode cases).settle

theorem runItems_keeps (mode : Mode) : ∀ es : List Expr, Keeps (runItems mode es)
  | [] => keeps_pure _
  | e :: es => (Expr.run_keeps mode e).bind fun _ => (keeps_result _).bind fun _ =>
      (runItems_keeps mode es).bind fun _ => keeps_pure _

theorem runEntries_keeps (mode : Mode) : ∀ es : List (String × Expr), Keeps (runEntries mode es)
  | [] => keeps_pure _
  | (_, e) :: es => (Expr.run_keeps mode e).bind fun _ => (runEntries_keeps mode es).bind fun _ => keeps_pure _

theorem runCases_keeps (mode : Mode) : ∀ es : List Expr, Keeps (runCases mode es)
  | [] => keeps_pure _
  | e :: es => (Expr.run_keeps mode e).bind fun v => by
    split
    · exact runCases_keeps mode es
    · exact keeps_pure v

end

theorem Expr.extends_evaluate (e : Expr) (c : Context) : c.Extends (e.evaluate c).2 := e.run_keeps .strict c

theorem Expr.extends_tryEvaluate (e : Expr) (c : Context) : c.Extends (e.tryEvaluate c).2 := by
  have hrun := e.run_keeps .lenient c
  unfold tryEvaluate
  split
  · next heq =>
    rw [heq] at hrun
    exact hrun
  · next c' heq =>
    rw [heq] at hrun
    exact hrun.trans (c'.extends_supply _)

namespace Template

theorem span_keeps (c : Cursor) : Keeps (span c) := by
  refine (keeps_result _).bind fun e => (keeps_result _).bind fun _ => ?_
  refine Keeps.bind (fun ctx => ctx.extends_supply e.stamp) fun e => (e.run_keeps .strict).bind fun v => ?_
  exact (keeps_result _).bind fun _ => keeps_pure _

theorem expandFrom_keeps (n : Nat) (c : Cursor) : Keeps (expandFrom n c) := by
  induction n generalizing c with
  | zero => exact keeps_pure _
  | succ n ih =>
    rw [expandFrom]
    dsimp only
    split
    · exact (span_keeps _).bind fun p => (ih p.2).bind fun _ => keeps_pure _
    · exact keeps_pure _

theorem extends_expand (template : String) (c : Context) : c.Extends (expand template c).2 :=
  let start := Cursor.start template .start
  expandFrom_keeps (start.rest.length + 1) start c

end Template

/-! ## The life of a context -/

namespace Context

/-- What a context is used for. -/
inductive Use where
  | evaluate (e : Expr)
  | tryEvaluate (e : Expr)
  | expand (template : String)
  | declare (name : String) (v : Value)
  | assign (name : String) (v : Value)

/-- The context after one use. -/
def use (c : Context) : Use → Context
  | .evaluate e => (e.evaluate c).2
  | .tryEvaluate e => (e.tryEvaluate c).2
  | .expand template => (Template.expand template c).2
  | .declare name v => (c.declare name v).2
  | .assign name v => (c.assign name v).2

/-- The context after one use and the other. -/
def useAll (c : Context) (us : List Use) : Context := us.foldl use c

variable {c : Context} {v : Value} {l : Location}

theorem trace_declare (c : Context) (name : String) (w : Value) : (c.declare name w).2.trace = c.trace := by
  unfold declare
  dsimp only
  split <;> rfl

theorem trace_assign (c : Context) (name : String) (w : Value) : (c.assign name w).2.trace = c.trace := by
  unfold assign
  dsimp only
  split <;> rfl

theorem trace_use (c : Context) (u : Use) : c.trace <:+ (c.use u).trace := by
  cases u with
  | evaluate e => exact (e.extends_evaluate c).trace
  | tryEvaluate e => exact (e.extends_tryEvaluate c).trace
  | expand template => exact (Template.extends_expand template c).trace
  | declare name w => exact (trace_declare c name w).symm ▸ List.suffix_refl _
  | assign name w => exact (trace_assign c name w).symm ▸ List.suffix_refl _

theorem trace_useAll (c : Context) (us : List Use) : c.trace <:+ (c.useAll us).trace := by
  induction us generalizing c with
  | nil => exact List.suffix_refl _
  | cons u us ih => exact (c.trace_use u).trans (ih (c.use u))

theorem origin_useAll (h : c.origin v = some l) (us : List Use) : (c.useAll us).origin v = some l :=
  origin_of_suffix (c.trace_useAll us) h

end Context

/-! ## Objects that are handed on -/

/-- The step of a node gives an object that exists already: the literal, the value of a variable, what is in the
parentheses, the right side of a case whose condition holds, or the first case that is not undefined. The contexts are
those before the step and after it. -/
inductive Expr.HandsOn (mode : Mode) : Expr → Context → Value → Context → Prop
  | literal {l : Option Location} {v : Value} {c : Context} : HandsOn mode (.literal l v) c v c
  | var {l : Option Location} {name : String} {c : Context} : HandsOn mode (.var l name) c (c.lookup name) c
  | group {l : Option Location} {a : Expr} {v : Value} {c c' : Context} :
      a.run mode c = (.ok v, c') → v.isUndefined = false → HandsOn mode (.unary l .group a) c v c'
  | guarded {l : Option Location} {a b : Expr} {u v : Value} {c c' c'' : Context} :
      a.run mode c = (.ok u, c') → u.isUndefined = false → u.toBoolean = .ok true → b.run mode c' = (.ok v, c'') →
      HandsOn mode (.binary l .guarded a b) c v c''
  | switch {l : Option Location} {before after : List Expr} {e : Expr} {u v : Value} {c c' c'' : Context} :
      runCases mode before c = (.ok u, c') → u.isUndefined = true → e.run mode c' = (.ok v, c'') →
      v.isUndefined = false → HandsOn mode (.switch l (before ++ e :: after)) c v c''

open Evaluation (bind_ok)

namespace Expr

variable {mode : Mode} {e : Expr} {v : Value} {c c' c'' : Context}

theorem HandsOn.step_eq (h : e.HandsOn mode c v c') : e.step mode c = (.ok v, c') := by
  cases h with
  | literal | var => rfl
  | group ha hv =>
    refine bind_ok.2 ⟨_, _, ha, ?_⟩
    rw [UnaryOp.apply, if_neg (by simp [hv])]
    rfl
  | @guarded _ _ _ u _ _ _ _ ha hu hcondition hb =>
    have hdemand : BinaryOp.afterLeft u .guarded = .right .ok := by
      rw [BinaryOp.afterLeft, Value.guarded, if_neg (by simp [hu]), hcondition]
    refine bind_ok.2 ⟨_, _, ha, ?_⟩
    rw [hdemand]
    exact bind_ok.2 ⟨_, _, hb, rfl⟩
  | switch hbefore hu he hv =>
    rw [step, runCases_append]
    refine bind_ok.2 ⟨_, _, hbefore, ?_⟩
    rw [if_pos hu, runCases]
    refine bind_ok.2 ⟨_, _, he, ?_⟩
    rw [if_neg (by simp [hv])]
    rfl

end Expr

namespace Context

variable {v : Value}

theorem object_of_mark (hv : v.mark.isSome = true) (c : Context) : c.object v = (v, c) := by
  obtain ⟨_ | m, content⟩ := v
  · cases hv
  · rfl

theorem mark_object (v : Value) (c : Context) : (c.object v).1.mark.isSome = true := by
  obtain ⟨_ | m, content⟩ := v
  · cases content <;> rfl
  · rfl

/-- The first production of an object counts. -/
theorem origin_record_self (hv : v.mark.isSome = true) (place : Option Location) (c : Context) :
    (c.record v place).origin v = (c.origin v).or place := by
  obtain ⟨m, hm⟩ := Option.isSome_iff_exists.1 hv
  cases place with
  | none =>
    rw [Option.or_none]
    simp only [record, hm]
  | some l =>
    simp only [record, origin, hm, Option.bind_some, List.reverse_cons, List.lookup_append, List.lookup_cons,
      beq_self_eq_true]

end Context

namespace Expr

variable {mode : Mode} {e : Expr} {v w : Value} {c c' : Context}

/-- An object that the step of a node gives is the value of the node, which records it. -/
theorem run_object (hstep : e.step mode c = (.ok v, c')) (hv : v.mark.isSome = true) :
    e.run mode c = (.ok v, c'.record v e.location) := by
  rw [run_eq_settle, Evaluation.settle, hstep]
  dsimp only
  rw [Context.produce, Context.object_of_mark hv]

/-- What a node with a location gives has an origin. -/
theorem evaluate_origin {l : Location} (h : e.evaluate c = (.ok v, c')) (hl : e.location = some l) :
    ∃ l', c'.origin v = some l' := by
  rw [evaluate, run_eq_settle, Evaluation.settle] at h
  rcases hstep : e.step .strict c with ⟨err | w, d⟩
  · rw [hstep] at h
    dsimp only at h
    rw [if_neg (by simp)] at h
    cases h
  · rw [hstep] at h
    obtain ⟨rfl, rfl⟩ : (d.produce e w).1 = v ∧ (d.produce e w).2 = c' := by simpa using h
    rw [Context.produce, hl, Context.origin_record_self (Context.mark_object w d)]
    cases (d.object w).2.origin (d.object w).1 with
    | none => exact ⟨l, rfl⟩
    | some first => exact ⟨first, rfl⟩

/-- Evaluation, in whatever way it is started and even if it fails, changes neither the variables nor the origins that
are known. An origin stays for the whole life of the context, that of a value that was just produced, too, and an
expression that hands on an object gives it a place only if it has none yet. -/
theorem evaluate_keeps_origins (c : Context) :
    (∀ e : Expr, c.Extends (e.evaluate c).2 ∧ c.Extends (e.tryEvaluate c).2) ∧
      (∀ template, c.Extends (Template.expand template c).2) ∧
      (∀ us (v : Value) l, c.origin v = some l → (c.useAll us).origin v = some l) ∧
      (∀ (e : Expr) v c' l, e.evaluate c = (.ok v, c') → e.location = some l →
        ∃ l', c'.origin v = some l' ∧ ∀ us, (c'.useAll us).origin v = some l') ∧
      ∀ mode (e : Expr) v c', e.HandsOn mode c v c' → v.mark.isSome = true →
        ∃ c'', e.run mode c = (.ok v, c'') ∧ c'.Extends c'' ∧ c''.origin v = (c'.origin v).or e.location := by
  refine ⟨fun e => ⟨e.extends_evaluate c, e.extends_tryEvaluate c⟩, fun t => Template.extends_expand t c,
    fun us v l h => Context.origin_useAll h us, fun e v c' l h hl => ?_, fun mode e v c' h hv => ?_⟩
  · obtain ⟨l', hl'⟩ := evaluate_origin h hl
    exact ⟨l', hl', Context.origin_useAll hl'⟩
  · exact ⟨_, run_object h.step_eq hv, Context.extends_record _ _ _, Context.origin_record_self hv _ _⟩

/-- The value of a variable has its place from the first time that it was asked for, in parentheses later and even when
the variable has another value. -/
theorem evaluate_keeps_origins_variable :
    let c := ((var (some ⟨1, 1⟩) "x").evaluate (.ofStore [("x", .string "a")] 0)).2
    let later := unary (some ⟨2, 1⟩) .group (var (some ⟨2, 2⟩) "x")
    let v := c.lookup "x"
    c.origin v = some ⟨1, 1⟩ ∧ (∃ c'', later.run .strict c = (.ok v, c'') ∧ c''.origin v = some ⟨1, 1⟩) ∧
      (c.useAll [.evaluate later, .assign "x" .null, .expand "${x}"]).origin v = some ⟨1, 1⟩ := by
  intro c later v
  have horigin : c.origin v = some ⟨1, 1⟩ := rfl
  obtain ⟨-, -, hlife, -, hhanded⟩ := evaluate_keeps_origins c
  obtain ⟨c'', hrun, -, hc''⟩ := hhanded .strict later v _ (.group rfl rfl) rfl
  exact ⟨horigin, ⟨c'', hrun, hc''⟩, hlife _ v _ horigin⟩

end Expr

end ExprLang
