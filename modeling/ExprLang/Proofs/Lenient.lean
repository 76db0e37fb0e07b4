import ExprLang.Proofs.Failing
import ExprLang.Proofs.Folding.Meaning
import Mathlib.Logic.Relation

/-!
# Lenient evaluation

Lenient evaluation is strict evaluation with undefined in the place of what fails.

* `Expr.run_refines`: where strict evaluation succeeds, the lenient one does the same.
* `Expr.StepFails.denote`: where a node fails by itself, the lenient one sees undefined.
* `Frame.denote_fillAll_congr`: what it sees of an operand is all that counts.

A failing occurrence can therefore be replaced by undefined (`Expr.Mends`), again and again until
strict evaluation succeeds, with the value that lenient evaluation has had all along.
-/

namespace ExprLang

/-! ## Strict success -/

/-- Whenever the one evaluation succeeds, the other does with the same value and the same context. -/
def Evaluation.Refines {α : Type} (x y : Evaluation α) : Prop := ∀ c a c', x c = (.ok a, c') → y c = (.ok a, c')

namespace Evaluation.Refines

variable {α β : Type}

theorem refl (x : Evaluation α) : Refines x x := fun _ _ _ h => h

theorem bind {x y : Evaluation α} {k l : α → Evaluation β} (h : Refines x y) (hk : ∀ a, Refines (k a) (l a)) :
    Refines (x >>= k) (y >>= l) := by
  intro c b c'' hxk
  obtain ⟨a, c', hx, hb⟩ := bind_ok.1 hxk
  exact bind_ok.2 ⟨a, c', h c a c' hx, hk a c' b c'' hb⟩

theorem settle {e : Expr} {x y : Evaluation Value} (h : Refines x y) :
    Refines (settle .strict e x) (settle .lenient e y) := by
  intro c v c' hx
  unfold Evaluation.settle at hx ⊢
  cases hc : x c with
  | mk outcome c₁ =>
    rw [hc] at hx
    cases outcome with
    | ok w =>
      rw [h c w c₁ hc]
      exact hx
    | error err => cases hx

end Evaluation.Refines

open Evaluation (Refines)

mutual

theorem Expr.run_refines : ∀ e : Expr, Refines (e.run .strict) (e.run .lenient)
  | .literal l v => (Refines.refl _).settle
  | .var l name => (Refines.refl _).settle
  | .array l items => ((runItems_refines items).bind fun _ => .refl _).settle
  | .map l entries => ((runEntries_refines entries).bind fun _ => .refl _).settle
  | .unary l op a => ((Expr.run_refines a).bind fun _ => .refl _).settle
  | .binary l op a b => by
    refine ((Expr.run_refines a).bind fun v => ?_).settle
    cases op.afterLeft v with
    | done r => exact .refl _
    | right finish => exact (Expr.run_refines b).bind fun _ => .refl _
  | .subscript l a b => ((Expr.run_refines a).bind fun _ => (Expr.run_refines b).bind fun _ => .refl _).settle
  | .switch l cases => (runCases_refines cases).settle

theorem runItems_refines : ∀ es : List Expr, Refines (runItems .strict es) (runItems .lenient es)
  | [] => .refl _
  | e :: es => (Expr.run_refines e).bind fun _ => (Refines.refl _).bind fun _ =>
    (runItems_refines es).bind fun _ => .refl _

theorem runEntries_refines : ∀ es : List (String × Expr), Refines (runEntries .strict es) (runEntries .lenient es)
  | [] => .refl _
  | (_, e) :: es => (Expr.run_refines e).bind fun _ => (runEntries_refines es).bind fun _ => .refl _

theorem runCases_refines : ∀ es : List Expr, Refines (runCases .strict es) (runCases .lenient es)
  | [] => .refl _
  | e :: es => (Expr.run_refines e).bind fun v => by
    split
    · exact runCases_refines es
    · exact .refl _

end

theorem Expr.tryEvaluate_of_evaluate {e : Expr} {c c' : Context} {v : Value} (h : e.evaluate c = (.ok v, c')) :
    e.tryEvaluate c = (v, c') := by
  have hlenient : e.run .lenient c = (.ok v, c') := run_refines e c v c' h
  rw [tryEvaluate, hlenient]

/-! ## A failing node -/

variable {c c' : Context} {r : Error}

/-- The operands that a node fetches have the same values in lenient evaluation. -/
theorem Expr.StepFails.lenient {n : Expr} (h : n.StepFails .strict c r) : n.StepFails .lenient c r := by
  cases h with
  | splice hbefore he hv => exact .splice (runItems_refines _ _ _ _ hbefore) (run_refines _ _ _ _ he) hv
  | unary ha hv => exact .unary (run_refines _ _ _ _ ha) hv
  | left ha hd => exact .left (run_refines _ _ _ _ ha) hd
  | right ha hd hb hw => exact .right (run_refines _ _ _ _ ha) hd (run_refines _ _ _ _ hb) hw
  | subscript ha hb hv => exact .subscript (run_refines _ _ _ _ ha) (run_refines _ _ _ _ hb) hv

theorem Evaluation.settle_lenient_error {e : Expr} {x : Evaluation Value} (hx : (x c).1 = .error r)
    (hfamily : r.bare.isEvaluation = true) : ∃ v, (settle .lenient e x c).1 = .ok v ∧ v.bare = .undefined := by
  unfold settle
  cases hc : x c with
  | mk outcome c' =>
    rw [hc] at hx
    cases hx
    have hblame : (e.blame r).isEvaluation = true := by rw [Expr.blame_eq, Error.isEvaluation_inExpression, hfamily]
    dsimp only
    rw [if_pos ⟨rfl, hblame⟩]
    exact ⟨_, rfl, Value.bare_stamp .undefined c'.next⟩

/-- A node that fails by itself means undefined to lenient evaluation. -/
theorem Expr.StepFails.denote {n : Expr} (h : n.StepFails .strict c r) :
    n.denote .lenient c.store.values = .ok .undefined := by
  obtain ⟨v, hv, hbare⟩ := Evaluation.settle_lenient_error (e := n) h.lenient.step_error h.raised.isEvaluation
  rw [← run_eq_settle] at hv
  obtain ⟨-, agrees⟩ := run_yields .lenient c.store n c rfl
  rw [hv] at agrees
  rw [agrees.eq_ok, hbare]

namespace Frame

/-! ## What fills a frame -/

/-- Coming to a hole does not touch the variables. -/
theorem Reaches.store_eq {mode : Mode} {F : Frame} (h : F.Reaches mode c c') : c'.store = c.store := by
  cases h with
  | @item _ before _ _ _ _ hbefore =>
    have h := (runItems_yields mode c.store before c rfl).1
    rwa [hbefore] at h
  | @entry _ before _ _ _ _ _ hbefore =>
    have h := (runEntries_yields mode c.store before c rfl).1
    rwa [hbefore] at h
  | operand | left | base => rfl
  | @right _ _ a _ _ _ _ ha | @index _ a _ _ _ ha =>
    have h := (Expr.run_yields mode c.store a c rfl).1
    rwa [ha] at h
  | @case _ before _ _ _ _ hbefore =>
    have h := (runCases_yields mode c.store before c rfl).1
    rwa [hbefore] at h

theorem ReachesAll.store_eq {mode : Mode} {Fs : List Frame} (h : ReachesAll mode Fs c c') : c'.store = c.store := by
  induction h with
  | nil => rfl
  | cons hF _ ih => rw [ih, hF.store_eq]

variable {mode : Mode} {σ : String → Value} {n m : Expr} (h : n.denote mode σ = m.denote mode σ)

include h

theorem denoteItems_congr (before after : List Expr) :
    denoteItems mode σ (before ++ n :: after) = denoteItems mode σ (before ++ m :: after) := by
  induction before with
  | nil => rw [List.nil_append, List.nil_append, denoteItems, denoteItems, h]
  | cons e before ih => rw [List.cons_append, List.cons_append, denoteItems, denoteItems, ih]

theorem denoteEntries_congr (before after : List (String × Expr)) (key : String) :
    denoteEntries mode σ (before ++ (key, n) :: after) = denoteEntries mode σ (before ++ (key, m) :: after) := by
  induction before with
  | nil => rw [List.nil_append, List.nil_append, denoteEntries, denoteEntries, h]
  | cons e before ih => rw [List.cons_append, List.cons_append, denoteEntries, denoteEntries, ih]

theorem denoteCases_congr (before after : List Expr) :
    denoteCases mode σ (before ++ n :: after) = denoteCases mode σ (before ++ m :: after) := by
  induction before with
  | nil => rw [List.nil_append, List.nil_append, denoteCases, denoteCases, h]
  | cons e before ih => rw [List.cons_append, List.cons_append, denoteCases, denoteCases, ih]

theorem denote_fill_congr (F : Frame) : (F.fill n).denote mode σ = (F.fill m).denote mode σ := by
  cases F with
  | item l before after => simp only [fill, Expr.denote, denoteItems_congr h]
  | entry l before key after => simp only [fill, Expr.denote, denoteEntries_congr h]
  | case l before after => simp only [fill, Expr.denote, denoteCases_congr h]
  | _ => simp only [fill, Expr.denote, h]

/-- An expression means the same with another one of the same meaning in its place. -/
theorem denote_fillAll_congr (Fs : List Frame) : (fillAll n Fs).denote mode σ = (fillAll m Fs).denote mode σ := by
  induction Fs with
  | nil => exact h
  | cons F Fs ih => exact denote_fill_congr ih F

end Frame

/-! ## Failing sub-expressions replaced -/

open ExprLang.Frame (fillAll blameAll)

namespace Expr

theorem FailsAt.tryEvaluate {e n : Expr} {Fs : List Frame} (h : e.FailsAt c Fs n r) (l : Option Location) {u : Value}
    (hu : u.isUndefined = true) : ((fillAll (.literal l u) Fs).tryEvaluate c).1.bare = (e.tryEvaluate c).1.bare := by
  obtain ⟨rfl, c', hFs, hn⟩ := h
  have hmeaning := hn.denote
  rw [hFs.store_eq] at hmeaning
  have hliteral : (literal l u).denote .lenient c.store.values = .ok .undefined := by
    obtain ⟨m, content⟩ := u
    cases content with
    | undefined => rfl
    | _ => cases hu
  rw [tryEvaluate_bare, tryEvaluate_bare, Frame.denote_fillAll_congr (hliteral.trans hmeaning.symm) Fs]

/-- A failing occurrence replaced by undefined. -/
inductive Mends (c : Context) : Expr → Expr → Prop
  | replace {e n : Expr} {Fs : List Frame} {r : Error} {l : Option Location} {u : Value} :
      e.FailsAt c Fs n r → u.isUndefined = true → Mends c e (fillAll (.literal l u) Fs)

/-- A node that fails by itself has operands. -/
theorem StepFails.one_lt_length_nodes {mode : Mode} {n : Expr} (h : n.StepFails mode c r) : 1 < n.nodes.length := by
  cases h with
  | @splice l before after e => exact (Frame.item l before after).one_lt_length_nodes e
  | @unary l op a => exact (Frame.operand l op).one_lt_length_nodes a
  | @left l op a b | @right l op a b => exact (Frame.left l op b).one_lt_length_nodes a
  | @subscript l a b => exact (Frame.base l b).one_lt_length_nodes a

theorem Mends.length_nodes_lt {e f : Expr} (h : e.Mends c f) : f.nodes.length < e.nodes.length := by
  obtain ⟨⟨rfl, c', -, hn⟩, -⟩ := h
  exact Frame.length_nodes_fillAll_lt (m := .literal _ _) hn.one_lt_length_nodes _

theorem Mends.tryEvaluate {e f : Expr} (h : e.Mends c f) : (f.tryEvaluate c).1.bare = (e.tryEvaluate c).1.bare := by
  obtain ⟨hfails, hu⟩ := h
  exact hfails.tryEvaluate _ hu

/-- Replacing failing occurrences comes to an end, where strict evaluation gives the lenient value of the
expression. -/
theorem exists_mended (e : Expr) (c : Context) : ∃ f v, Relation.ReflTransGen (Mends c) e f ∧
    (f.evaluate c).1 = .ok v ∧ v.bare = (e.tryEvaluate c).1.bare := by
  -- a node that fails has operands, and undefined has none: each replacement makes the expression smaller
  induction hsize : e.nodes.length using Nat.strongRecOn generalizing e with
  | ind size ih =>
    cases he : (e.evaluate c).1 with
    | ok v =>
      have hsame : e.tryEvaluate c = (v, (e.evaluate c).2) := tryEvaluate_of_evaluate (by rw [← he])
      exact ⟨e, v, .refl, he, by rw [hsame]⟩
    | error err =>
      obtain ⟨Fs, n, r, hfails, -⟩ := evaluate_error_iff.1 he
      have hmends : e.Mends c (fillAll (.literal none .undefined) Fs) := .replace hfails rfl
      obtain ⟨f, v, hf, hv, hbare⟩ := ih _ (hsize ▸ hmends.length_nodes_lt) _ rfl
      exact ⟨f, v, .head hmends hf, hv, by rw [hbare, hmends.tryEvaluate]⟩

/-- Lenient evaluation is strict evaluation with undefined in the place of the sub-expressions that fail. What
succeeds has the same value in both. What fails does so at an occurrence, and with undefined there in place of the node
the lenient value is the same. Doing this again and again ends with an expression that has the value strictly. -/
theorem tryEvaluate_replaces (e : Expr) (c : Context) :
    (∀ v c', e.evaluate c = (.ok v, c') → e.tryEvaluate c = (v, c')) ∧
    (∀ err, (e.evaluate c).1 = .error err → ∃ Fs n r, e.FailsAt c Fs n r ∧ err = blameAll n r Fs) ∧
    (∀ Fs n r, e.FailsAt c Fs n r → ∀ l u, u.isUndefined = true →
      ((fillAll (.literal l u) Fs).tryEvaluate c).1.bare = (e.tryEvaluate c).1.bare) ∧
    ∃ f v, Relation.ReflTransGen (Mends c) e f ∧ (f.evaluate c).1 = .ok v ∧ v.bare = (e.tryEvaluate c).1.bare := by
  refine ⟨?_, ?_, ?_, exists_mended e c⟩
  · intro v c' h
    exact tryEvaluate_of_evaluate h
  · intro err h
    exact evaluate_error_iff.1 h
  · intro Fs n r h l u hu
    exact h.tryEvaluate l hu

/-- A negation that fails, in a switch with another case. -/
def negatedMapCase : Expr := .unary none .not (.literal none (.map []))

theorem tryEvaluate_replaces_case :
    let other := Expr.literal none (.string "a")
    let e : Expr := .switch none [negatedMapCase, other]
    let Fs := [Frame.case none [] [other]]
    e.FailsAt .empty Fs negatedMapCase (Value.invalidOperand (.map [])) ∧
      (e.evaluate .empty).1 ≠ .ok (.string "a") ∧ (e.tryEvaluate .empty).1.bare = .string "a" ∧
      ((fillAll (.literal none .undefined) Fs).tryEvaluate .empty).1.bare = (e.tryEvaluate .empty).1.bare := by
  intro other e Fs
  have hfails : e.FailsAt .empty Fs negatedMapCase (Value.invalidOperand (.map [])) :=
    ⟨rfl, .empty, .cons (.case rfl rfl) .nil, .unary rfl rfl⟩
  refine ⟨hfails, ?_, rfl, (tryEvaluate_replaces e .empty).2.2.1 Fs _ _ hfails none .undefined rfl⟩
  rw [hfails.evaluate]
  exact fun h => by cases h

end Expr

end ExprLang
