import ExprLang.Proofs.Denotation
import ExprLang.Proofs.Frames
import ExprLang.Proofs.Parts
import ExprLang.Proofs.Raised

/-!
# Where an evaluation fails

Evaluation comes to the hole of a frame when the operands before it have values and the node demands
this one (`Frame.Reaches`). A node fails by itself when the operands that it fetches have values and
the step that it takes with them raises an error (`Expr.StepFails`).

* `Expr.step_error_cases`: what a node does before its outcome is settled fails because the node fails
  by itself, or because the operand that evaluation comes to does.
* `Expr.evaluate_error_iff`: so an evaluation fails exactly where one node fails by itself, at an
  occurrence that it comes to (`Expr.FailsAt`); the error is handed out through all frames.
* `Expr.evaluate_error_innermost`: with locations in the tree, no frame changes it.
* `Expr.run_lenient_ok`: every error is one that lenient evaluation replaces.
-/

namespace ExprLang

/-! ## Runs of lists -/

namespace Evaluation

variable {α β : Type} {x : Evaluation α} {k : α → Evaluation β} {c : Context}

theorem bind_ok {b : β} {c'' : Context} :
    (x >>= k) c = (.ok b, c'') ↔ ∃ a c', x c = (.ok a, c') ∧ k a c' = (.ok b, c'') := by
  rw [bind_apply]
  rcases x c with ⟨_ | a, c'⟩
  · exact ⟨fun h => (by cases h), fun ⟨_, _, h, _⟩ => (by cases h)⟩
  · exact ⟨fun h => ⟨a, c', rfl, h⟩, fun ⟨_, _, h, hk⟩ => by cases h; exact hk⟩

theorem bind_error {err : Error} :
    ((x >>= k) c).1 = .error err ↔
      (x c).1 = .error err ∨ ∃ a c', x c = (.ok a, c') ∧ (k a c').1 = .error err := by
  rw [bind_apply]
  rcases x c with ⟨_ | a, c'⟩
  · constructor
    · intro h
      cases h
      exact .inl rfl
    · rintro (h | ⟨_, _, h, _⟩)
      · cases h
        rfl
      · cases h
  · refine ⟨fun h => .inr ⟨a, c', rfl, h⟩, ?_⟩
    rintro (h | ⟨_, _, h, hk⟩)
    · cases h
    · cases h
      exact hk

theorem pure_error {a : α} {err : Error} : ¬ ((pure a : Evaluation α) c).1 = .error err :=
  fun h => by cases h

end Evaluation

open Evaluation (bind_ok bind_error pure_error)

variable {mode : Mode} {c c' : Context} {err r : Error}

theorem runItems_append (mode : Mode) (es fs : List Expr) :
    runItems mode (es ++ fs) = do return (← runItems mode es) ++ (← runItems mode fs) := by
  induction es with
  | nil => simp [runItems]
  | cons e es ih => simp only [List.cons_append, runItems, ih, bind_assoc, pure_bind, List.append_assoc]

theorem runEntries_append (mode : Mode) (es fs : List (String × Expr)) :
    runEntries mode (es ++ fs) = do return (← runEntries mode es) ++ (← runEntries mode fs) := by
  induction es with
  | nil => simp [runEntries]
  | cons e es ih => simp only [List.cons_append, runEntries, ih, bind_assoc, pure_bind]

theorem runCases_append (mode : Mode) (es fs : List Expr) : runCases mode (es ++ fs) = do
    let v ← runCases mode es
    if v.isUndefined then runCases mode fs else return v := by
  induction es with
  | nil =>
    rw [List.nil_append, runCases, pure_bind]
    rfl
  | cons e es ih =>
    simp only [List.cons_append, runCases, ih, bind_assoc]
    refine bind_congr fun v => ?_
    split
    · rfl
    · next hv => rw [pure_bind, if_neg hv]

/-- Evaluating items fails at the first of them that has no value, or whose value cannot be spliced. -/
theorem runItems_error {es : List Expr} (h : (runItems mode es c).1 = .error err) :
    ∃ before e after vs c', es = before ++ e :: after ∧ runItems mode before c = (.ok vs, c') ∧
      ((e.run mode c').1 = .error err ∨ ∃ v c'', e.run mode c' = (.ok v, c'') ∧ v.splice = .error err) := by
  induction es generalizing c with
  | nil => exact absurd h pure_error
  | cons e es ih =>
    rw [runItems] at h
    rcases bind_error.1 h with he | ⟨v, c₁, hv, h⟩
    · exact ⟨[], e, es, [], c, rfl, rfl, .inl he⟩
    · rcases bind_error.1 h with hs | ⟨vs, c₂, hvs, h⟩
      · exact ⟨[], e, es, [], c, rfl, rfl, .inr ⟨v, c₁, hv, hs⟩⟩
      · rcases bind_error.1 h with hes | ⟨_, _, _, h⟩
        · obtain ⟨before, f, after, ws, c', rfl, hws, hf⟩ := ih hes
          refine ⟨e :: before, f, after, vs ++ ws, c', rfl, ?_, hf⟩
          rw [runItems]
          exact bind_ok.2 ⟨v, c₁, hv, bind_ok.2 ⟨vs, c₂, hvs, bind_ok.2 ⟨ws, c', hws, rfl⟩⟩⟩
        · exact absurd h pure_error

theorem runEntries_error {es : List (String × Expr)} (h : (runEntries mode es c).1 = .error err) :
    ∃ before k e after vs c', es = before ++ (k, e) :: after ∧ runEntries mode before c = (.ok vs, c') ∧
      (e.run mode c').1 = .error err := by
  induction es generalizing c with
  | nil => exact absurd h pure_error
  | cons entry es ih =>
    obtain ⟨k, e⟩ := entry
    rw [runEntries] at h
    rcases bind_error.1 h with he | ⟨v, c₁, hv, h⟩
    · exact ⟨[], k, e, es, [], c, rfl, rfl, he⟩
    · rcases bind_error.1 h with hes | ⟨_, _, _, h⟩
      · obtain ⟨before, l, f, after, ws, c', rfl, hws, hf⟩ := ih hes
        refine ⟨(k, e) :: before, l, f, after, (k, v) :: ws, c', rfl, ?_, hf⟩
        rw [runEntries]
        exact bind_ok.2 ⟨v, c₁, hv, bind_ok.2 ⟨ws, c', hws, rfl⟩⟩
      · exact absurd h pure_error

/-- Evaluating cases fails at the first of them that has no value, if those before it are undefined. -/
theorem runCases_error {es : List Expr} (h : (runCases mode es c).1 = .error err) :
    ∃ before e after v c', es = before ++ e :: after ∧ runCases mode before c = (.ok v, c') ∧ v.isUndefined = true ∧
      (e.run mode c').1 = .error err := by
  induction es generalizing c with
  | nil => exact absurd h pure_error
  | cons e es ih =>
    rw [runCases] at h
    rcases bind_error.1 h with he | ⟨v, c₁, hv, h⟩
    · exact ⟨[], e, es, .undefined, c, rfl, rfl, rfl, he⟩
    · split at h
      · next hundefined =>
        obtain ⟨before, f, after, w, c', rfl, hw, hu, hf⟩ := ih h
        refine ⟨e :: before, f, after, w, c', rfl, ?_, hu, hf⟩
        rw [runCases]
        refine bind_ok.2 ⟨v, c₁, hv, ?_⟩
        rw [if_pos hundefined]
        exact hw
      · exact absurd h pure_error

/-! ## The step of a node -/

/-- What an expression does before its outcome is settled. -/
def Expr.step (mode : Mode) : Expr → Evaluation Value
  | .literal _ v => Evaluation.result (.ok v)
  | .var _ name => fun c => (.ok (c.lookup name), c)
  | .array _ items => do return .array (← runItems mode items)
  | .map _ entries => do return .map (← runEntries mode entries)
  | .unary _ op a => do Evaluation.result (op.apply (← a.run mode))
  | .binary _ op a b => do
    match op.afterLeft (← a.run mode) with
    | .done r => Evaluation.result r
    | .right finish => Evaluation.result (finish (← b.run mode))
  | .subscript _ a b => do
    let base ← a.run mode
    let index ← b.run mode
    fun c => (base.subscript c.origin index, c)
  | .switch _ cases => runCases mode cases

theorem Expr.run_eq_settle (mode : Mode) (e : Expr) : e.run mode = Evaluation.settle mode e (e.step mode) := by
  cases e <;> rfl

/-- Evaluation of the node in the one context comes to its hole in the other: the operands before the hole have
values, and with them the node goes on to the one in the hole. -/
inductive Frame.Reaches (mode : Mode) : Frame → Context → Context → Prop
  | item {l : Option Location} {before after : List Expr} {vs : List Value} {c c' : Context} :
      runItems mode before c = (.ok vs, c') → Reaches mode (.item l before after) c c'
  | entry {l : Option Location} {before after : List (String × Expr)} {key : String} {vs : Entries Value}
      {c c' : Context} : runEntries mode before c = (.ok vs, c') → Reaches mode (.entry l before key after) c c'
  | operand {l : Option Location} {op : UnaryOp} {c : Context} : Reaches mode (.operand l op) c c
  | left {l : Option Location} {op : BinaryOp} {b : Expr} {c : Context} : Reaches mode (.left l op b) c c
  | right {l : Option Location} {op : BinaryOp} {a : Expr} {v : Value} {finish : Value → Except Error Value}
      {c c' : Context} : a.run mode c = (.ok v, c') → op.afterLeft v = .right finish → Reaches mode (.right l op a) c c'
  | base {l : Option Location} {b : Expr} {c : Context} : Reaches mode (.base l b) c c
  | index {l : Option Location} {a : Expr} {v : Value} {c c' : Context} :
      a.run mode c = (.ok v, c') → Reaches mode (.index l a) c c'
  | case {l : Option Location} {before after : List Expr} {v : Value} {c c' : Context} :
      runCases mode before c = (.ok v, c') → v.isUndefined = true → Reaches mode (.case l before after) c c'

/-- The operands that a node fetches have values, and the step that it takes with them raises an error. -/
inductive Expr.StepFails (mode : Mode) : Expr → Context → Error → Prop
  | splice {l : Option Location} {before after : List Expr} {e : Expr} {vs : List Value} {v : Value}
      {c c' c'' : Context} {r : Error} : runItems mode before c = (.ok vs, c') → e.run mode c' = (.ok v, c'') →
      v.splice = .error r → StepFails mode (.array l (before ++ e :: after)) c r
  | unary {l : Option Location} {op : UnaryOp} {a : Expr} {v : Value} {c c' : Context} {r : Error} :
      a.run mode c = (.ok v, c') → op.apply v = .error r → StepFails mode (.unary l op a) c r
  | left {l : Option Location} {op : BinaryOp} {a b : Expr} {v : Value} {c c' : Context} {r : Error} :
      a.run mode c = (.ok v, c') → op.afterLeft v = .done (.error r) → StepFails mode (.binary l op a b) c r
  | right {l : Option Location} {op : BinaryOp} {a b : Expr} {v w : Value} {finish : Value → Except Error Value}
      {c c' c'' : Context} {r : Error} : a.run mode c = (.ok v, c') → op.afterLeft v = .right finish →
      b.run mode c' = (.ok w, c'') → finish w = .error r → StepFails mode (.binary l op a b) c r
  | subscript {l : Option Location} {a b : Expr} {v w : Value} {c c' c'' : Context} {r : Error} :
      a.run mode c = (.ok v, c') → b.run mode c' = (.ok w, c'') → v.subscript c''.origin w = .error r →
      StepFails mode (.subscript l a b) c r

theorem Expr.StepFails.raised {e : Expr} (h : e.StepFails mode c r) : r.Raised := by
  cases h with
  | splice _ _ hv => exact Value.splice_raises _ _ hv
  | unary _ hv => exact UnaryOp.apply_raises _ _ _ hv
  | @left _ op _ _ v _ _ _ _ hd =>
    have raises := op.afterLeft_raises v
    rw [hd] at raises
    exact raises _ rfl
  | @right _ op _ _ v w _ _ _ _ _ _ hd _ hw =>
    have raises := op.afterLeft_raises v
    rw [hd] at raises
    exact raises w _ hw
  | subscript _ _ hv => exact Value.subscript_raises _ _ _ _ hv

theorem Expr.StepFails.step_error {e : Expr} (h : e.StepFails mode c r) : (e.step mode c).1 = .error r := by
  cases h with
  | splice hbefore he hv =>
    rw [step, runItems_append]
    refine bind_error.2 (.inl (bind_error.2 (.inr ⟨_, _, hbefore, bind_error.2 (.inl ?_)⟩)))
    rw [runItems]
    exact bind_error.2 (.inr ⟨_, _, he, bind_error.2 (.inl hv)⟩)
  | unary ha hv => exact bind_error.2 (.inr ⟨_, _, ha, hv⟩)
  | left ha hd =>
    refine bind_error.2 (.inr ⟨_, _, ha, ?_⟩)
    rw [hd]
    rfl
  | right ha hd hb hw =>
    refine bind_error.2 (.inr ⟨_, _, ha, ?_⟩)
    rw [hd]
    exact bind_error.2 (.inr ⟨_, _, hb, hw⟩)
  | subscript ha hb hv => exact bind_error.2 (.inr ⟨_, _, ha, bind_error.2 (.inr ⟨_, _, hb, hv⟩)⟩)

theorem Frame.Reaches.step_error {F : Frame} {n : Expr} (h : F.Reaches mode c c') (hn : (n.run mode c').1 = .error r) :
    ((F.fill n).step mode c).1 = .error r := by
  cases h with
  | item hbefore =>
    rw [fill, Expr.step, runItems_append]
    refine bind_error.2 (.inl (bind_error.2 (.inr ⟨_, _, hbefore, bind_error.2 (.inl ?_)⟩)))
    rw [runItems]
    exact bind_error.2 (.inl hn)
  | entry hbefore =>
    rw [fill, Expr.step, runEntries_append]
    refine bind_error.2 (.inl (bind_error.2 (.inr ⟨_, _, hbefore, bind_error.2 (.inl ?_)⟩)))
    rw [runEntries]
    exact bind_error.2 (.inl hn)
  | operand | left | base => exact bind_error.2 (.inl hn)
  | right ha hd =>
    refine bind_error.2 (.inr ⟨_, _, ha, ?_⟩)
    rw [hd]
    exact bind_error.2 (.inl hn)
  | index ha => exact bind_error.2 (.inr ⟨_, _, ha, bind_error.2 (.inl hn)⟩)
  | case hbefore hundefined =>
    rw [fill, Expr.step, runCases_append]
    refine bind_error.2 (.inr ⟨_, _, hbefore, ?_⟩)
    rw [if_pos hundefined, runCases]
    exact bind_error.2 (.inl hn)

/-- A step has no value because the node fails by itself, or because the operand that evaluation comes to fails. -/
theorem Expr.step_error_cases {e : Expr} (h : (e.step mode c).1 = .error r) :
    e.StepFails mode c r ∨ ∃ F n c', e = Frame.fill n F ∧ F.Reaches mode c c' ∧ (n.run mode c').1 = .error r := by
  cases e with
  | literal | var => cases h
  | array l items =>
    rcases bind_error.1 h with h | ⟨_, _, _, h⟩
    · obtain ⟨before, e, after, vs, c', rfl, hbefore, he | ⟨v, c'', he, hv⟩⟩ := runItems_error h
      · exact .inr ⟨.item l before after, e, c', rfl, .item hbefore, he⟩
      · exact .inl (.splice hbefore he hv)
    · exact absurd h pure_error
  | map l entries =>
    rcases bind_error.1 h with h | ⟨_, _, _, h⟩
    · obtain ⟨before, k, e, after, vs, c', rfl, hbefore, he⟩ := runEntries_error h
      exact .inr ⟨.entry l before k after, e, c', rfl, .entry hbefore, he⟩
    · exact absurd h pure_error
  | unary l op a =>
    rcases bind_error.1 h with ha | ⟨v, c', ha, hv⟩
    · exact .inr ⟨.operand l op, a, c, rfl, .operand, ha⟩
    · exact .inl (.unary ha hv)
  | binary l op a b =>
    rcases bind_error.1 h with ha | ⟨v, c', ha, h⟩
    · exact .inr ⟨.left l op b, a, c, rfl, .left, ha⟩
    · cases hd : op.afterLeft v with
      | done o =>
        rw [hd] at h
        have ho : o = .error r := h
        rw [ho] at hd
        exact .inl (.left ha hd)
      | right finish =>
        rw [hd] at h
        rcases bind_error.1 h with hb | ⟨w, c'', hb, hw⟩
        · exact .inr ⟨.right l op a, b, c', rfl, .right ha hd, hb⟩
        · exact .inl (.right ha hd hb hw)
  | subscript l a b =>
    rcases bind_error.1 h with ha | ⟨v, c', ha, h⟩
    · exact .inr ⟨.base l b, a, c, rfl, .base, ha⟩
    · rcases bind_error.1 h with hb | ⟨w, c'', hb, hw⟩
      · exact .inr ⟨.index l a, b, c', rfl, .index ha, hb⟩
      · exact .inl (.subscript ha hb hw)
  | switch l es =>
    obtain ⟨before, e, after, v, c', rfl, hbefore, hundefined, he⟩ := runCases_error h
    exact .inr ⟨.case l before after, e, c', rfl, .case hbefore hundefined, he⟩

/-! ## Runs -/

theorem Evaluation.settle_error {e : Expr} {x : Evaluation Value} : (settle mode e x c).1 = .error err ↔
    ∃ r, (x c).1 = .error r ∧ err = e.blame r ∧ ¬ (mode = .lenient ∧ err.isEvaluation) := by
  unfold settle
  rcases x c with ⟨r | v, c'⟩
  · constructor
    · intro h
      dsimp only at h
      split at h
      · cases h
      · next hmode =>
        cases h
        exact ⟨r, rfl, rfl, hmode⟩
    · rintro ⟨_, hr, rfl, hmode⟩
      cases hr
      dsimp only
      rw [if_neg hmode]
  · constructor
    · intro h
      cases h
    · rintro ⟨_, hr, _⟩
      cases hr

namespace Frame

/-- Evaluation comes from the outermost node to the innermost hole. -/
inductive ReachesAll (mode : Mode) : List Frame → Context → Context → Prop
  | nil {c : Context} : ReachesAll mode [] c c
  | cons {F : Frame} {Fs : List Frame} {c c' c'' : Context} :
      F.Reaches mode c c' → ReachesAll mode Fs c' c'' → ReachesAll mode (F :: Fs) c c''

/-- What comes out of all frames when the step of the expression in the innermost hole raises an error: every
node attributes what comes out of its operand. -/
def blameAll (n : Expr) (r : Error) : List Frame → Error
  | [] => n.blame r
  | F :: Fs => (F.fill (fillAll n Fs)).blame (blameAll n r Fs)

theorem bare_blameAll (n : Expr) (r : Error) (Fs : List Frame) : (blameAll n r Fs).bare = r.bare := by
  induction Fs with
  | nil => rw [blameAll, Expr.blame_eq, Error.bare_inExpression]
  | cons F Fs ih => rw [blameAll, Expr.blame_eq, Error.bare_inExpression, ih]

theorem isEvaluation_blameAll (n : Expr) (r : Error) (Fs : List Frame) :
    (blameAll n r Fs).isEvaluation = r.bare.isEvaluation := by
  cases Fs with
  | nil => rw [blameAll, Expr.blame_eq, Error.isEvaluation_inExpression]
  | cons F Fs => rw [blameAll, Expr.blame_eq, Error.isEvaluation_inExpression, bare_blameAll]

/-- The innermost node has the last word, if it has a location. -/
theorem blameAll_of_location {n : Expr} {l : Location} (h : n.location = some l) (r : Error) (Fs : List Frame) :
    blameAll n r Fs = r.inExpression n.text n.location := by
  induction Fs with
  | nil => rw [blameAll, Expr.blame_eq]
  | cons F Fs ih => rw [blameAll, ih, Expr.blame_eq, h, Error.inExpression_inExpression]

theorem ReachesAll.evaluate_error {Fs : List Frame} {n : Expr} (h : ReachesAll .strict Fs c c')
    (hn : n.StepFails .strict c' r) : ((fillAll n Fs).evaluate c).1 = .error (blameAll n r Fs) := by
  induction h with
  | nil =>
    rw [fillAll_nil, Expr.evaluate, Expr.run_eq_settle]
    exact Evaluation.settle_error.2 ⟨r, hn.step_error, rfl, by simp⟩
  | cons hF _ ih =>
    rw [fillAll_cons, Expr.evaluate, Expr.run_eq_settle]
    exact Evaluation.settle_error.2 ⟨_, hF.step_error (ih hn), rfl, by simp⟩

end Frame

open ExprLang.Frame (fillAll ReachesAll blameAll)

/-- Evaluation comes to this occurrence of a node, and there the node fails by itself. -/
def Expr.FailsAt (e : Expr) (c : Context) (Fs : List Frame) (n : Expr) (r : Error) : Prop :=
  e = fillAll n Fs ∧ ∃ c', ReachesAll .strict Fs c c' ∧ n.StepFails .strict c' r

namespace Expr

/-- A run that fails has come to a node that fails by itself. -/
theorem run_error_exists {e : Expr} (h : (e.run mode c).1 = .error err) : ∃ Fs n c' r, e = fillAll n Fs ∧
    ReachesAll mode Fs c c' ∧ n.StepFails mode c' r ∧ err = blameAll n r Fs := by
  -- Frames are opened one by one, each around an expression with fewer nodes.
  induction hsize : e.nodes.length using Nat.strongRecOn generalizing e c err with
  | ind size ih =>
    rw [run_eq_settle] at h
    obtain ⟨r, hr, rfl, -⟩ := Evaluation.settle_error.1 h
    rcases step_error_cases hr with hfails | ⟨F, m, c₁, rfl, hF, hm⟩
    · exact ⟨[], e, c, r, rfl, .nil, hfails, rfl⟩
    · obtain ⟨Fs, n, c', r', rfl, hFs, hn, rfl⟩ := ih _ (hsize ▸ F.length_nodes_lt m) hm rfl
      exact ⟨F :: Fs, n, c', r', rfl, .cons hF hFs, hn, rfl⟩

theorem run_error_isEvaluation {e : Expr} (h : (e.run mode c).1 = .error err) : err.isEvaluation = true := by
  obtain ⟨Fs, n, c', r, -, -, hn, rfl⟩ := run_error_exists h
  rw [Frame.isEvaluation_blameAll]
  exact hn.raised.isEvaluation

/-- Lenient evaluation never fails: every error is one that it replaces. -/
theorem run_lenient_ok (e : Expr) (c : Context) : ∃ v c', e.run .lenient c = (.ok v, c') := by
  cases he : e.run .lenient c with
  | mk outcome c' =>
    cases outcome with
    | ok v => exact ⟨v, c', rfl⟩
    | error err =>
      have h : (e.run .lenient c).1 = .error err := by rw [he]
      have hfamily := run_error_isEvaluation h
      rw [run_eq_settle] at h
      obtain ⟨_, _, _, hmode⟩ := Evaluation.settle_error.1 h
      exact absurd ⟨rfl, hfamily⟩ hmode

theorem FailsAt.evaluate {e n : Expr} {Fs : List Frame} (h : e.FailsAt c Fs n r) :
    (e.evaluate c).1 = .error (blameAll n r Fs) := by
  obtain ⟨rfl, c', hFs, hn⟩ := h
  exact hFs.evaluate_error hn

theorem evaluate_error_iff {e : Expr} :
    (e.evaluate c).1 = .error err ↔ ∃ Fs n r, e.FailsAt c Fs n r ∧ err = blameAll n r Fs := by
  constructor
  · intro h
    obtain ⟨Fs, n, c', r, he, hFs, hn, herr⟩ := run_error_exists h
    exact ⟨Fs, n, r, ⟨he, c', hFs, hn⟩, herr⟩
  · rintro ⟨Fs, n, r, hfails, rfl⟩
    exact hfails.evaluate

/-! ## The innermost failing expression -/

/-- If all nodes have a location, the error of an evaluation is the one that the step of a node raised, attributed to
that node and to no node around it. -/
theorem evaluate_error_innermost (e : Expr) (c : Context) (err : Error)
    (located : e.Each fun n => n.location.isSome = true) : (e.evaluate c).1 = .error err ↔
      ∃ Fs n r, e.FailsAt c Fs n r ∧ n ∈ e.nodes ∧ r.Raised ∧ err = r.inExpression n.text n.location := by
  have attributed : ∀ {Fs n r}, e.FailsAt c Fs n r →
      n ∈ e.nodes ∧ r.Raised ∧ blameAll n r Fs = r.inExpression n.text n.location := by
    rintro Fs n r ⟨rfl, c', -, hn⟩
    have hmem := Frame.mem_nodes_fillAll n Fs
    obtain ⟨l, hl⟩ := Option.isSome_iff_exists.1 (located n hmem)
    exact ⟨hmem, hn.raised, Frame.blameAll_of_location hl r Fs⟩
  constructor
  · intro h
    obtain ⟨Fs, n, r, hfails, rfl⟩ := evaluate_error_iff.1 h
    obtain ⟨hmem, hraised, herr⟩ := attributed hfails
    exact ⟨Fs, n, r, hfails, hmem, hraised, herr⟩
  · rintro ⟨Fs, n, r, hfails, -, -, rfl⟩
    rw [hfails.evaluate, (attributed hfails).2.2]

/-- The inner negation of `!(!{})`. -/
def negatedMap : Expr := .unary (some ⟨1, 3⟩) .not (.literal (some ⟨1, 4⟩) (.map []))

theorem evaluate_error_innermost_negatedMap :
    let e : Expr := .unary (some ⟨1, 1⟩) .not (.unary (some ⟨1, 2⟩) .group negatedMap)
    let err := Error.evaluation (some ⟨1, 3⟩) (some negatedMap.text) (.invalidOperand .map)
    (e.Each fun n => n.location.isSome = true) ∧ (e.evaluate .empty).1 = .error err ∧
      ∃ Fs n r, e.FailsAt .empty Fs n r ∧ n ∈ e.nodes ∧ r.Raised ∧ err = r.inExpression n.text n.location := by
  intro e err
  have located : e.Each fun n => n.location.isSome = true := by
    intro n hn
    simp only [e, negatedMap, nodes, List.mem_cons, List.not_mem_nil, or_false] at hn
    rcases hn with rfl | rfl | rfl | rfl <;> rfl
  have fails : (e.evaluate .empty).1 = .error err := rfl
  exact ⟨located, fails, (evaluate_error_innermost e .empty err located).1 fails⟩

end Expr

end ExprLang
