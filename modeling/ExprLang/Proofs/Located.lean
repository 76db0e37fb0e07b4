import ExprLang.Proofs.Failing
import ExprLang.Proofs.Folding.Stable
import ExprLang.Proofs.ModelTrees
import ExprLang.Proofs.Parser.Each

/-!
# Every node stands somewhere

Every node of an expression that was read has a location (`Expr.FromText.located`), in the grammar of
expressions and in model lists. Folding and giving marks to values keep it that way, so every error
of an evaluation has a location, and belongs to the evaluation family as that of any expression does.
-/

namespace ExprLang

/-- All nodes have a location. -/
def Expr.Located (e : Expr) : Prop := e.Each fun n => n.location.isSome = true

namespace Expr

theorem located_literal {l : Location} {v : Value} : (literal l v).Located := each_literal.2 rfl

theorem located_var {l : Location} {name : String} : (var l name).Located := each_var.2 rfl

/-! ## Expressions -/

theorem readInvariant_located :
    ReadInvariant (fun n => n.location.isSome = true) fun l _ => l.isSome = true where
  literal _ := rfl
  name _ _ := rfl
  array _ _ := rfl
  map _ _ := rfl
  unary _ _ _ := rfl
  subscript _ _ _ := rfl
  switch _ _ := rfl
  binary _ _ _ _ := Iff.rfl
  sign _ _ := rfl

theorem located_of_expression {d : Nat} {s s' : Tokens} {e : Expr} (hs : s.Wf)
    (h : Parser.expression d s = .ok (e, s')) : e.Located :=
  readInvariant_located.each ((Parser.sound d).expression hs h) hs

theorem located_of_reading {mode : ParseMode} {d : Nat} {s s' : Tokens} {e : Expr} (hs : s.Wf)
    (h : reading mode d s = .ok (e, s')) : e.Located := by
  obtain ⟨a, s₁, ha, h⟩ := Reading.bind_ok.1 h
  have hlocated := located_of_expression hs ha
  cases mode with
  | strict =>
    obtain ⟨_, _, _, h⟩ := Reading.bind_ok.1 h
    obtain ⟨rfl, -⟩ := Reading.pure_ok.1 h
    exact hlocated
  | lenient =>
    obtain ⟨rfl, -⟩ := Reading.pure_ok.1 h
    exact hlocated

end Expr

/-! ## Model lists -/

namespace ModelList

theorem IsEntry.located {e : Expr} (h : IsEntry e) : e.Located := by
  cases h with
  | model l v => exact Expr.located_literal
  | conditional l v hcondition =>
    obtain ⟨key, sign, name, w, rfl⟩ := hcondition
    have hequation : (Expr.binary sign .equal (.var key name) (.literal sign w)).Located :=
      Expr.each_binary.2 ⟨rfl, Expr.located_var, Expr.located_literal⟩
    exact Expr.each_binary.2 ⟨rfl, hequation, Expr.located_literal⟩
  | dynamic l hes =>
    refine Expr.each_map.2 ⟨rfl, fun f hf => ?_⟩
    obtain ⟨m, name, hvar⟩ := hes f hf
    rw [hvar]
    exact Expr.located_var

theorem read_located {closing : List Token.Kind} {c : Cursor} {e : Expr} (h : (read closing c).1 = .ok e) :
    e.Located := by
  obtain ⟨es, rfl, hes⟩ := read_entries h
  exact Expr.each_switch.2 ⟨rfl, fun e he => (hes e he).located⟩

end ModelList

/-! ## Objects -/

open ExprLang.Expr in
mutual

theorem Expr.located_stamp : ∀ {e : Expr}, e.Located → ∀ n, (e.stamp n).1.Located
  | .literal _ _, h, _ => each_literal.2 (each_literal.1 h :)
  | .var _ _, h, _ => h
  | .array _ items, h, n => by
    obtain ⟨hnode, hitems⟩ := each_array.1 h
    exact each_array.2 ⟨hnode, located_stampExprs hitems n⟩
  | .map _ entries, h, n => by
    obtain ⟨hnode, hentries⟩ := each_map.1 h
    exact each_map.2 ⟨hnode, located_stampExprEntries hentries n⟩
  | .unary _ _ a, h, n => by
    obtain ⟨hnode, ha⟩ := each_unary.1 h
    exact each_unary.2 ⟨hnode, Expr.located_stamp ha n⟩
  | .binary _ _ a b, h, n => by
    obtain ⟨hnode, ha, hb⟩ := each_binary.1 h
    exact each_binary.2 ⟨hnode, Expr.located_stamp ha n, Expr.located_stamp hb _⟩
  | .subscript _ a b, h, n => by
    obtain ⟨hnode, ha, hb⟩ := each_subscript.1 h
    exact each_subscript.2 ⟨hnode, Expr.located_stamp ha n, Expr.located_stamp hb _⟩
  | .switch _ cases, h, n => by
    obtain ⟨hnode, hcases⟩ := each_switch.1 h
    exact each_switch.2 ⟨hnode, located_stampExprs hcases n⟩

theorem located_stampExprs : ∀ {es : List Expr}, (∀ e ∈ es, e.Located) → ∀ n, ∀ e ∈ (stampExprs es n).1, e.Located
  | [], _, _ => fun _ h => absurd h List.not_mem_nil
  | e :: es, h, n => by
    obtain ⟨he, hes⟩ := List.forall_mem_cons.1 h
    exact List.forall_mem_cons.2 ⟨Expr.located_stamp he n, located_stampExprs hes _⟩

theorem located_stampExprEntries : ∀ {es : List (String × Expr)}, (∀ f ∈ es, f.2.Located) →
    ∀ n, ∀ f ∈ (stampExprEntries es n).1, f.2.Located
  | [], _, _ => fun _ h => absurd h List.not_mem_nil
  | (_, e) :: es, h, n => by
    obtain ⟨he, hes⟩ := List.forall_mem_cons.1 h
    exact List.forall_mem_cons.2 ⟨Expr.located_stamp he n, located_stampExprEntries hes _⟩

end

/-! ## Folding -/

namespace Expr

theorem ClosesOnce.located {node : Expr} {close : Supply Expr} (h : ClosesOnce node close) (hnode : node.Located)
    (n : Nat) : (close n).1.Located :=
  h.each (fun _ => hnode node node.mem_nodes_self) hnode n

theorem foldInvariant_located : FoldInvariant (fun n => n.location.isSome = true) Located where
  literal h := each_literal.2 h
  var h := each_var.2 h
  integer {e} _ _ he := each_literal.2 (he e e.mem_nodes_self :)
  array n hnode h := by
    refine (closesOnce_array _ _).located ?_ n
    exact each_array.2 ⟨hnode, fun e he => (h e he).1⟩
  map n hnode _ h := by
    refine (closesOnce_map _ _).located ?_ n
    exact each_map.2 ⟨hnode, h⟩
  unary n hnode ha := by
    refine (closesOnce_unary _ _ _).located ?_ n
    exact each_unary.2 ⟨hnode, ha⟩
  binary n hnode ha hb := by
    refine (closesOnce_binary _ _ _ _).located ?_ n
    exact each_binary.2 ⟨hnode, ha, hb⟩
  subscript n hnode ha hb := by
    refine (closesOnce_subscript _ _ _).located ?_ n
    exact each_subscript.2 ⟨hnode, ha, hb⟩
  switch n hnode h := each_closeSwitch (fun _ => hnode) (fun _ _ => hnode) h n

end Expr

/-! ## Errors of evaluations -/

theorem Error.location_inExpression {r : Error} (h : r.bare.isEvaluation = true) (text : String) (l : Location) :
    (r.inExpression text (some l)).location.isSome = true := by
  cases r with
  | evaluation m ex f => cases m <;> cases ex <;> rfl
  | conversion m | dereference m | index m | outOfBounds m => cases m <;> rfl
  | parse | alreadyDeclared | undeclared => cases h

namespace Expr

/-- The expression was read from a text, as the whole of it, as the first in it, or as the definition of a model. -/
inductive FromText : Expr → Prop
  | whole {text : String} {e : Expr} : parse text = .ok e → FromText e
  | first {text : String} {l : Location} {e : Expr} : parseFirst text l = .ok e → FromText e
  | model {text : String} {e : Expr} : parseModel text = .ok e → FromText e

/-- What an expression becomes before it is evaluated: it may be folded, and its values may become objects. -/
inductive Prepared (e : Expr) : Expr → Prop
  | self : Prepared e e
  | fold {f : Expr} (n : Nat) : Prepared e f → Prepared e (f.fold n).1
  | stamp {f : Expr} (n : Nat) : Prepared e f → Prepared e (f.stamp n).1

theorem Prepared.optimize {e f : Expr} (h : e.Prepared f) : e.Prepared f.optimize := h.fold _

theorem FromText.located {e : Expr} (h : e.FromText) : e.Located := by
  cases h with
  | whole h | first h =>
    obtain ⟨s', h⟩ := Cursor.read_ok.1 h
    exact located_of_reading (Tokens.wf_read _) h
  | model h =>
    unfold parseModel readModel at h
    dsimp only at h
    split at h
    · next hread =>
      obtain ⟨s', hs⟩ := Cursor.read_ok.1 (congrArg Prod.fst hread)
      obtain ⟨a, s₁, ha, hs⟩ := Reading.bind_ok.1 hs
      obtain ⟨_, _, _, hs⟩ := Reading.bind_ok.1 hs
      obtain ⟨rfl, -⟩ := Reading.pure_ok.1 hs
      cases h
      exact located_of_reading (Tokens.wf_read _) ha
    · next hread =>
      cases h
      exact ModelList.read_located (congrArg Prod.fst hread)
    · cases h

theorem Prepared.located {e f : Expr} (h : e.Prepared f) (he : e.Located) : f.Located := by
  induction h with
  | self => exact he
  | fold n _ ih => exact foldInvariant_located.fold ih n
  | stamp n _ ih => exact located_stamp ih n

/-- Every error that leaves an evaluation of an expression that was read is of the evaluation family and has a
location. So lenient evaluation replaces every error, in every part of the expression, and the value that it would fall
back on is never asked for. -/
theorem evaluate_error_located (e : Expr) (he : e.FromText) (f : Expr) (hf : e.Prepared f) (c : Context) :
    (∀ err, (f.evaluate c).1 = .error err → err.isEvaluation = true ∧ err.location.isSome = true) ∧
      ∀ n ∈ f.nodes, ∀ d : Context, ∃ v d', n.run .lenient d = (.ok v, d') ∧ n.tryEvaluate d = (v, d') := by
  have hlocated := hf.located he.located
  constructor
  · intro err herr
    refine ⟨run_error_isEvaluation herr, ?_⟩
    obtain ⟨Fs, n, r, ⟨rfl, c', -, hn⟩, rfl⟩ := evaluate_error_iff.1 herr
    obtain ⟨l, hl⟩ := Option.isSome_iff_exists.1 (hlocated n (Frame.mem_nodes_fillAll n Fs))
    rw [Frame.blameAll_of_location hl, hl]
    exact Error.location_inExpression hn.raised.isEvaluation n.text l
  · intro n _ d
    obtain ⟨v, d', hv⟩ := run_lenient_ok n d
    exact ⟨v, d', hv, by rw [tryEvaluate, hv]⟩

/-- A model list whose condition compares a list with a string. -/
theorem evaluate_error_located_condition :
    let c := Context.ofStore [("flag", .array [])] 0
    ∃ (e : Expr) (err : Error), e.FromText ∧ e.Prepared e.optimize ∧ (e.optimize.evaluate c).1 = .error err ∧
      err.isEvaluation = true ∧ err.location.isSome = true := by
  intro c
  have hfails : (parseModel "\"a.b3d\" flag = \"on\"").toOption.any
      (fun e => (e.optimize.evaluate c).1.toOption.isNone) = true := by decide +kernel
  cases he : parseModel "\"a.b3d\" flag = \"on\"" with
  | error err =>
    rw [he] at hfails
    cases hfails
  | ok e =>
    rw [he] at hfails
    have hprepared : e.Prepared e.optimize := Prepared.self.optimize
    cases herr : (e.optimize.evaluate c).1 with
    | ok v =>
      simp [Except.toOption, herr] at hfails
    | error err =>
      have htheorem := evaluate_error_located e (.model he) e.optimize hprepared c
      exact ⟨e, err, .model he, hprepared, herr, htheorem.1 err herr⟩

end Expr

end ExprLang
