import ExprLang.Proofs.Equality
import ExprLang.Proofs.Folding.Stable

/-!
# Folding repeats no key

What a step makes of keyed values is keyed, and the entries of a map keep their keys. So a folded
expression is keyed if the expression is (`Expr.foldInvariant_keyed`), and then it equals what folding makes
of it once more (`Expr.optimize_idempotent`).
-/

namespace ExprLang

namespace Expr

variable {l : Option Location}

/-! ## Literals -/

theorem keyed_of_value? {e : Expr} {v : Value} (h : e.value? = some v) (he : e.Keyed) : v.Keyed := by
  cases e with
  | literal place w =>
    cases h
    exact each_literal.1 he
  | _ => cases h

theorem keyed_literal_stamp {v : Value} (hv : v.Keyed) (n : Nat) : (literal l (v.stamp n).1).Keyed :=
  each_literal.2 ((Value.each_stamp keyed_heritable v n).2 hv)

theorem keyed_ofStep {node : Expr} {r : Except Error Value} (hnode : node.Keyed) (hr : ∀ v, r = .ok v → v.Keyed)
    (n : Nat) : (ofStep node r n).1.Keyed := by
  cases r with
  | ok v => exact keyed_literal_stamp (hr v rfl) n
  | error e => exact hnode

/-! ## Closed nodes -/

theorem keyed_closeArray {items : List Expr} (h : ∀ e ∈ items, e.Keyed) (n : Nat) : (closeArray l items n).1.Keyed := by
  have hnode : (array l items).Keyed := each_array.2 ⟨trivial, h⟩
  unfold closeArray
  cases hvs : values? items with
  | none => exact hnode
  | some vs =>
    refine keyed_ofStep hnode (fun v hv => ?_) n
    obtain ⟨parts, hparts, hv⟩ := Except.bind_ok.1 hv
    cases hv
    refine Value.each_array.2 ⟨trivial, fun w hw => ?_⟩
    obtain ⟨ws, hws, hw⟩ := List.mem_flatten.1 hw
    obtain ⟨v, hv, hsplice⟩ := Except.exists_of_mem_mapM hparts ws hws
    obtain ⟨e, he, hev⟩ := Option.exists_of_mem_mapM hvs v hv
    exact (Value.each_splice keyed_heritable (keyed_of_value? hev (h e he)) hsplice w hw).2

/-- The values of literals stand under the same keys. -/
theorem keys_of_values {entries : List (String × Expr)} {vs : List (String × Value)}
    (h : entries.mapM (fun (k, e) => e.value?.map (k, ·)) = some vs) : Entries.keys vs = Entries.keys entries := by
  induction entries generalizing vs with
  | nil =>
    cases h
    rfl
  | cons f entries ih =>
    rw [List.mapM_cons] at h
    obtain ⟨g, hg, h⟩ := Option.bind_eq_some_iff.1 h
    obtain ⟨ws, hws, h⟩ := Option.bind_eq_some_iff.1 h
    obtain ⟨v, -, rfl⟩ := Option.map_eq_some_iff.1 hg
    cases h
    exact congrArg (f.1 :: ·) (ih hws)

theorem keyed_closeMap {entries : List (String × Expr)} (hnodup : Entries.Nodup entries)
    (h : ∀ f ∈ entries, f.2.Keyed) (n : Nat) : (closeMap l entries n).1.Keyed := by
  have hnode : (map l entries).Keyed := each_map.2 ⟨hnodup, h⟩
  unfold closeMap
  cases hvs : entries.mapM fun (k, e) => e.value?.map (k, ·) with
  | none => exact hnode
  | some vs =>
    refine keyed_ofStep hnode (fun v hv => ?_) n
    cases hv
    have hkeys : Entries.Nodup vs := by
      rw [Entries.Nodup, keys_of_values hvs]
      exact hnodup
    refine Value.each_map.2 ⟨hkeys, fun g hg => ?_⟩
    obtain ⟨f, hf, hfg⟩ := Option.exists_of_mem_mapM hvs g hg
    obtain ⟨v, hv, rfl⟩ := Option.map_eq_some_iff.1 hfg
    exact keyed_of_value? hv (h f hf)

theorem keyed_closeUnary {op : UnaryOp} {a : Expr} (ha : a.Keyed) (n : Nat) : (closeUnary l op a n).1.Keyed := by
  have hnode : (unary l op a).Keyed := each_unary.2 ⟨trivial, ha⟩
  unfold closeUnary
  cases hv : a.value? with
  | none => exact hnode
  | some v => exact keyed_ofStep hnode (fun w hw => op.each_apply keyed_heritable (keyed_of_value? hv ha) hw) n

theorem keyed_closeBinary {op : BinaryOp} {a b : Expr} (ha : a.Keyed) (hb : b.Keyed) (n : Nat) :
    (closeBinary l op a b n).1.Keyed := by
  have hnode : (binary l op a b).Keyed := each_binary.2 ⟨trivial, ha, hb⟩
  unfold closeBinary
  cases hv : a.value? with
  | none => exact hnode
  | some v =>
    have hdemand : (op.afterLeft v).Each Value.DistinctKeys := op.each_afterLeft keyed_heritable (keyed_of_value? hv ha)
    rw [Option.map_some]
    generalize op.afterLeft v = d at hdemand ⊢
    cases d with
    | done r => exact keyed_ofStep hnode hdemand n
    | right finish =>
      cases hw : b.value? with
      | none => exact hnode
      | some w => exact keyed_ofStep hnode (fun u => hdemand w u (keyed_of_value? hw hb)) n

theorem keyed_closeSubscript {a b : Expr} (ha : a.Keyed) (hb : b.Keyed) (n : Nat) :
    (closeSubscript l a b n).1.Keyed := by
  have hnode : (subscript l a b).Keyed := each_subscript.2 ⟨trivial, ha, hb⟩
  unfold closeSubscript
  cases hv : a.value? with
  | none => exact hnode
  | some v =>
    cases b.value? with
    | none => exact hnode
    | some w =>
      exact keyed_ofStep hnode (fun u hu => (Value.subscript_selects hu).each keyed_heritable (keyed_of_value? hv ha)) n

theorem keyed_closeSwitch {cases : List Expr} (h : ∀ e ∈ cases, e.Keyed) (n : Nat) :
    (closeSwitch l cases n).1.Keyed := by
  have hrest : ∀ e ∈ cases.dropWhile isUndefinedLiteral, e.Keyed := fun e he =>
    h e (List.dropWhile_subset _ he)
  unfold closeSwitch
  cases hc : cases.dropWhile isUndefinedLiteral with
  | nil => exact keyed_literal_stamp (Value.plain_undefined.partless.each keyed_heritable) n
  | cons e es =>
    rw [hc] at hrest
    cases e with
    | literal place v =>
      have hv : v.Keyed := keyed_of_value? rfl (List.forall_mem_cons.1 hrest).1
      exact each_literal.2 hv
    | _ => exact each_switch.2 ⟨trivial, hrest⟩

/-! ## Whole expressions -/

theorem foldInvariant_keyed : FoldInvariant DistinctKeys Keyed where
  literal h := each_literal.2 h
  var _ := each_var.2 trivial
  integer i m _ := keyed_literal_stamp ((Value.plain_number _).partless.each keyed_heritable) m
  array n _ h := keyed_closeArray (fun e he => (h e he).1) n
  map n hnode hkeys h := keyed_closeMap (by rw [Entries.Nodup, hkeys]; exact hnode) h n
  unary n _ ha := keyed_closeUnary ha n
  binary n _ ha hb := keyed_closeBinary ha hb n
  subscript n _ ha hb := keyed_closeSubscript ha hb n
  switch n _ h := keyed_closeSwitch h n

end Expr

/-- Folding once more gives an equal expression, even where it holds not-a-numbers. -/
theorem Expr.optimize_idempotent (e : Expr) (h : e.Keyed) : (e.optimize.optimize == e.optimize) = true := by
  rw [optimize_optimize]
  exact equals_self (foldInvariant_keyed.fold h e.nextMark)

/-- A map of a sum, which is folded, of a not-a-number and of a step that fails and is kept. -/
def Expr.foldableMap : Expr :=
  .map none [("sum", .binary none .add (.literal none (.number 1)) (.literal none (.number 2))),
    ("nan", .literal none (.number (0 / 0))), ("kept", .unary none .minus (.literal none (.string "a")))]

theorem Expr.optimize_idempotent_foldableMap :
    foldableMap.Keyed ∧ (foldableMap.optimize.optimize == foldableMap.optimize) = true := by
  have hkeyed : foldableMap.Keyed := by
    simp [foldableMap, Expr.Keyed, Expr.each_map, Expr.each_binary, Expr.each_unary, Expr.each_literal, Expr.DistinctKeys,
      Entries.Nodup, Entries.keys, Value.Keyed, Value.number, Value.string, Value.new, Value.Each, Value.DistinctKeys]
  exact ⟨hkeyed, optimize_idempotent foldableMap hkeyed⟩

end ExprLang
