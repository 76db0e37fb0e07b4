import ExprLang.Proofs.Folding.Keys
import ExprLang.Proofs.Folding.Meaning
import ExprLang.Proofs.Like.Step
import ExprLang.Proofs.Respaced
import ExprLang.Proofs.Results

/-!
# Equal expressions

Expressions that are equal have literals that are built alike in the same places, and go through the same steps. So
their outcomes are alike, unless the evaluations come to a step that tells equal operands apart (`Expr.denote_like`).

* `Expr.evaluate_equals`: equal expressions, read or folded, have equal values or fail both, with this exception.
* `Expr.evaluate_equals_sum`: a folded range is no summand.
-/

namespace ExprLang

open Outcome (Both)

/-! ## Steps that tell operands apart -/

mutual

/-- The evaluations come to a step, in the same place of both expressions, that does different things to equal operands.
All entries of a map are looked into. -/
inductive Expr.TellsApart (σ : String → Value) : Expr → Expr → Prop
  | array {l m : Option Location} {es fs : List Expr} : ItemsTellApart σ es fs →
      Expr.TellsApart σ (.array l es) (.array m fs)
  | map {l m : Option Location} {es fs : List (String × Expr)} {k : String} {e f : Expr} : Entries.find? es k = some e →
      Entries.find? fs k = some f → e.TellsApart σ f → Expr.TellsApart σ (.map l es) (.map m fs)
  | unary {l m : Option Location} {op : UnaryOp} {a b : Expr} : a.TellsApart σ b →
      Expr.TellsApart σ (.unary l op a) (.unary m op b)
  | left {l m : Option Location} {op : BinaryOp} {a b c d : Expr} : a.TellsApart σ c →
      Expr.TellsApart σ (.binary l op a b) (.binary m op c d)
  | right {l m : Option Location} {op : BinaryOp} {a b c d : Expr} {v : Value} {finish : Value → Except Error Value} :
      a.denote .strict σ = .ok v → op.afterLeft v = .right finish → b.TellsApart σ d →
      Expr.TellsApart σ (.binary l op a b) (.binary m op c d)
  | operands {l m : Option Location} {op : BinaryOp} {a b c d : Expr} {v w u u' : Value} :
      a.denote .strict σ = .ok v → c.denote .strict σ = .ok w → b.denote .strict σ = .ok u →
      d.denote .strict σ = .ok u' → op.TellsApart v w u u' → Expr.TellsApart σ (.binary l op a b) (.binary m op c d)
  | base {l m : Option Location} {a b c d : Expr} : a.TellsApart σ c →
      Expr.TellsApart σ (.subscript l a b) (.subscript m c d)
  | index {l m : Option Location} {a b c d : Expr} {v : Value} : a.denote .strict σ = .ok v → b.TellsApart σ d →
      Expr.TellsApart σ (.subscript l a b) (.subscript m c d)
  | subscript {l m : Option Location} {a b c d : Expr} {v w : Value} : a.denote .strict σ = .ok v →
      c.denote .strict σ = .ok w → v.kind ≠ w.kind ∨ 2 ^ 53 ≤ v.length →
      Expr.TellsApart σ (.subscript l a b) (.subscript m c d)
  | switch {l m : Option Location} {es fs : List Expr} : CasesTellApart σ es fs →
      Expr.TellsApart σ (.switch l es) (.switch m fs)

/-- One item is spliced and the other is not, or the evaluations of two items come to a step that tells operands apart. -/
inductive ItemsTellApart (σ : String → Value) : List Expr → List Expr → Prop
  | first {e f : Expr} {es fs : List Expr} : e.TellsApart σ f → ItemsTellApart σ (e :: es) (f :: fs)
  | spliced {e f : Expr} {es fs : List Expr} {v w : Value} : e.denote .strict σ = .ok v → f.denote .strict σ = .ok w →
      v.kind ≠ w.kind → ItemsTellApart σ (e :: es) (f :: fs)
  | later {e f : Expr} {es fs : List Expr} {v : Value} : e.denote .strict σ = .ok v → ItemsTellApart σ es fs →
      ItemsTellApart σ (e :: es) (f :: fs)

/-- A case that the evaluations come to has a step that tells operands apart. -/
inductive CasesTellApart (σ : String → Value) : List Expr → List Expr → Prop
  | first {e f : Expr} {es fs : List Expr} : e.TellsApart σ f → CasesTellApart σ (e :: es) (f :: fs)
  | later {e f : Expr} {es fs : List Expr} {v : Value} : e.denote .strict σ = .ok v → v.isUndefined = true →
      CasesTellApart σ es fs → CasesTellApart σ (e :: es) (f :: fs)

end

/-! ## Entries of a map -/

section

variable {mode : Mode} {σ : String → Value}

/-- The entries have values if each of them has one. -/
theorem denoteEntries_isOk {es : List (String × Expr)} :
    (∃ vs, denoteEntries mode σ es = .ok vs) ↔ ∀ e ∈ es, ∃ v, e.2.denote mode σ = .ok v := by
  induction es with
  | nil => exact ⟨fun _ _ he => absurd he List.not_mem_nil, fun _ => ⟨[], rfl⟩⟩
  | cons e es ih =>
    obtain ⟨k, e⟩ := e
    rw [List.forall_mem_cons, ← ih, denoteEntries]
    constructor
    · rintro ⟨ws, h⟩
      obtain ⟨v, hv, h⟩ := Except.bind_ok.1 h
      obtain ⟨vs, hvs, -⟩ := Except.bind_ok.1 h
      exact ⟨⟨v, hv⟩, vs, hvs⟩
    · rintro ⟨⟨v, hv⟩, vs, hvs⟩
      have hv : e.denote mode σ = .ok v := hv
      rw [hv, hvs]
      exact ⟨_, rfl⟩

/-- A value is under the key of its expression. -/
theorem find?_denoteEntries (k : String) : ∀ {es : List (String × Expr)} {vs : Entries Value},
    denoteEntries mode σ es = .ok vs →
    Option.Rel (fun e v => e.denote mode σ = .ok v) (Entries.find? es k) (Entries.find? vs k)
  | [], _, h => by
    cases h
    exact .none
  | (l, e) :: es, _, h => by
    obtain ⟨v, hv, h⟩ := Except.bind_ok.1 h
    obtain ⟨vs, hvs, h⟩ := Except.bind_ok.1 h
    cases h
    rw [Entries.find?_cons, Entries.find?_cons]
    split
    · exact .some hv
    · exact find?_denoteEntries k hvs

theorem denoteEntries_isOk_of_matched {R : Expr → Expr → Prop} {es fs : List (String × Expr)}
    (h : Entries.Matched R es fs)
    (hR : ∀ e f, R e f → (∃ v, e.denote mode σ = .ok v) → ∃ w, f.denote mode σ = .ok w)
    (hes : ∃ vs, denoteEntries mode σ es = .ok vs) : ∃ ws, denoteEntries mode σ fs = .ok ws := by
  refine denoteEntries_isOk.2 fun f hf => ?_
  obtain ⟨e, he, hrel⟩ := h.flip.exists_of_mem hf
  exact hR e f.2 hrel (denoteEntries_isOk.1 hes _ (Entries.mem_of_find? he))

/-- Maps with the same keys have values that match, or fail both, if the values under each key are alike, or fail both. -/
theorem denoteEntries_like {es fs : List (String × Expr)}
    (h : Entries.Matched (fun e f => Both Value.Like (e.denote mode σ) (f.denote mode σ)) es fs) :
    Both (Entries.Matched Value.Like) (denoteEntries mode σ es) (denoteEntries mode σ fs) := by
  have hright := denoteEntries_isOk_of_matched h fun e f hboth he => by
    obtain ⟨v, hv⟩ := he
    rw [hv] at hboth
    generalize f.denote mode σ = t at hboth ⊢
    cases hboth
    exact ⟨_, rfl⟩
  have hleft := denoteEntries_isOk_of_matched h.flip fun f e hboth hf => by
    obtain ⟨w, hw⟩ := hf
    rw [hw] at hboth
    generalize e.denote mode σ = r at hboth ⊢
    cases hboth
    exact ⟨_, rfl⟩
  cases hvs : denoteEntries mode σ es with
  | error err =>
    cases hws : denoteEntries mode σ fs with
    | error => exact .error _ _
    | ok ws =>
      obtain ⟨vs, hvs'⟩ := hleft ⟨ws, hws⟩
      rw [hvs] at hvs'
      cases hvs'
  | ok vs =>
    obtain ⟨ws, hws⟩ := hright ⟨vs, hvs⟩
    rw [hws]
    refine .ok ⟨by rw [Entries.Nodup, keys_denoteEntries hvs]; exact h.left,
      by rw [Entries.Nodup, keys_denoteEntries hws]; exact h.right, fun k => ?_⟩
    have hrel := h.rel k
    have hv := find?_denoteEntries k hvs
    have hw := find?_denoteEntries k hws
    generalize Entries.find? es k = e at hrel hv
    generalize Entries.find? fs k = f at hrel hw
    generalize Entries.find? vs k = v at hv ⊢
    generalize Entries.find? ws k = w at hw ⊢
    cases hrel with
    | none =>
      cases hv
      cases hw
      exact .none
    | some hboth =>
      cases hv with
      | some hv =>
        cases hw with
        | some hw =>
          rw [hv, hw] at hboth
          cases hboth with
          | ok h => exact .some h

end

/-! ## Equal expressions -/

namespace Expr

/-- The arrays in a literal have possible lengths. -/
def Short : Expr → Prop
  | .literal _ v => v.Short
  | _ => True

/-- A node that is as nodes are: no map repeats a key, and no array is too long. -/
def Proper (e : Expr) : Prop := e.DistinctKeys ∧ e.Short

end Expr

theorem shortPart_bare (v : Value) : v.bare.ShortPart ↔ v.ShortPart := by
  obtain ⟨m, c⟩ := v
  cases c with
  | array vs =>
    rw [Value.bare, bareItems_eq]
    show (vs.map Value.bare).length < _ ↔ _
    rw [List.length_map]
    exact Iff.rfl
  | _ => exact Iff.rfl

instance : DecidablePred Value.ShortPart
  | ⟨_, .array vs⟩ => inferInstanceAs (Decidable (vs.length < 18446744073709551615))
  | ⟨_, .boolean _⟩ | ⟨_, .string _⟩ | ⟨_, .number _⟩ | ⟨_, .map _⟩ | ⟨_, .range _⟩ | ⟨_, .null⟩ | ⟨_, .undefined⟩ =>
    .isTrue trivial

instance : DecidablePred Expr.Short
  | .literal _ v => inferInstanceAs (Decidable (v.Each Value.ShortPart))
  | .var .. | .array .. | .map .. | .unary .. | .binary .. | .subscript .. | .switch .. => .isTrue trivial

theorem settled_like {r t : Except Error Value} (h : Both Value.Like r t) :
    Both Value.Like (settled .strict r) (settled .strict t) := by
  cases h with
  | ok h => exact .ok h
  | error e e' =>
    have hstrict : ∀ e : Error, settled .strict (.error e) = .error e.bare := fun e => by simp [settled]
    rw [hstrict, hstrict]
    exact .error _ _

/-! ### Nodes

What holds of the parts of two equal nodes holds of the nodes. -/

section

variable {σ : String → Value} {l m : Option Location} {a b c d e f : Expr} {es fs : List Expr}

theorem denote_binary_like {op : BinaryOp}
    (hleft : Both Value.Like (a.denote .strict σ) (c.denote .strict σ) ∨ a.TellsApart σ c)
    (hright : Both Value.Like (b.denote .strict σ) (d.denote .strict σ) ∨ b.TellsApart σ d) :
    Both Value.Like ((Expr.binary l op a b).denote .strict σ) ((Expr.binary m op c d).denote .strict σ) ∨
      (Expr.binary l op a b).TellsApart σ (.binary m op c d) := by
  rcases hleft with hleft | happart
  · generalize ha : a.denote .strict σ = r at hleft
    generalize hc : c.denote .strict σ = t at hleft
    cases hleft with
    | error =>
      rw [Expr.denote, Expr.denote, ha, hc]
      exact .inl (settled_like (.error _ _))
    | @ok v w hvw =>
      have hdemand := op.afterLeft_like hvw
      generalize hv : op.afterLeft v = D at hdemand
      generalize hw : op.afterLeft w = D' at hdemand
      cases hdemand with
      | done h =>
        rw [Expr.denote_binary_done _ _ ha hv, Expr.denote_binary_done _ _ hc hw]
        exact .inl (settled_like h)
      | right hfinish =>
        rw [Expr.denote_binary_right _ _ ha hv, Expr.denote_binary_right _ _ hc hw]
        rcases hright with hright | happart
        · generalize hb : b.denote .strict σ = r at hright ⊢
          generalize hd : d.denote .strict σ = t at hright ⊢
          cases hright with
          | error => exact .inl (settled_like (.error _ _))
          | @ok u u' hu =>
            by_cases happart : op.TellsApart v w u u'
            · exact .inr (.operands ha hc hb hd happart)
            · exact .inl (settled_like (hfinish u u' hu happart))
        · exact .inr (.right ha hv happart)
  · exact .inr (.left happart)

theorem denote_subscript_like
    (hbase : Both Value.Like (a.denote .strict σ) (c.denote .strict σ) ∨ a.TellsApart σ c)
    (hindex : Both Value.Like (b.denote .strict σ) (d.denote .strict σ) ∨ b.TellsApart σ d) :
    Both Value.Like ((Expr.subscript l a b).denote .strict σ) ((Expr.subscript m c d).denote .strict σ) ∨
      (Expr.subscript l a b).TellsApart σ (.subscript m c d) := by
  rcases hbase with hbase | happart
  · rw [Expr.denote, Expr.denote]
    generalize ha : a.denote .strict σ = r at hbase ⊢
    generalize hc : c.denote .strict σ = t at hbase ⊢
    cases hbase with
    | error => exact .inl (settled_like (.error _ _))
    | @ok v w hvw =>
      rcases hindex with hindex | happart
      · by_cases happart : v.kind ≠ w.kind ∨ 2 ^ 53 ≤ v.length
        · exact .inr (.subscript ha hc happart)
        · rw [not_or, not_not, Nat.not_le] at happart
          exact .inl (settled_like (hindex.bind fun _ _ hu => Value.subscript_like hvw hu happart.1 happart.2))
      · exact .inr (.index ha happart)
  · exact .inr (.base happart)

theorem denoteItems_cons_like
    (hfirst : Both Value.Like (e.denote .strict σ) (f.denote .strict σ) ∨ e.TellsApart σ f)
    (hrest : Both (List.Forall₂ Value.Like) (denoteItems .strict σ es) (denoteItems .strict σ fs) ∨
      ItemsTellApart σ es fs) :
    Both (List.Forall₂ Value.Like) (denoteItems .strict σ (e :: es)) (denoteItems .strict σ (f :: fs)) ∨
      ItemsTellApart σ (e :: es) (f :: fs) := by
  rcases hfirst with hfirst | happart
  · rw [denoteItems, denoteItems]
    generalize he : e.denote .strict σ = r at hfirst ⊢
    generalize hf : f.denote .strict σ = t at hfirst ⊢
    cases hfirst with
    | error => exact .inl (.error _ _)
    | @ok v w hvw =>
      by_cases hkind : v.kind = w.kind
      · rcases hrest with hrest | happart
        · refine .inl ((Value.splice_like hvw hkind).bind fun vs ws hvs => ?_)
          exact hrest.bind fun _ _ h => .ok (List.rel_append hvs h)
        · exact .inr (.later he happart)
      · exact .inr (.spliced he hf hkind)
  · exact .inr (.first happart)

theorem denoteCases_cons_like
    (hfirst : Both Value.Like (e.denote .strict σ) (f.denote .strict σ) ∨ e.TellsApart σ f)
    (hrest : Both Value.Like (denoteCases .strict σ es) (denoteCases .strict σ fs) ∨ CasesTellApart σ es fs) :
    Both Value.Like (denoteCases .strict σ (e :: es)) (denoteCases .strict σ (f :: fs)) ∨
      CasesTellApart σ (e :: es) (f :: fs) := by
  rcases hfirst with hfirst | happart
  · rw [denoteCases, denoteCases]
    generalize he : e.denote .strict σ = r at hfirst ⊢
    generalize f.denote .strict σ = t at hfirst ⊢
    cases hfirst with
    | error => exact .inl (.error _ _)
    | @ok v w hvw =>
      show Both Value.Like (if v.isUndefined then _ else .ok v) (if w.isUndefined then _ else .ok w) ∨ _
      rw [← hvw.isUndefined_eq]
      cases hundefined : v.isUndefined with
      | false => exact .inl (.ok hvw)
      | true => exact hrest.imp id (.later he hundefined)
  · exact .inr (.first happart)

/-- Entries under the same keys. -/
theorem denote_map_like {es fs : List (String × Expr)} (hes : Entries.Nodup es) (hfs : Entries.Nodup fs)
    (hlength : es.length = fs.length) (h : ∀ e ∈ es, ∃ f, Entries.find? fs e.1 = some f ∧
      (Both Value.Like (e.2.denote .strict σ) (f.denote .strict σ) ∨ e.2.TellsApart σ f)) :
    Both Value.Like ((Expr.map l es).denote .strict σ) ((Expr.map m fs).denote .strict σ) ∨
      (Expr.map l es).TellsApart σ (.map m fs) := by
  by_cases happart : ∃ e ∈ es, ∃ f, Entries.find? fs e.1 = some f ∧ e.2.TellsApart σ f
  · obtain ⟨e, he, f, hf, happart⟩ := happart
    exact .inr (.map ((Entries.find?_eq_some_iff hes).2 he) hf happart)
  · have hboth : ∀ e ∈ es, ∃ f, Entries.find? fs e.1 = some f ∧
        Both Value.Like (e.2.denote .strict σ) (f.denote .strict σ) := fun e he => by
      obtain ⟨f, hf, hlike⟩ := h e he
      exact ⟨f, hf, hlike.resolve_right fun hapart => happart ⟨e, he, f, hf, hapart⟩⟩
    have hmatched := Entries.Matched.of_find?
      (R := fun e f => Both Value.Like (e.denote .strict σ) (f.denote .strict σ)) hes hfs hlength hboth
    exact .inl (settled_like ((denoteEntries_like hmatched).bind fun _ _ h => .ok (.mk (.map h.left h.right h.rel))))

end

/-! ### Trees -/

/-- The values in equal literals are alike, and so they are without their marks. -/
theorem Value.bare_like {v w : Value} (hv : v.Keyed) (hw : w.Keyed) (hv' : v.Short) (hw' : w.Short)
    (h : v.equals w = true) : v.bare.Like w.bare := by
  have hshort : ∀ {u : Value}, u.Short → u.bare.Short := fun hu => (Value.each_bare shortPart_bare _).2 hu
  have hkeyed : ∀ {u : Value}, u.Keyed → u.bare.Keyed := fun hu => (Value.each_bare keyed_heritable.bare _).2 hu
  exact like_of_equals (hkeyed hv) (hkeyed hw) (hshort hv') (hshort hw') (like_of_equals hv hw hv' hw' h).equals

section

variable {σ : String → Value}

mutual

/-- Equal expressions have outcomes that are alike, unless their evaluations come to a step that tells equal operands
apart. -/
theorem Expr.denote_like (hσ : ∀ name, (σ name).Like (σ name)) : ∀ {a b : Expr},
    a.Each Expr.Proper → b.Each Expr.Proper → a.equals b = true →
    Both Value.Like (a.denote .strict σ) (b.denote .strict σ) ∨ a.TellsApart σ b
  | .literal _ v, b, ha, hb, h => by
    cases b with
    | literal _ w =>
      obtain ⟨hkeyed, hshort⟩ := Expr.each_literal.1 ha
      obtain ⟨hkeyed', hshort'⟩ := Expr.each_literal.1 hb
      exact .inl (.ok (Value.bare_like hkeyed hkeyed' hshort hshort' h))
    | _ => cases h
  | .var _ name, b, _, _, h => by
    cases b with
    | var _ name' =>
      obtain rfl := beq_iff_eq.1 (show (name == name') = true from h)
      exact .inl (.ok (hσ name))
    | _ => cases h
  | .array _ es, b, ha, hb, h => by
    cases b with
    | array _ fs =>
      rcases denoteItems_like hσ (Expr.each_array.1 ha).2 (Expr.each_array.1 hb).2 h with hboth | happart
      · exact .inl (settled_like (hboth.bind fun _ _ h => .ok (.mk (.array h))))
      · exact .inr (.array happart)
    | _ => cases h
  | .map _ es, b, ha, hb, h => by
    cases b with
    | map _ fs =>
      obtain ⟨hnode, hes⟩ := Expr.each_map.1 ha
      obtain ⟨hnode', hfs⟩ := Expr.each_map.1 hb
      have h : (es.length == fs.length && equalExprEntries es fs) = true := h
      rw [Bool.and_eq_true, beq_iff_eq] at h
      exact denote_map_like hnode.1 hnode'.1 h.1 (denoteEntries_equals hσ hfs hes h.2)
    | _ => cases h
  | .unary _ op a, b, ha, hb, h => by
    cases b with
    | unary _ op' b =>
      have h : (op == op' && a.equals b) = true := h
      rw [Bool.and_eq_true, beq_iff_eq] at h
      obtain ⟨rfl, hab⟩ := h
      rcases Expr.denote_like hσ (Expr.each_unary.1 ha).2 (Expr.each_unary.1 hb).2 hab with hboth | happart
      · exact .inl (settled_like (hboth.bind fun _ _ => op.apply_like))
      · exact .inr (.unary happart)
    | _ => cases h
  | .binary _ op a b, e, ha, he, h => by
    cases e with
    | binary _ op' c d =>
      have h : (op == op' && a.equals c && b.equals d) = true := h
      rw [Bool.and_eq_true, Bool.and_eq_true, beq_iff_eq] at h
      obtain ⟨⟨rfl, hac⟩, hbd⟩ := h
      obtain ⟨-, ha, hb⟩ := Expr.each_binary.1 ha
      obtain ⟨-, hc, hd⟩ := Expr.each_binary.1 he
      exact denote_binary_like (Expr.denote_like hσ ha hc hac) (Expr.denote_like hσ hb hd hbd)
    | _ => cases h
  | .subscript _ a b, e, ha, he, h => by
    cases e with
    | subscript _ c d =>
      have h : (a.equals c && b.equals d) = true := h
      rw [Bool.and_eq_true] at h
      obtain ⟨-, ha, hb⟩ := Expr.each_subscript.1 ha
      obtain ⟨-, hc, hd⟩ := Expr.each_subscript.1 he
      exact denote_subscript_like (Expr.denote_like hσ ha hc h.1) (Expr.denote_like hσ hb hd h.2)
    | _ => cases h
  | .switch _ es, b, ha, hb, h => by
    cases b with
    | switch _ fs =>
      rcases denoteCases_like hσ (Expr.each_switch.1 ha).2 (Expr.each_switch.1 hb).2 h with hboth | happart
      · exact .inl (settled_like hboth)
      · exact .inr (.switch happart)
    | _ => cases h

theorem denoteItems_like (hσ : ∀ name, (σ name).Like (σ name)) : ∀ {es fs : List Expr},
    (∀ e ∈ es, e.Each Expr.Proper) → (∀ f ∈ fs, f.Each Expr.Proper) → equalExprs es fs = true →
    Both (List.Forall₂ Value.Like) (denoteItems .strict σ es) (denoteItems .strict σ fs) ∨ ItemsTellApart σ es fs
  | [], [], _, _, _ => .inl (.ok .nil)
  | [], _ :: _, _, _, h | _ :: _, [], _, _, h => nomatch h
  | e :: es, f :: fs, hes, hfs, h => by
    obtain ⟨he, hes⟩ := List.forall_mem_cons.1 hes
    obtain ⟨hf, hfs⟩ := List.forall_mem_cons.1 hfs
    rw [equalExprs, Bool.and_eq_true] at h
    exact denoteItems_cons_like (Expr.denote_like hσ he hf h.1) (denoteItems_like hσ hes hfs h.2)

theorem denoteEntries_equals (hσ : ∀ name, (σ name).Like (σ name)) {fs : List (String × Expr)}
    (hfs : ∀ f ∈ fs, f.2.Each Expr.Proper) :
    ∀ {es : List (String × Expr)}, (∀ e ∈ es, e.2.Each Expr.Proper) → equalExprEntries es fs = true →
    ∀ e ∈ es, ∃ f, Entries.find? fs e.1 = some f ∧
      (Both Value.Like (e.2.denote .strict σ) (f.denote .strict σ) ∨ e.2.TellsApart σ f)
  | [], _, _ => fun _ he => absurd he List.not_mem_nil
  | (k, e) :: es, hes, h => by
    obtain ⟨he, hes⟩ := List.forall_mem_cons.1 hes
    rw [equalExprEntries, Bool.and_eq_true] at h
    refine List.forall_mem_cons.2 ⟨?_, denoteEntries_equals hσ hfs hes h.2⟩
    cases hfind : Entries.find? fs k with
    | none =>
      rw [hfind] at h
      cases h.1
    | some f =>
      rw [hfind] at h
      exact ⟨f, rfl, Expr.denote_like hσ he (hfs _ (Entries.mem_of_find? hfind)) h.1⟩

theorem denoteCases_like (hσ : ∀ name, (σ name).Like (σ name)) : ∀ {es fs : List Expr},
    (∀ e ∈ es, e.Each Expr.Proper) → (∀ f ∈ fs, f.Each Expr.Proper) → equalExprs es fs = true →
    Both Value.Like (denoteCases .strict σ es) (denoteCases .strict σ fs) ∨ CasesTellApart σ es fs
  | [], [], _, _, _ => .inl (.ok Value.like_undefined)
  | [], _ :: _, _, _, h | _ :: _, [], _, _, h => nomatch h
  | e :: es, f :: fs, hes, hfs, h => by
    obtain ⟨he, hes⟩ := List.forall_mem_cons.1 hes
    obtain ⟨hf, hfs⟩ := List.forall_mem_cons.1 hfs
    rw [equalExprs, Bool.and_eq_true] at h
    exact denoteCases_cons_like (Expr.denote_like hσ he hf h.1) (denoteCases_like hσ hes hfs h.2)

end

end

/-! ## Evaluations -/

namespace Expr

/-- The expression is read from a text, or is folded from one that is. -/
inductive OfText : Expr → Prop
  | read {text : String} {e : Expr} : parse text = .ok e → OfText e
  | folded {e : Expr} : OfText e → OfText e.optimize

theorem OfText.keyed {e : Expr} (h : e.OfText) : e.Keyed := by
  induction h with
  | read h => exact keyed_of_parse h
  | @folded e _ ih => exact foldInvariant_keyed.fold ih e.nextMark

/-- Equal expressions have equal values over the same variables, where every not-a-number counts as equal to itself, or fail
both. Only if their evaluations come to a step that tells equal operands apart, this may be different. -/
theorem evaluate_equals {a b : Expr} (ha : a.OfText) (hb : b.OfText) (hashort : a.Each Short) (hbshort : b.Each Short)
    (h : (a == b) = true) {c d : Context} (hd : d.store = c.store) (hc : ∀ f ∈ c.store.entries, f.2.Keyed) :
    Both (fun v w => v.bare.equals w.bare = true) (a.evaluate c).1 (b.evaluate d).1 ∨ a.TellsApart c.store.values b := by
  have hσ : ∀ name, (c.store.values name).Like (c.store.values name) := fun name =>
    Value.Keyed.like ((Value.each_bare keyed_heritable.bare _).2 (c.store.each_lookup keyed_heritable hc name))
  have hproper : ∀ {e : Expr}, e.OfText → e.Each Short → e.Each Proper := fun he hshort n hn => ⟨he.keyed n hn, hshort n hn⟩
  refine (denote_like hσ (hproper ha hashort) (hproper hb hbshort) h).imp_left fun hlike => ?_
  obtain ⟨-, hleft⟩ := run_yields .strict c.store a c rfl
  obtain ⟨-, hright⟩ := run_yields .strict c.store b d hd
  refine (hlike.of_agrees hleft hright).mono fun v w h => ?_
  have hequals := h.equals
  rwa [Value.bare_bare, Value.bare_bare] at hequals

/-- A map whose entries are in another order, with a zero of the other sign, and an index that is a range in one place and
an array in the other. -/
theorem evaluate_equals_reordered : ∃ (a b : Expr) (c d : Context), a.OfText ∧ b.OfText ∧ a.Each Short ∧ b.Each Short ∧
    (a == b) = true ∧ d.store = c.store ∧ (∀ f ∈ c.store.entries, f.2.Keyed) ∧
    (Both (fun v w => v.bare.equals w.bare = true) (a.evaluate c).1 (b.evaluate d).1 ∨
      a.TellsApart c.store.values b) := by
  let c := Context.ofStore [("x", .string "ab")] 0
  have hkeyed : ∀ f ∈ c.store.entries, f.2.Keyed := List.forall_mem_singleton.2 trivial
  have hequal : (parse "\x7b k: x[(1..0)], z: 0 \x7d").toOption.any (fun t =>
      (parse "\x7b z: -0, k: x[[1, 0]] \x7d").toOption.any fun u =>
        t.optimize.Each Short ∧ u.optimize.Each Short ∧ (t.optimize == u.optimize) = true) = true := by decide +kernel
  obtain ⟨t, ht, hequal⟩ := Except.exists_of_any hequal
  obtain ⟨u, hu, hequal⟩ := Except.exists_of_any hequal
  obtain ⟨htshort, hushort, hequal⟩ := of_decide_eq_true hequal
  have hfirst : t.optimize.OfText := .folded (.read ht)
  have hsecond : u.optimize.OfText := .folded (.read hu)
  exact ⟨_, _, c, c, hfirst, hsecond, htshort, hushort, hequal, rfl, hkeyed,
    evaluate_equals hfirst hsecond htshort hushort hequal rfl hkeyed⟩

/-- A folded range equals an array and has no sum. -/
theorem evaluate_equals_sum : ¬ ∀ (a b : Expr) (c d : Context), a.OfText → b.OfText → a.Each Short → b.Each Short →
    (a == b) = true → d.store = c.store → (∀ f ∈ c.store.entries, f.2.Keyed) →
    Both (fun v w => v.bare.equals w.bare = true) (a.evaluate c).1 (b.evaluate d).1 := by
  intro h
  let c := Context.ofStore [("x", .array [.number 3])] 0
  have hkeyed : ∀ f ∈ c.store.entries, f.2.Keyed := List.forall_mem_singleton.2 ⟨trivial, trivial, trivial⟩
  have hdiffers : (parse "[1, 2] + x").toOption.any (fun t => (parse "(1..2) + x").toOption.any fun u =>
      t.optimize.Each Short ∧ u.optimize.Each Short ∧ (t.optimize == u.optimize) = true ∧
        (t.optimize.evaluate c).1.toOption.isSome = true ∧ (u.optimize.evaluate c).1.toOption.isSome = false) = true := by
    decide +kernel
  obtain ⟨t, ht, hdiffers⟩ := Except.exists_of_any hdiffers
  obtain ⟨u, hu, hdiffers⟩ := Except.exists_of_any hdiffers
  obtain ⟨htshort, hushort, hequal, hleft, hright⟩ := of_decide_eq_true hdiffers
  have hboth := h _ _ c c (.folded (.read ht)) (.folded (.read hu)) htshort hushort hequal rfl hkeyed
  generalize (t.optimize.evaluate c).1 = r at hboth hleft
  generalize (u.optimize.evaluate c).1 = r' at hboth hright
  cases hboth with
  | ok => cases hright
  | error => cases hleft

end Expr

end ExprLang
