import ExprLang.Proofs.Denotation
import ExprLang.Proofs.Heredity
import ExprLang.Proofs.Parts

/-!
# What results are made of

A value of an expression is made of the values of its literals and variables by steps and by the
array and map nodes. So it has every heritable property of these values that new arrays and maps have
(`Expr.denote_each`, over the meanings; `Expr.evaluate_each` over evaluations).

* `Expr.evaluate_unranged`: no array in a result has a range among its items, if none of the values that the
  evaluation begins with has one.
-/

namespace ExprLang

/-! ## Meanings -/

/-- An outcome is that of the step, or undefined in its place. -/
theorem settled_ok {mode : Mode} {r : Except Error Value} {v : Value} (h : settled mode r = .ok v) :
    r = .ok v ∨ v = .undefined := by
  cases r with
  | ok => exact .inl h
  | error e =>
    simp only [settled] at h
    split at h <;> cases h
    exact .inr rfl

/-- The values in a literal have a property, and a map under the keys of a map node has it too. -/
def Expr.Supplies (P : Value → Prop) : Expr → Prop
  | .literal _ v => v.Each P
  | .map _ es => ∀ vs, Entries.keys vs = Entries.keys es → P (.map vs)
  | _ => True

/-- A heritable property that an array has if none of its items is a range. -/
structure Value.Inherited (P : Value → Prop) : Prop extends Value.Heritable P where
  array {vs : List Value} : (∀ v ∈ vs, v.kind ≠ .range) → P (.array vs)

section

variable {P : Value → Prop} {mode : Mode} {σ : String → Value}

theorem keys_denoteEntries : ∀ {es : List (String × Expr)} {vs : Entries Value},
    denoteEntries mode σ es = .ok vs → Entries.keys vs = Entries.keys es
  | [], _, h => by
    cases h
    rfl
  | (k, e) :: es, _, h => by
    obtain ⟨v, -, h⟩ := Except.bind_ok.1 h
    obtain ⟨vs, hvs, h⟩ := Except.bind_ok.1 h
    cases h
    exact congrArg (k :: ·) (keys_denoteEntries hvs)

theorem each_settled (hP : Value.Heritable P) {r : Except Error Value} {v : Value} (h : settled mode r = .ok v)
    (hr : r = .ok v → v.Each P) : v.Each P := by
  rcases settled_ok h with h | rfl
  · exact hr h
  · exact Value.plain_undefined.partless.each hP

mutual

theorem Expr.denote_each (hP : Value.Inherited P) (hσ : ∀ name, (σ name).Each P) : ∀ {e : Expr} {v : Value},
    e.Each (Expr.Supplies P) → e.denote mode σ = .ok v → v.Each P
  | .literal _ _, _, he, h => by
    cases h
    exact (Value.each_bare hP.bare _).2 (Expr.each_literal.1 he)
  | .var _ name, _, _, h => by
    cases h
    exact hσ name
  | .array _ items, _, he, h => each_settled hP.toHeritable h fun h => by
    obtain ⟨vs, hvs, h⟩ := Except.bind_ok.1 h
    cases h
    have hitems := denoteItems_each hP hσ (Expr.each_array.1 he).2 hvs
    exact Value.each_array.2 ⟨hP.array fun v hv => (hitems v hv).1, fun v hv => (hitems v hv).2⟩
  | .map _ entries, _, he, h => each_settled hP.toHeritable h fun h => by
    obtain ⟨vs, hvs, h⟩ := Except.bind_ok.1 h
    cases h
    obtain ⟨hmap, hentries⟩ := Expr.each_map.1 he
    exact Value.each_map.2 ⟨hmap vs (keys_denoteEntries hvs), denoteEntries_each hP hσ hentries hvs⟩
  | .unary _ op a, _, he, h => each_settled hP.toHeritable h fun h => by
    obtain ⟨v, hv, h⟩ := Except.bind_ok.1 h
    exact op.each_apply hP.toHeritable (Expr.denote_each hP hσ (Expr.each_unary.1 he).2 hv) h
  | .binary _ op a b, _, he, h => each_settled hP.toHeritable h fun h => by
    obtain ⟨-, ha, hb⟩ := Expr.each_binary.1 he
    obtain ⟨v, hv, h⟩ := Except.bind_ok.1 h
    have hdemand := op.each_afterLeft hP.toHeritable (Expr.denote_each hP hσ ha hv)
    generalize op.afterLeft v = d at hdemand h
    cases d with
    | done r => exact hdemand _ h
    | right finish =>
      obtain ⟨w, hw, h⟩ := Except.bind_ok.1 h
      exact hdemand w _ (Expr.denote_each hP hσ hb hw) h
  | .subscript _ a b, _, he, h => each_settled hP.toHeritable h fun h => by
    obtain ⟨v, hv, h⟩ := Except.bind_ok.1 h
    obtain ⟨w, -, h⟩ := Except.bind_ok.1 h
    exact (Value.subscript_selects h).each hP.toHeritable (Expr.denote_each hP hσ (Expr.each_subscript.1 he).2.1 hv)
  | .switch _ cases, _, he, h => each_settled hP.toHeritable h (denoteCases_each hP hσ (Expr.each_switch.1 he).2)

theorem denoteItems_each (hP : Value.Inherited P) (hσ : ∀ name, (σ name).Each P) : ∀ {es : List Expr}
    {vs : List Value}, (∀ e ∈ es, e.Each (Expr.Supplies P)) → denoteItems mode σ es = .ok vs →
    ∀ v ∈ vs, v.kind ≠ .range ∧ v.Each P
  | [], _, _, h => by
    cases h
    exact fun _ hv => absurd hv List.not_mem_nil
  | e :: es, _, hes, h => by
    obtain ⟨he, hes⟩ := List.forall_mem_cons.1 hes
    obtain ⟨v, hv, h⟩ := Except.bind_ok.1 h
    obtain ⟨vs, hsplice, h⟩ := Except.bind_ok.1 h
    obtain ⟨ws, hws, h⟩ := Except.bind_ok.1 h
    cases h
    have hitems := Value.each_splice hP.toHeritable (Expr.denote_each hP hσ he hv) hsplice
    exact List.forall_mem_append.2 ⟨hitems, denoteItems_each hP hσ hes hws⟩

theorem denoteEntries_each (hP : Value.Inherited P) (hσ : ∀ name, (σ name).Each P) :
    ∀ {es : List (String × Expr)} {vs : Entries Value}, (∀ f ∈ es, f.2.Each (Expr.Supplies P)) →
    denoteEntries mode σ es = .ok vs → ∀ f ∈ vs, f.2.Each P
  | [], _, _, h => by
    cases h
    exact fun _ hf => absurd hf List.not_mem_nil
  | (k, e) :: es, _, hes, h => by
    obtain ⟨he, hes⟩ := List.forall_mem_cons.1 hes
    obtain ⟨v, hv, h⟩ := Except.bind_ok.1 h
    obtain ⟨vs, hvs, h⟩ := Except.bind_ok.1 h
    cases h
    exact List.forall_mem_cons.2 ⟨Expr.denote_each hP hσ he hv, denoteEntries_each hP hσ hes hvs⟩

theorem denoteCases_each (hP : Value.Inherited P) (hσ : ∀ name, (σ name).Each P) : ∀ {es : List Expr}
    {v : Value}, (∀ e ∈ es, e.Each (Expr.Supplies P)) → denoteCases mode σ es = .ok v → v.Each P
  | [], _, _, h => by
    cases h
    exact Value.plain_undefined.partless.each hP.toHeritable
  | e :: es, _, hes, h => by
    obtain ⟨he, hes⟩ := List.forall_mem_cons.1 hes
    obtain ⟨v, hv, h⟩ := Except.bind_ok.1 h
    split at h
    · exact denoteCases_each hP hσ hes h
    · cases h
      exact Expr.denote_each hP hσ he hv

end

end

/-! ## Evaluations -/

theorem Store.each_lookup {P : Value → Prop} (hP : Value.Heritable P) (s : Store) (hs : ∀ f ∈ s.entries, f.2.Each P)
    (name : String) : (s.lookup name).Each P := by
  unfold lookup
  cases h : Entries.find? s.entries name with
  | none => exact Value.plain_undefined.partless.each hP
  | some v => exact hs _ (Entries.mem_of_find? h)

/-- Evaluation, strict or lenient, gives values with a heritable property if it begins with such values. -/
theorem Expr.evaluate_each {P : Value → Prop} (hP : Value.Inherited P) {e : Expr} {c : Context}
    (he : e.Each (Supplies P)) (hc : ∀ name, (c.lookup name).Each P) :
    (∀ v, (e.evaluate c).1 = .ok v → v.Each P) ∧ (e.tryEvaluate c).1.Each P := by
  have hσ : ∀ name, (c.store.values name).Each P := fun name => (Value.each_bare hP.bare _).2 (hc name)
  constructor
  · intro v hv
    obtain ⟨-, agrees⟩ := run_yields .strict c.store e c rfl
    rw [show (e.run .strict c).1 = .ok v from hv] at agrees
    exact (Value.each_bare hP.bare v).1 (denote_each hP hσ he agrees.eq_ok)
  · rw [← Value.each_bare hP.bare, tryEvaluate_bare]
    cases h : e.denote .lenient c.store.values with
    | ok v => exact denote_each hP hσ he h
    | error => exact Value.plain_undefined.partless.each hP.toHeritable

/-! ## Ranges in arrays -/

/-- An array has no range among its items. -/
def Value.ListsNoRange : Value → Prop
  | ⟨_, .array vs⟩ => ∀ v ∈ vs, v.kind ≠ .range
  | _ => True

/-- No array in the value, at any depth, has a range among its items. -/
def Value.Unranged (v : Value) : Prop := v.Each ListsNoRange

theorem unranged_inherited : Value.Inherited Value.ListsNoRange where
  bare v := by
    obtain ⟨m, c⟩ := v
    cases c with
    | array vs =>
      rw [Value.bare, bareItems_eq]
      show (∀ v ∈ vs.map Value.bare, v.kind ≠ .range) ↔ ∀ v ∈ vs, v.kind ≠ .range
      rw [List.forall_mem_map]
      exact forall₂_congr fun v _ => by rw [Value.kind_bare]
    | _ => exact Iff.rfl
  partless {v} h := by
    obtain ⟨m, c⟩ := v
    cases c with
    | array vs => exact absurd rfl h.1
    | _ => trivial
  append hvs hws := List.forall_mem_append.2 ⟨hvs, hws⟩
  select hvs hws w hw := hvs w (hws w hw)
  entries _ := trivial
  union _ _ := trivial
  array h := h

instance : DecidablePred Value.ListsNoRange
  | ⟨_, .array vs⟩ => inferInstanceAs (Decidable (∀ v ∈ vs, v.kind ≠ .range))
  | ⟨_, .boolean _⟩ | ⟨_, .string _⟩ | ⟨_, .number _⟩ | ⟨_, .map _⟩ | ⟨_, .range _⟩ | ⟨_, .null⟩ | ⟨_, .undefined⟩ =>
    .isTrue trivial

instance (v : Value) : Decidable v.Unranged := inferInstanceAs (Decidable (v.Each _))

/-- A literal has no array with a range. -/
def Expr.Unranged : Expr → Prop
  | .literal _ v => v.Unranged
  | _ => True

instance : DecidablePred Expr.Unranged
  | .literal _ v => inferInstanceAs (Decidable v.Unranged)
  | .var .. | .array .. | .map .. | .unary .. | .binary .. | .subscript .. | .switch .. => .isTrue trivial

/-- Evaluation puts no range into an array. -/
theorem Expr.evaluate_unranged (e : Expr) (c : Context) (he : e.Each Unranged)
    (hc : ∀ f ∈ c.store.entries, f.2.Unranged) :
    (∀ v, (e.evaluate c).1 = .ok v → v.Unranged) ∧ (e.tryEvaluate c).1.Unranged := by
  refine evaluate_each unranged_inherited (fun n hn => ?_) (c.store.each_lookup unranged_inherited.toHeritable hc)
  have hnode := he n hn
  cases n with
  | literal => exact hnode
  | map => exact fun _ _ => trivial
  | _ => trivial

/-- Ranges as a literal, as a variable and as an entry, spliced into an array, joined to another and selected from. -/
theorem Expr.evaluate_unranged_spliced :
    let x : Expr := .var none "x"
    let items : Expr := .array none [.literal none (.range (.between 1 2)), x]
    let e : Expr := .subscript none (.binary none .add items (.array none [.map none [("k", x)]])) x
    let c : Context := .ofStore [("x", .range (.between 0 1))] 0
    (e.Each Unranged ∧ ∀ f ∈ c.store.entries, f.2.Unranged) ∧
      (∀ v, (e.evaluate c).1 = .ok v → v.Unranged) ∧ (e.tryEvaluate c).1.Unranged :=
  ⟨by decide, evaluate_unranged _ _ (by decide) (by decide)⟩

end ExprLang
