import ExprLang.Expr.Basic
import ExprLang.Proofs.Heredity
import ExprLang.Proofs.Parts

/-!
# Equality of what is built alike

Equality finds an entry by its key, so it needs maps without repeated keys: `Value.Keyed` and
`Expr.Keyed` say that there are no others.

- `keyed_heritable`: no step repeats a key in a map.
- `Value.equals_of_bare_eq`: values that differ in marks only are equal, but for not-a-numbers.
- `Value.equals_self`, `Expr.equals_self`: every value and every expression equals itself.
-/

namespace ExprLang

/-! ## Distinct keys -/

/-- A map has each key once. -/
def Value.DistinctKeys : Value → Prop
  | ⟨_, .map es⟩ => Entries.Nodup es
  | _ => True

/-- No map in the value repeats a key. -/
def Value.Keyed (v : Value) : Prop := v.Each DistinctKeys

/-- A node that is a map, or a literal with maps in it, has each key once. -/
def Expr.DistinctKeys : Expr → Prop
  | .literal _ v => v.Keyed
  | .map _ es => Entries.Nodup es
  | _ => True

/-- No map in the expression repeats a key. -/
def Expr.Keyed (e : Expr) : Prop := e.Each DistinctKeys

theorem Entries.keys_mapValues {α β : Type} (f : α → β) (es : Entries α) : keys (mapValues f es) = keys es := by
  simp [keys, mapValues]

theorem keyed_heritable : Value.Heritable Value.DistinctKeys where
  bare v := by
    obtain ⟨m, c⟩ := v
    cases c with
    | map es =>
      rw [Value.bare, bareEntries_eq]
      show Entries.Nodup _ ↔ Entries.Nodup _
      rw [Entries.Nodup, Entries.keys_mapValues, Entries.Nodup]
    | _ => exact Iff.rfl
  partless {v} h := by
    obtain ⟨m, c⟩ := v
    cases c with
    | map es => exact absurd rfl h.2
    | _ => trivial
  append _ _ := trivial
  select _ _ := trivial
  entries h := h
  union {es fs} h _ := Entries.nodup_union h fs

/-! ## Values -/

open Float.Model (UnpackedFloat) in
/-- Only not-a-number differs from itself. -/
theorem Number.beq_self (x : Float) : (x == x) = true ∨ x.isNaN = true := by
  have hself : ∀ u : UnpackedFloat, u.beq u = true ∨ u.isNaN = true := fun u => by
    cases u with
    | notANumber => exact .inr rfl
    | infinity s => cases s <;> exact .inl rfl
    | zero s => exact .inl rfl
    | finite s m e h =>
      have hsame : (compare e e).then (compare m m) = .eq := by simp
      cases s with
      | positive => exact .inl (congrArg (fun o => some o == some Ordering.eq) hsame)
      | negative => exact .inl (congrArg (fun o => some (Ordering.swap o) == some Ordering.eq) hsame)
  exact hself x.toModel.unpack

def Value.NotNaN : Value → Prop
  | ⟨_, .number x⟩ => x.isNaN = false
  | _ => True

mutual

/-- Values that differ in marks only are equal, unless a not-a-number in them is another object. -/
theorem Value.equals_of_bare_eq : ∀ {v w : Value}, v.bare = w.bare → v.Keyed → v.Each Value.NotNaN ∨ v = w →
    v.equals w = true
  | ⟨m, .array vs⟩, ⟨n, d⟩, hbare, hkeyed, hnan => by
    cases d with
    | array ws =>
      have hitems : bareItems vs = bareItems ws := Content.array.inj (Value.mk.inj hbare).2
      have hparts : (∀ v ∈ vs, v.Each Value.NotNaN) ∨ vs = ws :=
        hnan.imp (fun h => (Value.each_array.1 h).2) fun h => Content.array.inj (Value.mk.inj h).2
      exact equalItems_of_bare_eq hitems (Value.each_array.1 hkeyed).2 hparts
    | _ => cases hbare
  | ⟨m, .map es⟩, ⟨n, d⟩, hbare, hkeyed, hnan => by
    cases d with
    | map fs =>
      obtain ⟨hnodup, hkeyed⟩ := Value.each_map.1 hkeyed
      have hentries : bareEntries es = bareEntries fs := Content.map.inj (Value.mk.inj hbare).2
      have hparts : (∀ f ∈ es, f.2.Each Value.NotNaN) ∨ es = fs :=
        hnan.imp (fun h => (Value.each_map.1 h).2) fun h => Content.map.inj (Value.mk.inj h).2
      have hkeys : Entries.keys es = Entries.keys fs := by
        rw [bareEntries_eq, bareEntries_eq] at hentries
        rw [← Entries.keys_mapValues Value.bare es, hentries, Entries.keys_mapValues]
      have hlength : es.length = fs.length := by simpa [Entries.keys] using congrArg List.length hkeys
      have hfs : Entries.Nodup fs := by
        rw [Entries.Nodup, ← hkeys]
        exact hnodup
      rw [Value.equals, hlength, beq_self_eq_true, Bool.true_and]
      exact equalEntries_of_bare_eq hentries hkeyed hparts hfs fun _ hf => hf
    | _ => cases hbare
  | ⟨m, .number x⟩, ⟨n, d⟩, hbare, _, hnan => by
    cases d with
    | number y =>
      cases hbare
      rw [Value.equals]
      rcases Number.beq_self x with hx | hx
      · rw [hx, Bool.true_or]
      · have hmark : m = n := by
          rcases hnan with h | h
          · have hx' : x.isNaN = false := h
            rw [hx] at hx'
            cases hx'
          · exact (Value.mk.inj h).1
        rw [hx, hmark, beq_self_eq_true n, Bool.and_self, Bool.and_self, Bool.or_true]
    | _ => cases hbare
  | ⟨m, .boolean b⟩, ⟨n, d⟩, hbare, _, _ => by
    cases d with
    | boolean =>
      cases hbare
      exact beq_self_eq_true b
    | _ => cases hbare
  | ⟨m, .string s⟩, ⟨n, d⟩, hbare, _, _ => by
    cases d with
    | string =>
      cases hbare
      exact beq_self_eq_true s
    | _ => cases hbare
  | ⟨m, .range r⟩, ⟨n, d⟩, hbare, _, _ => by
    cases d with
    | range =>
      cases hbare
      cases r <;> exact beq_self_eq_true _
    | _ => cases hbare
  | ⟨m, .null⟩, ⟨n, d⟩, hbare, _, _ | ⟨m, .undefined⟩, ⟨n, d⟩, hbare, _, _ => by
    cases d <;> cases hbare
    rfl

theorem equalItems_of_bare_eq : ∀ {vs ws : List Value}, bareItems vs = bareItems ws → (∀ v ∈ vs, v.Keyed) →
    (∀ v ∈ vs, v.Each Value.NotNaN) ∨ vs = ws → equalItems vs ws = true
  | [], [], _, _, _ => rfl
  | v :: vs, w :: ws, hbare, hkeyed, hnan => by
    obtain ⟨hv, hvs⟩ := List.cons_eq_cons.1 hbare
    obtain ⟨hkey, hkeys⟩ := List.forall_mem_cons.1 hkeyed
    have hfirst := hnan.imp (fun h => h v List.mem_cons_self) fun h => (List.cons_eq_cons.1 h).1
    have hrest := hnan.imp (fun h => (List.forall_mem_cons.1 h).2) fun h => (List.cons_eq_cons.1 h).2
    rw [equalItems, Bool.and_eq_true]
    exact ⟨Value.equals_of_bare_eq hv hkey hfirst, equalItems_of_bare_eq hvs hkeys hrest⟩

/-- Entries in the same order are found in every map without repeated keys that has them. -/
theorem equalEntries_of_bare_eq : ∀ {es fs gs : List (String × Value)}, bareEntries es = bareEntries fs →
    (∀ f ∈ es, f.2.Keyed) → (∀ f ∈ es, f.2.Each Value.NotNaN) ∨ es = fs → Entries.Nodup gs → (∀ f ∈ fs, f ∈ gs) →
    equalEntries es gs = true
  | [], [], _, _, _, _, _, _ => rfl
  | (k, v) :: es, (l, w) :: fs, gs, hbare, hkeyed, hnan, hnodup, hsub => by
    obtain ⟨hf, hes⟩ := List.cons_eq_cons.1 hbare
    obtain ⟨rfl, hv⟩ := Prod.mk.inj hf
    obtain ⟨hkey, hkeys⟩ := List.forall_mem_cons.1 hkeyed
    obtain ⟨hmem, hsub⟩ := List.forall_mem_cons.1 hsub
    have hfirst := hnan.imp (fun h => h (k, v) List.mem_cons_self) fun h => (Prod.mk.inj (List.cons_eq_cons.1 h).1).2
    have hrest := hnan.imp (fun h => (List.forall_mem_cons.1 h).2) fun h => (List.cons_eq_cons.1 h).2
    have hequal := Value.equals_of_bare_eq hv hkey hfirst
    rw [equalEntries, (Entries.find?_eq_some_iff hnodup).2 hmem, Bool.and_eq_true]
    exact ⟨hequal, equalEntries_of_bare_eq hes hkeys hrest hnodup hsub⟩

end

theorem Value.equals_self {v : Value} (h : v.Keyed) : v.equals v = true := equals_of_bare_eq rfl h (.inr rfl)

/-! ## Expressions -/

mutual

theorem Expr.equals_self : ∀ {e : Expr}, e.Keyed → e.equals e = true
  | .literal _ v, h => Value.equals_self (Expr.each_literal.1 h)
  | .var _ name, _ => beq_self_eq_true name
  | .array _ items, h => equalExprs_self (Expr.each_array.1 h).2
  | .map _ es, h => by
    obtain ⟨hnodup, hes⟩ := Expr.each_map.1 h
    rw [Expr.equals, beq_self_eq_true, Bool.true_and]
    exact equalExprEntries_self hes hnodup fun _ hf => hf
  | .unary _ op a, h => by
    rw [Expr.equals, beq_self_eq_true, Bool.true_and]
    exact Expr.equals_self (Expr.each_unary.1 h).2
  | .binary _ op a b, h => by
    obtain ⟨-, ha, hb⟩ := Expr.each_binary.1 h
    rw [Expr.equals, beq_self_eq_true, Bool.true_and, Bool.and_eq_true]
    exact ⟨Expr.equals_self ha, Expr.equals_self hb⟩
  | .subscript _ a b, h => by
    obtain ⟨-, ha, hb⟩ := Expr.each_subscript.1 h
    rw [Expr.equals, Bool.and_eq_true]
    exact ⟨Expr.equals_self ha, Expr.equals_self hb⟩
  | .switch _ cases, h => equalExprs_self (Expr.each_switch.1 h).2

theorem equalExprs_self : ∀ {es : List Expr}, (∀ e ∈ es, e.Keyed) → equalExprs es es = true
  | [], _ => rfl
  | e :: es, h => by
    obtain ⟨he, hes⟩ := List.forall_mem_cons.1 h
    rw [equalExprs, Bool.and_eq_true]
    exact ⟨Expr.equals_self he, equalExprs_self hes⟩

theorem equalExprEntries_self : ∀ {es fs : List (String × Expr)}, (∀ f ∈ es, f.2.Keyed) → Entries.Nodup fs →
    (∀ f ∈ es, f ∈ fs) → equalExprEntries es fs = true
  | [], _, _, _, _ => rfl
  | (k, e) :: es, fs, h, hnodup, hsub => by
    obtain ⟨he, hes⟩ := List.forall_mem_cons.1 h
    obtain ⟨hmem, hsub⟩ := List.forall_mem_cons.1 hsub
    rw [equalExprEntries, (Entries.find?_eq_some_iff hnodup).2 hmem, Bool.and_eq_true]
    exact ⟨Expr.equals_self he, equalExprEntries_self hes hnodup hsub⟩

end

end ExprLang
