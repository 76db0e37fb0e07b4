import ExprLang.Proofs.Denotation
import ExprLang.Proofs.Parts

/-!
# Variables of an expression

`Expr.names` lists the variables that occur in an expression. What is asked of all of them is asked of
every node that is a variable (`forall_names`), and so goes down a tree by the lemmas on `Expr.Each`.
The meaning of an expression depends on the values of these variables alone (`Expr.denote_congr`).
-/

namespace ExprLang.Expr

def name? : Expr → Option String
  | var _ name => some name
  | _ => none

/-- The variables that occur in an expression, from left to right. -/
def names (e : Expr) : List String := e.nodes.filterMap name?

theorem forall_names {Q : String → Prop} {e : Expr} :
    (∀ x ∈ e.names, Q x) ↔ e.Each fun n => ∀ x, n.name? = some x → Q x := by
  simp only [names, List.mem_filterMap, Each]
  constructor
  · exact fun h n hn x hx => h x ⟨n, hn, hx⟩
  · rintro h x ⟨n, hn, hx⟩
    exact h n hn x hx

theorem names_eq_nil_iff {e : Expr} : e.names = [] ↔ e.Each fun n => n.name? = none := by
  rw [names, List.filterMap_eq_nil_iff, Each]

/-! ## Meanings -/

/-- If the node is a variable, it has the same value. -/
def SameValue (σ τ : String → Value) (n : Expr) : Prop := ∀ x, n.name? = some x → σ x = τ x

end ExprLang.Expr

namespace ExprLang

variable {mode : Mode} {σ τ : String → Value}

open ExprLang.Expr in
mutual

theorem Expr.denote_sameValue : ∀ {e : Expr}, e.Each (SameValue σ τ) → e.denote mode σ = e.denote mode τ
  | .literal _ _, _ => rfl
  | .var _ name, h => congrArg Except.ok (each_var.1 h name rfl)
  | .array _ items, h => by rw [denote, denote, denoteItems_sameValue (each_array.1 h).2]
  | .map _ entries, h => by rw [denote, denote, denoteEntries_sameValue (each_map.1 h).2]
  | .unary _ _ a, h => by rw [denote, denote, Expr.denote_sameValue (each_unary.1 h).2]
  | .binary _ _ a b, h => by
    obtain ⟨-, ha, hb⟩ := each_binary.1 h
    rw [denote, denote, Expr.denote_sameValue ha, Expr.denote_sameValue hb]
  | .subscript _ a b, h => by
    obtain ⟨-, ha, hb⟩ := each_subscript.1 h
    rw [denote, denote, Expr.denote_sameValue ha, Expr.denote_sameValue hb]
  | .switch _ cases, h => by rw [denote, denote, denoteCases_sameValue (each_switch.1 h).2]

theorem denoteItems_sameValue : ∀ {es : List Expr}, (∀ e ∈ es, e.Each (SameValue σ τ)) →
    denoteItems mode σ es = denoteItems mode τ es
  | [], _ => rfl
  | e :: es, h => by
    obtain ⟨he, hes⟩ := List.forall_mem_cons.1 h
    rw [denoteItems, denoteItems, Expr.denote_sameValue he, denoteItems_sameValue hes]

theorem denoteEntries_sameValue : ∀ {es : List (String × Expr)}, (∀ f ∈ es, f.2.Each (SameValue σ τ)) →
    denoteEntries mode σ es = denoteEntries mode τ es
  | [], _ => rfl
  | (_, e) :: es, h => by
    obtain ⟨he, hes⟩ := List.forall_mem_cons.1 h
    rw [denoteEntries, denoteEntries, Expr.denote_sameValue he, denoteEntries_sameValue hes]

theorem denoteCases_sameValue : ∀ {es : List Expr}, (∀ e ∈ es, e.Each (SameValue σ τ)) →
    denoteCases mode σ es = denoteCases mode τ es
  | [], _ => rfl
  | e :: es, h => by
    obtain ⟨he, hes⟩ := List.forall_mem_cons.1 h
    rw [denoteCases, denoteCases, Expr.denote_sameValue he, denoteCases_sameValue hes]

end

/-- Variables that do not occur in an expression do not count. -/
theorem Expr.denote_congr (mode : Mode) {e : Expr} (h : ∀ x ∈ e.names, σ x = τ x) :
    e.denote mode σ = e.denote mode τ := denote_sameValue (forall_names.1 h)

end ExprLang
