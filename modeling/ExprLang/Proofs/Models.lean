import ExprLang.Proofs.Comparison
import ExprLang.Proofs.Printing.Models

/-!
# What a model list selects

A list of entries is tried from its end: the last entry that has no condition, or one that holds, counts
(`ModelList.denoteCases_nodes`, `ModelList.read_selects_last`).
-/

namespace ExprLang.ModelList

/-! ## Conditions -/

namespace Condition

/-- The variable in a context, compared with the literal. -/
def order (d : Condition) (c : Context) : Except Error Ordering := (c.lookup d.key.text).compare d.literal.value

theorem denote_node {d : Condition} {c : Context} {o : Ordering} (h : d.order c = .ok o) :
    d.node.denote .strict c.store.values = .ok (.boolean o.isEq) := by
  have hcompare : (c.store.values d.key.text).compare d.literal.value.bare = .ok o := by
    rw [Store.values, Value.compare_bare]
    exact h
  show settled .strict (Value.comparison Ordering.isEq (c.store.values d.key.text) d.literal.value.bare) = _
  rw [Value.comparison, hcompare]
  rfl

end Condition

/-! ## Entries -/

namespace StaticEntry

/-- Whether there is no condition, or one that holds. -/
def applies (c : Context) (e : StaticEntry) : Bool := e.condition.all fun d => Outcome.isTie (d.order c)

theorem unplaced_node (e : StaticEntry) : e.node.unplaced = e.node := by
  obtain ⟨path, numbers, condition⟩ := e
  cases condition <;> rfl

/-- The tree of an entry gives its model, or undefined where it does not apply. -/
theorem denote_node {e : StaticEntry} {c : Context} (h : ∀ d ∈ e.condition, ∃ o, d.order c = .ok o) :
    e.node.denote .strict c.store.values = .ok (if e.applies c then e.model else .undefined) := by
  obtain ⟨path, numbers, condition⟩ := e
  cases condition with
  | none => rfl
  | some d =>
    obtain ⟨o, ho⟩ := h d rfl
    have happlies : applies c ⟨path, numbers, some d⟩ = Outcome.isTie (.ok o) := congrArg Outcome.isTie ho
    show (Expr.binary none .guarded d.node _).denote .strict c.store.values = _
    rw [Expr.denote, Condition.denote_node ho, happlies]
    cases o <;> rfl

end StaticEntry

/-- The first entry that applies counts. -/
theorem denoteCases_nodes {c : Context} {es : List StaticEntry}
    (h : ∀ e ∈ es, ∀ d ∈ e.condition, ∃ o, d.order c = .ok o) :
    denoteCases .strict c.store.values (es.map StaticEntry.node) =
      .ok (((es.find? (·.applies c)).map StaticEntry.model).getD .undefined) := by
  induction es with
  | nil => rfl
  | cons e es ih =>
    obtain ⟨he, hes⟩ := List.forall_mem_cons.1 h
    rw [List.map_cons, denoteCases, StaticEntry.denote_node he, List.find?_cons]
    cases e.applies c with
    | true => rfl
    | false => exact ih hes

/-- The text of a list is read, and its value is the model of the last entry that applies, or undefined if there is
none, wherever the variables can be compared with their literals. -/
theorem read_selects_last {es : List StaticEntry} (hes : es ≠ []) (origin : Location) :
    ∃ e k, read [.endOfInput] (Cursor.start (text es) origin) = (.ok e, k) ∧
      ∀ c : Context, (∀ entry ∈ es, ∀ d ∈ entry.condition, ∃ o, d.order c = .ok o) →
        e.Gives c (((es.filter (·.applies c)).getLast?.map StaticEntry.model).getD .undefined) := by
  obtain ⟨l, xs, k, hread, hnodes⟩ := read_text hes origin
  refine ⟨_, k, hread, fun c hc => ?_⟩
  have hunplaced : (Expr.switch l xs).unplaced = (Expr.switch none (es.reverse.map StaticEntry.node)).unplaced := by
    have hnone : es.reverse.map (Expr.unplaced ∘ StaticEntry.node) = es.reverse.map StaticEntry.node :=
      List.map_congr_left fun e _ => e.unplaced_node
    rw [Expr.unplaced, Expr.unplaced, unplacedItems_eq, unplacedItems_eq, hnodes, List.map_map, hnone,
      List.map_reverse]
  have hreversed : ∀ entry ∈ es.reverse, ∀ d ∈ entry.condition, ∃ o, d.order c = .ok o :=
    fun entry hentry => hc entry (List.mem_reverse.1 hentry)
  -- The switch has the entries in reverse, so its first case that applies is the last entry that does.
  have hlast : (es.filter (·.applies c)).getLast? = es.reverse.find? (·.applies c) := by
    rw [List.getLast?_eq_head?_reverse, ← List.filter_reverse, List.head?_filter]
  rw [Expr.gives_iff, Expr.denote_eq_of_unplaced_eq hunplaced, Expr.denote, denoteCases_nodes hreversed, hlast]
  cases es.reverse.find? (·.applies c) <;> rfl

/-- A variable that is equal to a number once it is read as one. -/
def shellContext : Context := .ofStore [("x", .string "1")] 0

/-- An entry for all, one for some, and one for none. -/
def shells : List StaticEntry :=
  [⟨":\"a\".bsp", none, none⟩,
    ⟨"::b.bsp", some (⟨"1".toList, rfl⟩, some ⟨"2.5".toList, rfl⟩),
      some ⟨⟨"x".toList, rfl⟩, .number ⟨"1e0".toList, rfl⟩⟩⟩,
    ⟨"c.bsp", none, some ⟨⟨"y".toList, rfl⟩, .string "z"⟩⟩]

theorem read_selects_last_shells : shells ≠ [] ∧
    (∀ entry ∈ shells, ∀ d ∈ entry.condition, ∃ o, d.order shellContext = .ok o) ∧
    text shells = "\":\\\"a\\\".bsp\", \"::b.bsp\" 1 2.5 x = 1e0, \"c.bsp\" y = \"z\"" ∧
    ∃ e k, read [.endOfInput] (Cursor.start (text shells) .start) = (.ok e, k) ∧
      e.Gives shellContext (.map [("path", .string ":b.bsp"), ("skin", .number 1), ("frame", .number 2.5)]) := by
  have hne : shells ≠ [] := List.cons_ne_nil _ _
  have hdecided : ∀ entry ∈ shells, ∀ d ∈ entry.condition, ∃ o, d.order shellContext = .ok o := by
    have hdefined : shells.all (fun e => e.condition.all fun d => (d.order shellContext).toOption.isSome) = true := by
      decide +kernel
    intro entry hentry d hd
    have hentry := List.all_eq_true.1 hdefined entry hentry
    rw [Option.mem_def.1 hd, Option.all_some] at hentry
    cases horder : d.order shellContext with
    | ok o => exact ⟨o, rfl⟩
    | error e =>
      rw [horder] at hentry
      cases hentry
  have hlast : ((shells.filter (·.applies shellContext)).getLast?.map StaticEntry.model).getD .undefined =
      .map [("path", .string ":b.bsp"), ("skin", .number 1), ("frame", .number 2.5)] := rfl
  obtain ⟨e, k, hread, hgives⟩ := read_selects_last hne .start
  rw [← hlast]
  exact ⟨hne, hdecided, by decide +kernel, e, k, hread, hgives shellContext hdecided⟩

end ExprLang.ModelList
