import ExprLang.Proofs.Parser.Progress

/-!
# Enough depth

The depth of a reading bounds how many calls follow each other. A function that runs out of depth does so in one of the
calls of `Calls` (`Routine.RunsOut.calls`): so none is missing there, and a path of calls is as long as the depth that
was given. Every call costs some of a budget that is linear in the tokens (`Calls.budget_lt`), and a text has no more
tokens than bytes.
-/

namespace ExprLang

open Relation (ReflTransGen TransGen)

/-! ## Running out of depth -/

namespace Reading

variable {α β : Type} {s : Tokens} {ks : List Token.Kind}

/-- The depth is used up. -/
def RunsOut (x : Reading α) (s : Tokens) : Prop := x s = .error .outOfDepth

theorem runsOut_bind {x : Reading α} {f : α → Reading β} :
    (x >>= f).RunsOut s ↔ x.RunsOut s ∨ ∃ a s₁, x s = .ok (a, s₁) ∧ (f a).RunsOut s₁ := by
  show (x s >>= fun p => f p.1 p.2) = .error .outOfDepth ↔ x s = .error .outOfDepth ∨ _
  rcases x s with e | ⟨a, s₁⟩
  · refine ⟨fun h => .inl (by cases h; rfl), fun h => ?_⟩
    rcases h with h | ⟨_, _, h, _⟩
    · cases h
      rfl
    · cases h
  · refine ⟨fun h => .inr ⟨a, s₁, rfl, h⟩, fun h => ?_⟩
    rcases h with h | ⟨_, _, h, hf⟩
    · cases h
    · cases h
      exact hf

theorem not_runsOut_bind {x : Reading α} {f : α → Reading β} (hx : ∀ s, ¬ x.RunsOut s) (hf : ∀ a s, ¬ (f a).RunsOut s)
    (s : Tokens) : ¬ (x >>= f).RunsOut s := by
  intro h
  rcases runsOut_bind.1 h with h | ⟨a, s₁, -, h⟩
  · exact hx s h
  · exact hf a s₁ h

theorem not_runsOut_pure (a : α) : ¬ (pure a : Reading α).RunsOut s := by
  intro h
  cases h

theorem not_runsOut_refuse (e : Error) (c : Cursor) : ¬ (refuse e c : Reading α).RunsOut s := by
  intro h
  cases h

theorem not_runsOut_look (f : Tokens → Except Error α) : ¬ (look f).RunsOut s := by
  intro h
  unfold RunsOut look at h
  split at h <;> cases h

theorem not_runsOut_peek : ¬ peek.RunsOut s := not_runsOut_look _

theorem not_runsOut_peekSecond : ¬ peekSecond.RunsOut s := not_runsOut_look _

theorem not_runsOut_peekExpected : ¬ (peekExpected ks).RunsOut s := not_runsOut_look _

theorem not_runsOut_ahead (k : Token.Kind) : ¬ (ahead k).RunsOut s := by
  intro h
  rcases runsOut_bind.1 h with h | ⟨_, _, _, h⟩
  · exact not_runsOut_peek h
  · exact not_runsOut_pure _ h

theorem not_runsOut_next : ¬ next.RunsOut s := by
  intro h
  unfold RunsOut next at h
  split at h <;> cases h

theorem not_runsOut_expect : ¬ (expect ks).RunsOut s := by
  intro h
  unfold RunsOut expect at h
  split at h <;> cases h

end Reading

namespace Parser

/-- The function runs out of depth with these tokens ahead and something else that it is given. -/
def Routine.RunsOut (d : Nat) (s : Tokens) : Routine → Prop
  | expression => (Parser.expression d).RunsOut s
  | operators => ∃ left, (Parser.operators d left).RunsOut s
  | term => (Parser.term d).RunsOut s
  | subscripts => ∃ base, (Parser.subscripts d base).RunsOut s
  | simple => (Parser.simple d).RunsOut s
  | list => ∃ kind, (Parser.list d kind).RunsOut s
  | items => ∃ kind, (Parser.items d kind).RunsOut s
  | item => ∃ kind, (Parser.item d kind).RunsOut s
  | map => (Parser.map d).RunsOut s
  | entries => ∃ before, (Parser.entries d before).RunsOut s
  | modelEntries => ∃ closing, (ModelList.entries closing d).RunsOut s
  | modelKeys => ∃ known, (ModelList.dynamicKeys d known).RunsOut s

/-- One of the calls that a function makes runs out of depth. -/
def Routine.CallRunsOut (d : Nat) (s : Tokens) (f : Routine) : Prop :=
  ∃ g s', Calls (f, s) (g, s') ∧ g.RunsOut d s'

section Depth

open Reading

variable {d : Nat} {s : Tokens}

theorem expression_calls (h : (expression (d + 1)).RunsOut s) : Routine.expression.CallRunsOut d s := by
  simp only [expression, runsOut_bind, not_runsOut_peekExpected, false_or, peekExpected_ok] at h
  obtain ⟨_, _, ⟨_, rfl⟩, h | ⟨e, s₁, he, h⟩⟩ := h
  · exact ⟨_, _, .firstTerm, h⟩
  · exact ⟨_, _, .afterTerm he, e, h⟩

theorem operators_calls {left : Expr} (h : (operators (d + 1) left).RunsOut s) : Routine.operators.CallRunsOut d s := by
  simp only [operators, runsOut_bind, not_runsOut_peek, false_or, peek_ok] at h
  obtain ⟨t, s, ⟨ht, rfl⟩, h⟩ := h
  -- an operator with its operand, and the operators behind it
  have hoperand : ∀ (op : BinaryOp) (join : Expr → Expr), BinaryOp.ofKind? t.kind = some op →
      Reading.RunsOut (do let _ ← next; operators d (join (← term d)) : Reading Expr) s →
      Routine.operators.CallRunsOut d s := by
    intro op join hop h
    simp only [runsOut_bind, not_runsOut_next, false_or, next_ok] at h
    obtain ⟨_, _, ⟨_, rfl⟩, h | ⟨e, s₁, he, h⟩⟩ := h
    · exact ⟨_, _, .operand ht hop, h⟩
    · exact ⟨_, _, .nextOperator ht hop he, _, h⟩
  split at h
  · exact absurd h (not_runsOut_pure _)
  · next hop =>
    simp only [runsOut_bind, not_runsOut_peekSecond, false_or, peekSecond_ok] at h
    obtain ⟨_, _, ⟨_, rfl⟩, h⟩ := h
    split at h
    · exact hoperand .range (fun e => left.join t.location .range e) hop h
    · exact absurd h (not_runsOut_pure _)
  · next op _ hop => exact hoperand op (fun e => left.join t.location op e) hop h

theorem term_calls (h : (term (d + 1)).RunsOut s) : Routine.term.CallRunsOut d s := by
  simp only [term, runsOut_bind, not_runsOut_peekExpected, false_or, peekExpected_ok] at h
  obtain ⟨t, _, ⟨⟨ht, _⟩, rfl⟩, h⟩ := h
  split at h
  · next hk =>
    simp only [runsOut_bind, not_runsOut_expect, not_runsOut_peekExpected, not_runsOut_pure, false_or, and_false,
      exists_false, or_false, expect_ok, peekExpected_ok] at h
    obtain ⟨_, _, ⟨_, rfl⟩, _, _, ⟨_, rfl⟩, h⟩ := h
    exact ⟨_, _, .cases ht hk, _, h⟩
  · rcases runsOut_bind.1 h with h | ⟨e, s₁, he, h⟩
    · exact ⟨_, _, .simple, h⟩
    · exact ⟨_, _, .afterSimple he, e, h⟩

theorem subscripts_calls {base : Expr} (h : (subscripts (d + 1) base).RunsOut s) : Routine.subscripts.CallRunsOut d s := by
  simp only [subscripts, runsOut_bind, not_runsOut_peek, false_or, peek_ok] at h
  obtain ⟨t, _, ⟨ht, rfl⟩, h⟩ := h
  split at h
  · next hk =>
    simp only [runsOut_bind, not_runsOut_next, false_or, next_ok] at h
    obtain ⟨_, _, ⟨_, rfl⟩, h | ⟨es, s₁, hes, h⟩⟩ := h
    · exact ⟨_, _, .indices ht hk, _, h⟩
    · exact ⟨_, _, .nextSubscript ht hk hes, _, h⟩
  · exact absurd h (not_runsOut_pure _)

theorem simple_calls (h : (simple (d + 1)).RunsOut s) : Routine.simple.CallRunsOut d s := by
  simp only [simple, runsOut_bind, not_runsOut_peekExpected, false_or, peekExpected_ok] at h
  obtain ⟨t, _, ⟨⟨ht, _⟩, rfl⟩, h⟩ := h
  split at h
  all_goals simp only [runsOut_bind, not_runsOut_next, not_runsOut_look, not_runsOut_expect, not_runsOut_pure, false_or,
    and_false, exists_false, or_false, next_ok, expect_ok] at h
  · next hk =>
    obtain ⟨_, _, ⟨_, rfl⟩, h⟩ := h
    exact ⟨_, _, .unary ht hk, h⟩
  · next hk =>
    obtain ⟨_, _, ⟨_, rfl⟩, h⟩ := h
    exact ⟨_, _, .group ht hk, h⟩
  · next hk =>
    obtain ⟨_, _, ⟨_, rfl⟩, h⟩ := h
    exact ⟨_, _, .array ht hk, _, h⟩
  · next hk =>
    obtain ⟨_, _, ⟨_, rfl⟩, h⟩ := h
    exact ⟨_, _, .mapping ht hk, h⟩

theorem list_calls {kind : Item} (h : (list (d + 1) kind).RunsOut s) : Routine.list.CallRunsOut d s := by
  simp only [list, runsOut_bind, not_runsOut_ahead, false_or, ahead_ok] at h
  obtain ⟨_, _, ⟨_, rfl⟩, h⟩ := h
  split at h
  · simp only [runsOut_bind, not_runsOut_next, not_runsOut_pure, false_or, and_false, exists_false] at h
  · exact ⟨_, _, .items, _, h⟩

theorem items_calls {kind : Item} (h : (items (d + 1) kind).RunsOut s) : Routine.items.CallRunsOut d s := by
  simp only [items, runsOut_bind, not_runsOut_expect, false_or, expect_ok] at h
  obtain h | ⟨e, s₁, he, t, _, ⟨⟨ht, _⟩, rfl⟩, h⟩ := h
  · exact ⟨_, _, .item, _, h⟩
  · split at h
    · next hk =>
      simp only [runsOut_bind, not_runsOut_pure, and_false, exists_false, or_false] at h
      exact ⟨_, _, .nextItem he ht hk, _, h⟩
    · exact absurd h (not_runsOut_pure _)

theorem item_calls {kind : Item} (h : (item (d + 1) kind).RunsOut s) : Routine.item.CallRunsOut d s := by
  cases kind with
  | case => exact ⟨_, _, .content, h⟩
  | element =>
    simp only [item, runsOut_bind, not_runsOut_peek, false_or, peek_ok] at h
    obtain h | ⟨e, s₁, he, t, _, ⟨ht, rfl⟩, h⟩ := h
    · exact ⟨_, _, .content, h⟩
    · split at h
      · next hk =>
        simp only [runsOut_bind, not_runsOut_next, not_runsOut_pure, false_or, and_false, exists_false, or_false,
          next_ok] at h
        obtain ⟨_, _, ⟨_, rfl⟩, h⟩ := h
        exact ⟨_, _, .rangeEnd he ht hk, h⟩
      · exact absurd h (not_runsOut_pure _)
  | index =>
    simp only [item, runsOut_bind, not_runsOut_peek, false_or, peek_ok] at h
    obtain ⟨t, _, ⟨ht, rfl⟩, h⟩ := h
    split at h
    · next hk =>
      simp only [runsOut_bind, not_runsOut_next, not_runsOut_pure, false_or, and_false, exists_false, or_false,
        next_ok] at h
      obtain ⟨_, _, ⟨_, rfl⟩, h⟩ := h
      exact ⟨_, _, .endingAt ht hk, h⟩
    · simp only [runsOut_bind, not_runsOut_peek, false_or, peek_ok] at h
      obtain h | ⟨e, s₁, he, u, _, ⟨hu, rfl⟩, h⟩ := h
      · exact ⟨_, _, .content, h⟩
      · split at h
        · next hk =>
          simp only [runsOut_bind, not_runsOut_next, not_runsOut_peek, false_or, next_ok, peek_ok] at h
          obtain ⟨_, _, ⟨_, rfl⟩, v, _, ⟨_, rfl⟩, h⟩ := h
          split at h
          · simp only [runsOut_bind, not_runsOut_pure, and_false, exists_false, or_false] at h
            exact ⟨_, _, .rangeEnd he hu hk, h⟩
          · exact absurd h (not_runsOut_pure _)
        · exact absurd h (not_runsOut_pure _)

theorem map_calls (h : (map (d + 1)).RunsOut s) : Routine.map.CallRunsOut d s := by
  simp only [map, runsOut_bind, not_runsOut_ahead, false_or, ahead_ok] at h
  obtain ⟨_, _, ⟨_, rfl⟩, h⟩ := h
  split at h
  · simp only [runsOut_bind, not_runsOut_next, not_runsOut_pure, false_or, and_false, exists_false] at h
  · exact ⟨_, _, .entries, _, h⟩

theorem entries_calls {before : Entries Expr} (h : (entries (d + 1) before).RunsOut s) :
    Routine.entries.CallRunsOut d s := by
  simp only [entries, runsOut_bind, not_runsOut_expect, false_or, expect_ok, List.mem_singleton] at h
  obtain ⟨key, _, ⟨⟨hkey, hkk⟩, rfl⟩, colon, _, ⟨⟨hcolon, hck⟩, rfl⟩, h | ⟨e, s₁, he, t, _, ⟨⟨ht, _⟩, rfl⟩, h⟩⟩ := h
  · exact ⟨_, _, .entryValue hkey hkk hcolon hck, h⟩
  · split at h
    · next hk => exact ⟨_, _, .nextEntry hkey hkk hcolon hck he ht hk, _, h⟩
    · exact absurd h (not_runsOut_pure _)

theorem not_runsOut_here (s : Tokens) : ¬ ModelList.here.RunsOut s := by
  intro h
  cases h

theorem not_runsOut_index (s : Tokens) : ¬ ModelList.index.RunsOut s := by
  refine not_runsOut_bind (fun _ => not_runsOut_peek) (fun t s => ?_) s
  split
  · exact not_runsOut_bind (fun _ => not_runsOut_next)
      (fun _ => not_runsOut_bind (fun _ => not_runsOut_look _) fun _ _ => not_runsOut_pure _) s
  · exact not_runsOut_pure _

theorem not_runsOut_conditionAhead (s : Tokens) : ¬ ModelList.conditionAhead.RunsOut s := by
  refine not_runsOut_bind (fun _ => not_runsOut_ahead _) (fun named s => ?_) s
  split
  · exact not_runsOut_bind (fun _ => not_runsOut_peekSecond) (fun _ _ => not_runsOut_pure _) s
  · exact not_runsOut_pure _

theorem not_runsOut_condition (s : Tokens) : ¬ ModelList.condition.RunsOut s := by
  refine not_runsOut_bind (fun _ => not_runsOut_expect) (fun key => not_runsOut_bind (fun _ => not_runsOut_expect)
    fun sign => not_runsOut_bind (fun _ => not_runsOut_expect) fun t s => ?_) s
  dsimp only
  split
  · exact not_runsOut_bind (fun _ => not_runsOut_pure _) (fun _ _ => not_runsOut_pure _) s
  · exact not_runsOut_bind (not_runsOut_bind (fun _ => not_runsOut_look _) fun _ _ => not_runsOut_pure _)
      (fun _ _ => not_runsOut_pure _) s

theorem not_runsOut_staticEntry (s : Tokens) : ¬ ModelList.staticEntry.RunsOut s := by
  have hmodel : ∀ (path : Token) (model : Expr) (s : Tokens), ¬ Reading.RunsOut (do
      if ← ModelList.conditionAhead then return (← ModelList.condition).join path.location .guarded model
      else return model) s := by
    refine fun path model s => not_runsOut_bind not_runsOut_conditionAhead (fun conditional s => ?_) s
    split
    · exact not_runsOut_bind not_runsOut_condition (fun _ _ => not_runsOut_pure _) s
    · exact not_runsOut_pure _
  refine not_runsOut_bind (fun _ => not_runsOut_expect) (fun path => not_runsOut_bind not_runsOut_index fun p s => ?_) s
  dsimp only
  split
  · exact not_runsOut_bind not_runsOut_index (fun _ => hmodel path _) s
  · exact not_runsOut_bind (fun _ => not_runsOut_pure _) (fun _ => hmodel path _) s

theorem modelKeys_calls {known : ModelList.Dynamic} (h : (ModelList.dynamicKeys (d + 1) known).RunsOut s) :
    Routine.modelKeys.CallRunsOut d s := by
  simp only [ModelList.dynamicKeys, runsOut_bind, not_runsOut_ahead, false_or, ahead_ok] at h
  obtain ⟨_, _, ⟨⟨t, ht, rfl⟩, rfl⟩, h⟩ := h
  split at h
  · next hkk =>
    simp only [runsOut_bind, not_runsOut_next, false_or, next_ok] at h
    obtain ⟨key, _, ⟨_, rfl⟩, h⟩ := h
    split at h
    · simp only [runsOut_bind, not_runsOut_here, not_runsOut_refuse, and_false, exists_false, or_self] at h
    · simp only [runsOut_bind, not_runsOut_expect, false_or, expect_ok, List.mem_singleton] at h
      obtain ⟨sign, _, ⟨⟨hsign, hsk⟩, rfl⟩, name, _, ⟨⟨hname, hnk⟩, rfl⟩, h⟩ := h
      exact ⟨_, _, .nextKey ht (by simpa using hkk) hsign hsk hname hnk, _, h⟩
  · exact absurd h (not_runsOut_pure _)

/-- A dynamic entry runs out of depth in its keys. -/
theorem modelKeys_of_dynamicEntry (h : (ModelList.dynamicEntry d).RunsOut s) : Routine.modelKeys.RunsOut d s := by
  simp only [ModelList.dynamicEntry, runsOut_bind, not_runsOut_here, false_or] at h
  obtain ⟨_, _, hhere, h⟩ := h
  cases hhere
  rcases h with h | ⟨known, s₁, _, h⟩
  · exact ⟨_, h⟩
  · split at h
    · simp only [runsOut_bind, not_runsOut_here, not_runsOut_refuse, and_false, exists_false, or_self] at h
    · exact absurd h (not_runsOut_pure _)

theorem modelEntries_calls {closing : List Token.Kind} (h : (ModelList.entries closing (d + 1)).RunsOut s) :
    Routine.modelEntries.CallRunsOut d s := by
  simp only [ModelList.entries, runsOut_bind, not_runsOut_peekExpected, false_or, peekExpected_ok] at h
  obtain ⟨_, s, ⟨_, rfl⟩, h⟩ := h
  -- what comes after an entry
  have hrest : ∀ {e : Expr} {s₁ : Tokens}, (∀ t, s₁.head = .ok t → t.kind = .comma →
      Calls (.modelEntries, s) (.modelEntries, s₁.tail)) → Reading.RunsOut (do
        let t ← peekExpected (.comma :: closing)
        if t.kind = .comma then
          let _ ← next
          return e :: (← ModelList.entries closing d)
        else return [e]) s₁ → Routine.modelEntries.CallRunsOut d s := by
    intro e s₁ hcall h
    simp only [runsOut_bind, not_runsOut_peekExpected, false_or, peekExpected_ok] at h
    obtain ⟨t, _, ⟨⟨ht, _⟩, rfl⟩, h⟩ := h
    split at h
    · next hk =>
      simp only [runsOut_bind, not_runsOut_next, not_runsOut_pure, false_or, and_false, exists_false, or_false,
        next_ok] at h
      obtain ⟨_, _, ⟨_, rfl⟩, h⟩ := h
      exact ⟨_, _, hcall t ht hk, _, h⟩
    · exact absurd h (not_runsOut_pure _)
  split at h
  · rcases runsOut_bind.1 h with h | ⟨e, s₂, he, h⟩
    · exact absurd h (not_runsOut_staticEntry _)
    · exact hrest (fun _ => .nextStatic he) h
  · rcases runsOut_bind.1 h with h | ⟨e, s₂, he, h⟩
    · exact ⟨_, _, .modelKeys, modelKeys_of_dynamicEntry h⟩
    · exact hrest (fun _ => .nextDynamic he) h

/-- Running out of depth is running out of depth in a call. -/
theorem Routine.RunsOut.calls {f : Routine} (h : f.RunsOut (d + 1) s) : f.CallRunsOut d s := by
  cases f with
  | expression => exact expression_calls h
  | operators => exact h.elim fun _ => operators_calls
  | term => exact term_calls h
  | subscripts => exact h.elim fun _ => subscripts_calls
  | simple => exact simple_calls h
  | list => exact h.elim fun _ => list_calls
  | items => exact h.elim fun _ => items_calls
  | item => exact h.elim fun _ => item_calls
  | map => exact map_calls h
  | entries => exact h.elim fun _ => entries_calls
  | modelEntries => exact h.elim fun _ => modelEntries_calls
  | modelKeys => exact h.elim fun _ => modelKeys_calls

end Depth

/-! ## Budgets -/

/-- At most so many calls follow each other from one token to the next. -/
def Routine.callsPerToken : Routine → Nat
  | modelEntries | modelKeys => 1
  | _ => 7

/-- How long a path of calls can be with these tokens ahead. -/
def Routine.budget (f : Routine) (s : Tokens) : Nat := f.callsPerToken * s.length + f.rank

section Budget

variable {f g : Routine} {s s' : Tokens}

/-- Expressions and model lists do not call each other. -/
theorem Calls.rank_lt (h : Calls (f, s) (g, s')) :
    g.callsPerToken = f.callsPerToken ∧ g.rank < f.callsPerToken + f.rank := by
  cases h <;> decide

theorem Calls.budget_lt (h : Calls (f, s) (g, s')) (hs : s.Wf) : g.budget s' < f.budget s := by
  obtain ⟨hcalls, hrank⟩ := h.rank_lt
  unfold Routine.budget
  rw [hcalls]
  rcases h.advances hs with hdrops | ⟨rfl, hlower⟩
  · calc f.callsPerToken * s'.length + g.rank
        < f.callsPerToken * s'.length + (f.callsPerToken + f.rank) := Nat.add_lt_add_left hrank _
      _ = f.callsPerToken * (s'.length + 1) + f.rank := by rw [Nat.mul_succ, Nat.add_assoc]
      _ ≤ f.callsPerToken * s.length + f.rank :=
        Nat.add_le_add_right (Nat.mul_le_mul_left _ (Tokens.length_lt_of_drops hdrops)) _
  · exact Nat.add_lt_add_left hlower _

/-- A function that runs out of depth has had less than its budget. -/
theorem Routine.RunsOut.le_budget {d : Nat} (h : f.RunsOut d s) (hs : s.Wf) : d ≤ f.budget s := by
  induction d generalizing f s with
  | zero => exact Nat.zero_le _
  | succ d ih =>
    obtain ⟨g, s', hcall, hrest⟩ := h.calls
    exact (ih hrest (Tokens.wf_of_drops (hcall.drops hs) hs)).trans_lt (hcall.budget_lt hs)

theorem not_runsOut_reading {d : Nat} (hs : s.Wf) (hd : 7 * s.length + 3 < d) (mode : ParseMode) :
    ¬ (Expr.reading mode d).RunsOut s := by
  intro h
  rcases Reading.runsOut_bind.1 h with h | ⟨e, s₁, -, h⟩
  · have hle : d ≤ 7 * s.length + 3 := Routine.RunsOut.le_budget (f := .expression) h hs
    omega
  · cases mode with
    | strict =>
      exact Reading.not_runsOut_bind (fun _ => Reading.not_runsOut_peekExpected) (fun _ _ => Reading.not_runsOut_pure _) _ h
    | lenient => exact Reading.not_runsOut_pure _ h

theorem not_runsOut_modelEntries {d : Nat} (hs : s.Wf) (hd : s.length + 1 < d) (closing : List Token.Kind) :
    ¬ (ModelList.entries closing d).RunsOut s := by
  intro h
  have hle : d ≤ 1 * s.length + 1 := Routine.RunsOut.le_budget (f := .modelEntries) ⟨closing, h⟩ hs
  omega

end Budget

/-- From the front of a source, wherever it is in a text, every cycle of calls, such as one more turn of a loop, reads a
token at least and moves the cursor on. As a function runs out of depth only in one of these calls, a depth linear in the
bytes of the source is enough for an expression in either mode and for a model list, and so is the depth that they are
given. -/
theorem calls_advance (c : Cursor) :
    (∀ start f s s', ReflTransGen Calls (start, Tokens.read c) (f, s) → TransGen Calls (f, s) (f, s') →
        TransGen Tokens.Drops s s' ∧ s.cursor.offset < s'.cursor.offset) ∧
      (∀ (f : Routine) d s, f.RunsOut (d + 1) s → f.CallRunsOut d s) ∧
      (∀ mode d, 7 * Text.byteSize c.rest + 3 < d ∨ d = depthFor (Tokens.read c) →
        ¬ (Expr.reading mode d).RunsOut (Tokens.read c)) ∧
      ∀ closing d, Text.byteSize c.rest + 1 < d ∨ d = ModelList.depthFor (Tokens.read c) →
        ¬ (ModelList.entries closing d).RunsOut (Tokens.read c) := by
  have hs := Tokens.wf_read c
  have hlength := Tokens.length_read_le c
  refine ⟨fun start f s s' hpath hcycle => ?_, fun f d s h => h.calls, fun mode d hd => ?_, fun closing d hd => ?_⟩
  · have hbefore : ReflTransGen Tokens.Drops (Tokens.read c) s := drops_of_path hpath hs
    have hcycle := advances_of_cycle hcycle (Tokens.wf_of_drops hbefore hs)
    exact ⟨hcycle, Tokens.offset_lt_of_drops hcycle (Tokens.sourced_of_drops hbefore (Tokens.sourced_read c))⟩
  · refine not_runsOut_reading hs ?_ mode
    unfold depthFor at hd
    omega
  · refine not_runsOut_modelEntries hs ?_ closing
    unfold ModelList.depthFor at hd
    omega

/-- Behind a sign there is another term, in the three bytes of a text. -/
theorem calls_advance_signs :
    let s := Tokens.ofText "--a"
    TransGen Calls (.simple, s) (.simple, s.tail) ∧ s.cursor.offset < s.tail.cursor.offset ∧
      ¬ (Expr.reading .strict 25).RunsOut s := by
  intro s
  obtain ⟨hcycles, -, hdepth, -⟩ := calls_advance (Cursor.start "--a" .start)
  have hcycle : TransGen Calls (.simple, s) (.simple, s.tail) := by
    have hkind : s.head.toOption.map Token.kind = some .minus := by decide +kernel
    cases ht : s.head with
    | error e =>
      rw [ht] at hkind
      cases hkind
    | ok t =>
      rw [ht] at hkind
      have hk : t.kind = .minus := Option.some.inj hkind
      have hop : UnaryOp.ofKind? t.kind = some .minus := by rw [hk]; rfl
      exact .tail (.single (.unary ht hop)) .simple
  exact ⟨hcycle, (hcycles .simple .simple s s.tail .refl hcycle).2, hdepth .strict 25 (.inl (by decide))⟩

end Parser

end ExprLang
