import ExprLang.Expr.Parser

/-!
# What a reader does in one call

Each function of the grammar is inverted once: it succeeds exactly if the tokens ahead are as stated
and the functions that it calls, one level deeper, succeed (`expression_ok` and its neighbours). Nothing
after this module looks into their bodies.
-/

namespace ExprLang

/-! ## Single readings -/

namespace Tokens

/-- The first token is there and has one of the given kinds. -/
def StartsIn (s : Tokens) (ks : List Token.Kind) : Prop := ∃ t, s.head = .ok t ∧ t.kind ∈ ks

/-- No operator can be read on from here: none is ahead, or a `..` that no term follows. -/
def Stops (s : Tokens) : Prop := ∃ t, s.head = .ok t ∧
  (BinaryOp.ofKind? t.kind = none ∨ t.kind = .dots ∧ ∃ u, s.tail.head = .ok u ∧ u.kind ∉ Token.Kind.terms)

end Tokens

theorem Token.isA_iff {t : Token} {ks : List Token.Kind} : t.isA ks = true ↔ t.kind ∈ ks := by simp [isA]

namespace Reading

variable {α β : Type} {s s' s'' : Tokens} {t : Token} {ks : List Token.Kind}

theorem bind_ok {x : Reading α} {f : α → Reading β} {b : β} :
    (x >>= f) s = .ok (b, s') ↔ ∃ a s₁, x s = .ok (a, s₁) ∧ f a s₁ = .ok (b, s') := by
  show (x s >>= fun p => f p.1 p.2) = .ok (b, s') ↔ _
  rcases x s with e | ⟨a, s₁⟩
  · exact ⟨fun h => (by cases h), fun ⟨_, _, h, _⟩ => (by cases h)⟩
  · exact ⟨fun h => ⟨a, s₁, rfl, h⟩, fun ⟨_, _, h, hf⟩ => by cases h; exact hf⟩

theorem pure_ok {a b : α} : (pure a : Reading α) s = .ok (b, s') ↔ b = a ∧ s' = s :=
  ⟨fun h => by cases h; exact ⟨rfl, rfl⟩, fun ⟨hb, hs⟩ => by rw [hb, hs]; rfl⟩

theorem look_ok {f : Tokens → Except Error α} {a : α} : look f s = .ok (a, s') ↔ f s = .ok a ∧ s' = s := by
  unfold look
  rcases f s with e | b
  · exact ⟨fun h => (by cases h), fun ⟨h, _⟩ => by cases h⟩
  · exact ⟨fun h => by cases h; exact ⟨rfl, rfl⟩, fun ⟨h, hs⟩ => by cases h; rw [hs]⟩

theorem peek_ok : peek s = .ok (t, s') ↔ s.head = .ok t ∧ s' = s := look_ok

theorem check_ok {r : Except Error Token} : (r >>= Cursor.check ks) = .ok t ↔ r = .ok t ∧ t.kind ∈ ks := by
  rcases r with e | u
  · exact ⟨fun h => (by cases h), fun ⟨h, _⟩ => (by cases h)⟩
  · show Cursor.check ks u = .ok t ↔ _
    unfold Cursor.check
    by_cases hu : u.isA ks = true
    · rw [if_pos hu]
      exact ⟨fun h => by cases h; exact ⟨rfl, Token.isA_iff.1 hu⟩, fun h => h.1⟩
    · rw [if_neg hu]
      exact ⟨fun h => (by cases h), fun ⟨h, hk⟩ => by cases h; exact absurd (Token.isA_iff.2 hk) hu⟩

theorem peekExpected_ok : peekExpected ks s = .ok (t, s') ↔ (s.head = .ok t ∧ t.kind ∈ ks) ∧ s' = s :=
  look_ok.trans (and_congr_left fun _ => check_ok)

theorem next_ok : next s = .ok (t, s') ↔ s.head = .ok t ∧ s' = s.tail := by
  unfold next
  rcases s.head with e | u
  · exact ⟨fun h => (by cases h), fun ⟨h, _⟩ => (by cases h)⟩
  · exact ⟨fun h => by cases h; exact ⟨rfl, rfl⟩, fun ⟨h, hs⟩ => by cases h; rw [hs]⟩

theorem expect_ok : expect ks s = .ok (t, s') ↔ (s.head = .ok t ∧ t.kind ∈ ks) ∧ s' = s.tail := by
  rw [← check_ok]
  unfold expect
  rcases s.head >>= Cursor.check ks with e | u
  · exact ⟨fun h => (by cases h), fun ⟨h, _⟩ => (by cases h)⟩
  · exact ⟨fun h => by cases h; exact ⟨rfl, rfl⟩, fun ⟨h, hs⟩ => by cases h; rw [hs]⟩

theorem peekSecond_ok : peekSecond s = .ok (t, s') ↔ ((∃ u, s.head = .ok u) ∧ s.tail.head = .ok t) ∧ s' = s := by
  refine look_ok.trans (and_congr_left fun _ => ?_)
  unfold Tokens.second
  rcases s.head with e | u
  · exact ⟨fun h => (by cases h), fun ⟨⟨_, h⟩, _⟩ => (by cases h)⟩
  · exact ⟨fun h => ⟨⟨u, rfl⟩, h⟩, fun h => h.2⟩

theorem ahead_ok {k : Token.Kind} {b : Bool} :
    ahead k s = .ok (b, s') ↔ (∃ t, s.head = .ok t ∧ b = (t.kind == k)) ∧ s' = s := by
  unfold ahead
  simp only [bind_ok, pure_ok, peek_ok]
  exact ⟨fun ⟨t, _, ⟨h, hs⟩, hb, hs'⟩ => ⟨⟨t, h, hb⟩, hs'.trans hs⟩, fun ⟨⟨t, h, hb⟩, hs⟩ => ⟨t, s, ⟨h, rfl⟩, hb, hs⟩⟩

/-- Nothing stands before a closing sign, or else there is something to read. -/
theorem closed_or_ok {k : Token.Kind} {x : Reading (List α)} {as : List α} : (do
      if ← ahead k then
        let _ ← next
        return []
      else x : Reading (List α)) s = .ok (as, s') ↔
    (∃ t, (s.head = .ok t ∧ t.kind = k) ∧ as = [] ∧ s' = s.tail) ∨
      ∃ t, (s.head = .ok t ∧ t.kind ≠ k) ∧ x s = .ok (as, s') := by
  simp only [bind_ok, ahead_ok]
  constructor
  · rintro ⟨_, _, ⟨⟨t, hs, rfl⟩, rfl⟩, h⟩
    split at h
    · next hk =>
      simp only [bind_ok, next_ok, pure_ok] at h
      obtain ⟨_, _, ⟨_, rfl⟩, h⟩ := h
      exact .inl ⟨t, ⟨hs, by simpa using hk⟩, h⟩
    · next hk => exact .inr ⟨t, ⟨hs, by simpa using hk⟩, h⟩
  · rintro (⟨t, ⟨hs, hk⟩, h⟩ | ⟨t, ⟨hs, hk⟩, h⟩)
    · refine ⟨_, s, ⟨⟨t, hs, rfl⟩, rfl⟩, ?_⟩
      rw [if_pos (by simpa using hk)]
      simp only [bind_ok, next_ok, pure_ok]
      exact ⟨t, s.tail, ⟨hs, rfl⟩, h⟩
    · refine ⟨_, s, ⟨⟨t, hs, rfl⟩, rfl⟩, ?_⟩
      rw [if_neg (by simpa using hk)]
      exact h

end Reading

/-! ## The functions of the grammar -/

namespace Parser

open Reading

variable {d : Nat} {s s' : Tokens} {e : Expr} {es : List Expr}

theorem expression_ok : expression (d + 1) s = .ok (e, s') ↔
    s.StartsIn Token.Kind.terms ∧ ∃ t s₁, term d s = .ok (t, s₁) ∧ operators d t s₁ = .ok (e, s') := by
  simp only [expression, bind_ok, peekExpected_ok]
  constructor
  · rintro ⟨t, _, ⟨hs, rfl⟩, b, s₁, hb, ho⟩
    exact ⟨⟨t, hs⟩, b, s₁, hb, ho⟩
  · rintro ⟨⟨t, hs⟩, b, s₁, hb, ho⟩
    exact ⟨t, s, ⟨hs, rfl⟩, b, s₁, hb, ho⟩

/-- The only sign of a range is `..`. -/
theorem ofKind?_eq_range {k : Token.Kind} (h : BinaryOp.ofKind? k = some .range) : k = .dots := by
  cases k <;> simp_all [BinaryOp.ofKind?]

theorem operators_ok {l : Expr} : operators (d + 1) l s = .ok (e, s') ↔
    (s.Stops ∧ e = l ∧ s' = s) ∨ ∃ t op r s₁, s.head = .ok t ∧ BinaryOp.ofKind? t.kind = some op ∧
      (op = .range → s.tail.StartsIn Token.Kind.terms) ∧ term d s.tail = .ok (r, s₁) ∧
      operators d (l.join t.location op r) s₁ = .ok (e, s') := by
  simp only [operators, bind_ok, peek_ok]
  constructor
  · rintro ⟨t, s, ⟨hs, rfl⟩, h⟩
    cases hk : BinaryOp.ofKind? t.kind with
    | none =>
      rw [hk] at h
      exact .inl ⟨⟨t, hs, .inl hk⟩, pure_ok.1 h⟩
    | some op =>
      rw [hk] at h
      by_cases hop : op = .range
      · subst hop
        simp only [bind_ok, peekSecond_ok] at h
        obtain ⟨u, _, ⟨⟨_, hu⟩, rfl⟩, h⟩ := h
        by_cases hterm : u.isA Token.Kind.terms = true
        · simp only [if_pos hterm, bind_ok, next_ok] at h
          obtain ⟨_, _, ⟨_, rfl⟩, r, s₁, hr, ho⟩ := h
          exact .inr ⟨t, .range, r, s₁, hs, hk, fun _ => ⟨u, hu, Token.isA_iff.1 hterm⟩, hr, ho⟩
        · rw [if_neg hterm] at h
          exact .inl ⟨⟨t, hs, .inr ⟨ofKind?_eq_range hk, u, hu, fun hm => hterm (Token.isA_iff.2 hm)⟩⟩, pure_ok.1 h⟩
      · have h : (do let _ ← next; operators d (l.join t.location op (← term d)) : Reading Expr) s = .ok (e, s') := by
          cases op with
          | range => exact absurd rfl hop
          | _ => exact h
        simp only [bind_ok, next_ok] at h
        obtain ⟨_, _, ⟨_, rfl⟩, r, s₁, hr, ho⟩ := h
        exact .inr ⟨t, op, r, s₁, hs, hk, fun h => absurd h hop, hr, ho⟩
  · rintro (⟨⟨t, hs, hstop⟩, h⟩ | ⟨t, op, r, s₁, hs, hk, hterm, hr, ho⟩)
    · refine ⟨t, s, ⟨hs, rfl⟩, ?_⟩
      rcases hstop with hk | ⟨hk, u, hu, hm⟩
      · rw [hk]
        exact pure_ok.2 h
      · rw [hk]
        simp only [BinaryOp.ofKind?, bind_ok, peekSecond_ok]
        refine ⟨u, s, ⟨⟨⟨t, hs⟩, hu⟩, rfl⟩, ?_⟩
        rw [if_neg fun hterm => hm (Token.isA_iff.1 hterm)]
        exact pure_ok.2 h
    · have read : (do let _ ← next; operators d (l.join t.location op (← term d)) : Reading Expr) s = .ok (e, s') := by
        simp only [bind_ok, next_ok]
        exact ⟨t, s.tail, ⟨hs, rfl⟩, r, s₁, hr, ho⟩
      refine ⟨t, s, ⟨hs, rfl⟩, ?_⟩
      rw [hk]
      cases op with
      | range =>
        obtain ⟨u, hu, hm⟩ := hterm rfl
        simp only [bind_ok, peekSecond_ok]
        refine ⟨u, s, ⟨⟨⟨t, hs⟩, hu⟩, rfl⟩, ?_⟩
        rw [if_pos (Token.isA_iff.2 hm)]
        exact read
      | _ => exact read

theorem term_ok : term (d + 1) s = .ok (e, s') ↔
    (∃ t es, (s.head = .ok t ∧ t.kind = .openSwitch) ∧ s.tail.StartsIn (Token.Kind.terms ++ [.closeSwitch]) ∧
      list d .case s.tail = .ok (es, s') ∧ e = .switch t.location es) ∨
    (s.StartsIn Token.Kind.simpleTerms ∧ ∃ b s₁, simple d s = .ok (b, s₁) ∧ subscripts d b s₁ = .ok (e, s')) := by
  simp only [term, bind_ok, peekExpected_ok]
  constructor
  · rintro ⟨t, _, ⟨⟨hs, hm⟩, rfl⟩, h⟩
    split at h
    · next hk =>
      simp only [bind_ok, expect_ok, peekExpected_ok, pure_ok] at h
      obtain ⟨_, _, ⟨_, rfl⟩, u, _, ⟨hu, rfl⟩, es, _, hl, he, rfl⟩ := h
      exact .inl ⟨t, es, ⟨hs, hk⟩, ⟨u, hu⟩, hl, he⟩
    · next hk =>
      have hm' : t.kind ∈ Token.Kind.simpleTerms := (List.mem_append.1 hm).resolve_right fun h => hk (by simpa using h)
      exact .inr ⟨⟨t, hs, hm'⟩, bind_ok.1 h⟩
  · rintro (⟨t, es, ⟨hs, hk⟩, ⟨u, hu⟩, hl, he⟩ | ⟨⟨t, hs, hm⟩, h⟩)
    · refine ⟨t, s, ⟨⟨hs, List.mem_append_right _ (by simp [hk])⟩, rfl⟩, ?_⟩
      rw [if_pos hk]
      simp only [bind_ok, expect_ok, peekExpected_ok, pure_ok]
      exact ⟨t, s.tail, ⟨⟨hs, by simp [hk]⟩, rfl⟩, u, s.tail, ⟨hu, rfl⟩, es, s', hl, he, rfl⟩
    · refine ⟨t, s, ⟨⟨hs, List.mem_append_left _ hm⟩, rfl⟩, ?_⟩
      have hk : t.kind ≠ .openSwitch := fun hk => by
        rw [hk] at hm
        exact absurd hm (by decide)
      rw [if_neg hk]
      exact bind_ok.2 h

theorem subscripts_ok {b : Expr} : subscripts (d + 1) b s = .ok (e, s') ↔
    (∃ t, (s.head = .ok t ∧ t.kind ≠ .openBracket) ∧ e = b ∧ s' = s) ∨
    ∃ t es s₁, (s.head = .ok t ∧ t.kind = .openBracket) ∧ list d .index s.tail = .ok (es, s₁) ∧
      subscripts d (.subscript t.location b (Expr.ofIndices t.location es)) s₁ = .ok (e, s') := by
  simp only [subscripts, bind_ok, peek_ok]
  constructor
  · rintro ⟨t, _, ⟨hs, rfl⟩, h⟩
    split at h
    · next hk =>
      simp only [bind_ok, next_ok] at h
      obtain ⟨_, _, ⟨_, rfl⟩, es, s₁, hl, hr⟩ := h
      exact .inr ⟨t, es, s₁, ⟨hs, hk⟩, hl, hr⟩
    · next hk => exact .inl ⟨t, ⟨hs, hk⟩, pure_ok.1 h⟩
  · rintro (⟨t, ⟨hs, hk⟩, h⟩ | ⟨t, es, s₁, ⟨hs, hk⟩, hl, hr⟩)
    · refine ⟨t, s, ⟨hs, rfl⟩, ?_⟩
      rw [if_neg hk]
      exact pure_ok.2 h
    · refine ⟨t, s, ⟨hs, rfl⟩, ?_⟩
      rw [if_pos hk]
      simp only [bind_ok, next_ok]
      exact ⟨t, s.tail, ⟨hs, rfl⟩, es, s₁, hl, hr⟩

theorem list_ok {kind : Item} : list (d + 1) kind s = .ok (es, s') ↔
    (∃ t, (s.head = .ok t ∧ t.kind = kind.close) ∧ es = [] ∧ s' = s.tail) ∨
    ∃ t, (s.head = .ok t ∧ t.kind ≠ kind.close) ∧ items d kind s = .ok (es, s') := by
  rw [list]
  exact closed_or_ok

theorem items_ok {kind : Item} : items (d + 1) kind s = .ok (es, s') ↔
    ∃ e s₁ t, item d kind s = .ok (e, s₁) ∧ s₁.head = .ok t ∧
      ((t.kind = .comma ∧ ∃ fs, items d kind s₁.tail = .ok (fs, s') ∧ es = e :: fs) ∨
        (t.kind = kind.close ∧ es = [e] ∧ s' = s₁.tail)) := by
  simp only [items, bind_ok, expect_ok]
  constructor
  · rintro ⟨e, s₁, he, t, _, ⟨⟨hs, hm⟩, rfl⟩, h⟩
    refine ⟨e, s₁, t, he, hs, ?_⟩
    split at h
    · next hk =>
      simp only [bind_ok, pure_ok] at h
      obtain ⟨fs, _, hf, rfl, rfl⟩ := h
      exact .inl ⟨hk, fs, hf, rfl⟩
    · next hk => exact .inr ⟨by simpa [hk] using hm, pure_ok.1 h⟩
  · rintro ⟨e, s₁, t, he, hs, ⟨hk, fs, hf, rfl⟩ | ⟨hk, h⟩⟩
    · refine ⟨e, s₁, he, t, s₁.tail, ⟨⟨hs, by simp [hk]⟩, rfl⟩, ?_⟩
      rw [if_pos hk]
      simp only [bind_ok, pure_ok]
      exact ⟨fs, s', hf, rfl, rfl⟩
    · refine ⟨e, s₁, he, t, s₁.tail, ⟨⟨hs, by simp [hk]⟩, rfl⟩, ?_⟩
      have hc : t.kind ≠ .comma := by
        rw [hk]
        cases kind <;> exact Token.Kind.noConfusion
      rw [if_neg hc]
      exact pure_ok.2 h

theorem item_element_ok : item (d + 1) .element s = .ok (e, s') ↔
    ∃ a s₁ t, expression d s = .ok (a, s₁) ∧ s₁.head = .ok t ∧
      ((t.kind ≠ .dots ∧ e = a ∧ s' = s₁) ∨
        (t.kind = .dots ∧ ∃ b, expression d s₁.tail = .ok (b, s') ∧ e = a.join t.location .range b)) := by
  simp only [item, bind_ok, peek_ok]
  constructor
  · rintro ⟨a, s₁, ha, t, s₂, ⟨hs, rfl⟩, h⟩
    refine ⟨a, s₂, t, ha, hs, ?_⟩
    split at h
    · next hk =>
      simp only [bind_ok, next_ok, pure_ok] at h
      obtain ⟨_, _, ⟨_, rfl⟩, b, _, hb, rfl, rfl⟩ := h
      exact .inr ⟨hk, b, hb, rfl⟩
    · next hk => exact .inl ⟨hk, pure_ok.1 h⟩
  · rintro ⟨a, s₁, t, ha, hs, ⟨hk, h⟩ | ⟨hk, b, hb, rfl⟩⟩
    · refine ⟨a, s₁, ha, t, s₁, ⟨hs, rfl⟩, ?_⟩
      rw [if_neg hk]
      exact pure_ok.2 h
    · refine ⟨a, s₁, ha, t, s₁, ⟨hs, rfl⟩, ?_⟩
      rw [if_pos hk]
      simp only [bind_ok, next_ok, pure_ok]
      exact ⟨t, s₁.tail, ⟨hs, rfl⟩, b, s', hb, rfl, rfl⟩

theorem item_index_ok : item (d + 1) .index s = .ok (e, s') ↔
    (∃ t a, (s.head = .ok t ∧ t.kind = .dots) ∧ expression d s.tail = .ok (a, s') ∧ e = .unary t.location .endingAt a) ∨
    ∃ t a s₁ u, (s.head = .ok t ∧ t.kind ≠ .dots) ∧ expression d s = .ok (a, s₁) ∧ s₁.head = .ok u ∧
      ((u.kind ≠ .dots ∧ e = a ∧ s' = s₁) ∨
        (u.kind = .dots ∧ s₁.tail.StartsIn Token.Kind.simpleTerms ∧
          ∃ b, expression d s₁.tail = .ok (b, s') ∧ e = a.join u.location .range b) ∨
        (u.kind = .dots ∧ (∃ v, s₁.tail.head = .ok v ∧ v.kind ∉ Token.Kind.simpleTerms) ∧
          e = .unary u.location .startingAt a ∧ s' = s₁.tail)) := by
  simp only [item, bind_ok, peek_ok]
  constructor
  · rintro ⟨t, s, ⟨hs, rfl⟩, h⟩
    split at h
    · next hk =>
      simp only [bind_ok, next_ok, pure_ok] at h
      obtain ⟨_, _, ⟨_, rfl⟩, a, _, ha, rfl, rfl⟩ := h
      exact .inl ⟨t, a, ⟨hs, hk⟩, ha, rfl⟩
    · next hk =>
      simp only [bind_ok, peek_ok] at h
      obtain ⟨a, s₁, ha, u, s₁, ⟨hu, rfl⟩, h⟩ := h
      refine .inr ⟨t, a, s₁, u, ⟨hs, hk⟩, ha, hu, ?_⟩
      split at h
      · next hd =>
        simp only [bind_ok, next_ok, peek_ok] at h
        obtain ⟨_, _, ⟨_, rfl⟩, v, _, ⟨hv, rfl⟩, h⟩ := h
        split at h
        · next hm =>
          simp only [bind_ok, pure_ok] at h
          obtain ⟨b, _, hb, rfl, rfl⟩ := h
          exact .inr (.inl ⟨hd, ⟨v, hv, Token.isA_iff.1 hm⟩, b, hb, rfl⟩)
        · next hm => exact .inr (.inr ⟨hd, ⟨v, hv, fun h => hm (Token.isA_iff.2 h)⟩, pure_ok.1 h⟩)
      · next hd => exact .inl ⟨hd, pure_ok.1 h⟩
  · rintro (⟨t, a, ⟨hs, hk⟩, ha, rfl⟩ | ⟨t, a, s₁, u, ⟨hs, hk⟩, ha, hu, h⟩)
    · refine ⟨t, s, ⟨hs, rfl⟩, ?_⟩
      rw [if_pos hk]
      simp only [bind_ok, next_ok, pure_ok]
      exact ⟨t, s.tail, ⟨hs, rfl⟩, a, s', ha, rfl, rfl⟩
    · refine ⟨t, s, ⟨hs, rfl⟩, ?_⟩
      rw [if_neg hk]
      simp only [bind_ok, peek_ok]
      refine ⟨a, s₁, ha, u, s₁, ⟨hu, rfl⟩, ?_⟩
      rcases h with ⟨hd, h⟩ | ⟨hd, ⟨v, hv, hm⟩, b, hb, rfl⟩ | ⟨hd, ⟨v, hv, hm⟩, h⟩
      · rw [if_neg hd]
        exact pure_ok.2 h
      · rw [if_pos hd]
        simp only [bind_ok, next_ok, peek_ok]
        refine ⟨u, s₁.tail, ⟨hu, rfl⟩, v, s₁.tail, ⟨hv, rfl⟩, ?_⟩
        rw [if_pos (Token.isA_iff.2 hm)]
        simp only [bind_ok, pure_ok]
        exact ⟨b, s', hb, rfl, rfl⟩
      · rw [if_pos hd]
        simp only [bind_ok, next_ok, peek_ok]
        refine ⟨u, s₁.tail, ⟨hu, rfl⟩, v, s₁.tail, ⟨hv, rfl⟩, ?_⟩
        rw [if_neg fun h => hm (Token.isA_iff.1 h)]
        exact pure_ok.2 h

/-- The ways in which a term other than a switch begins. -/
theorem mem_simpleTerms {k : Token.Kind} : k ∈ Token.Kind.simpleTerms ↔
    (∃ op, UnaryOp.ofKind? k = some op) ∨ k = .openParen ∨ k = .name ∨ k = .openBracket ∨ k = .openBrace ∨
      k ∈ Token.Kind.literals := by
  cases k <;> simp [Token.Kind.simpleTerms, Token.Kind.literals, Token.Kind.unaryOperators, UnaryOp.ofKind?]

theorem simple_ok : simple (d + 1) s = .ok (e, s') ↔ ∃ t, s.head = .ok t ∧
    ((∃ op a, UnaryOp.ofKind? t.kind = some op ∧ term d s.tail = .ok (a, s') ∧ e = .unary t.location op a) ∨
      (t.kind = .openParen ∧ ∃ a s₁ u, expression d s.tail = .ok (a, s₁) ∧ (s₁.head = .ok u ∧ u.kind = .closeParen) ∧
        e = .unary t.location .group a ∧ s' = s₁.tail) ∨
      (t.kind = .name ∧ e = .var t.location t.word ∧ s' = s.tail) ∨
      (t.kind = .openBracket ∧ ∃ es, list d .element s.tail = .ok (es, s') ∧ e = .array t.location es) ∨
      (t.kind = .openBrace ∧ ∃ es, map d s.tail = .ok (es, s') ∧ e = .map t.location es) ∨
      (t.kind ∈ Token.Kind.literals ∧ ∃ v, t.literal = .ok v ∧ e = .literal t.location v ∧ s' = s.tail)) := by
  simp only [simple, bind_ok, peekExpected_ok]
  constructor
  · rintro ⟨t, s, ⟨⟨hs, hm⟩, rfl⟩, h⟩
    refine ⟨t, hs, ?_⟩
    rcases mem_simpleTerms.1 hm with ⟨op, hk⟩ | hk | hk | hk | hk | hk
    · rw [hk] at h
      simp only [bind_ok, next_ok, pure_ok] at h
      obtain ⟨_, _, ⟨_, rfl⟩, a, _, ha, rfl, rfl⟩ := h
      exact .inl ⟨op, a, hk, ha, rfl⟩
    · rw [hk] at h
      simp only [UnaryOp.ofKind?, bind_ok, next_ok, expect_ok, pure_ok, List.mem_singleton] at h
      obtain ⟨_, _, ⟨_, rfl⟩, a, s₁, ha, u, _, ⟨hu, rfl⟩, rfl, rfl⟩ := h
      exact .inr (.inl ⟨hk, a, s₁, u, ha, hu, rfl, rfl⟩)
    · rw [hk] at h
      simp only [UnaryOp.ofKind?, bind_ok, next_ok, pure_ok] at h
      obtain ⟨_, _, ⟨_, rfl⟩, h⟩ := h
      exact .inr (.inr (.inl ⟨hk, h⟩))
    · rw [hk] at h
      simp only [UnaryOp.ofKind?, bind_ok, next_ok, pure_ok] at h
      obtain ⟨_, _, ⟨_, rfl⟩, es, _, hl, rfl, rfl⟩ := h
      exact .inr (.inr (.inr (.inl ⟨hk, es, hl, rfl⟩)))
    · rw [hk] at h
      simp only [UnaryOp.ofKind?, bind_ok, next_ok, pure_ok] at h
      obtain ⟨_, _, ⟨_, rfl⟩, es, _, hl, rfl, rfl⟩ := h
      exact .inr (.inr (.inr (.inr (.inl ⟨hk, es, hl, rfl⟩))))
    · have h : (do let v ← look fun _ => t.literal; let _ ← next; return .literal t.location v : Reading Expr) s =
          .ok (e, s') := by
        simp only [Token.Kind.literals, List.mem_cons, List.not_mem_nil, or_false] at hk
        rcases hk with hk | hk | hk | hk <;> (rw [hk] at h; exact h)
      simp only [bind_ok, look_ok, next_ok, pure_ok] at h
      obtain ⟨v, _, ⟨hv, rfl⟩, _, _, ⟨_, rfl⟩, h⟩ := h
      exact .inr (.inr (.inr (.inr (.inr ⟨hk, v, hv, h⟩))))
  · rintro ⟨t, hs, h⟩
    have hm : t.kind ∈ Token.Kind.simpleTerms := by
      rw [mem_simpleTerms]
      exact h.imp (fun ⟨op, _, hk, _⟩ => ⟨op, hk⟩)
        (.imp And.left (.imp And.left (.imp And.left (.imp And.left And.left))))
    refine ⟨t, s, ⟨⟨hs, hm⟩, rfl⟩, ?_⟩
    rcases h with ⟨op, a, hk, ha, rfl⟩ | ⟨hk, a, s₁, u, ha, hu, rfl, rfl⟩ | ⟨hk, h⟩ | ⟨hk, es, hl, rfl⟩ |
      ⟨hk, es, hl, rfl⟩ | ⟨hk, v, hv, h⟩
    · rw [hk]
      simp only [bind_ok, next_ok, pure_ok]
      exact ⟨t, s.tail, ⟨hs, rfl⟩, a, s', ha, rfl, rfl⟩
    · rw [hk]
      simp only [UnaryOp.ofKind?, bind_ok, next_ok, expect_ok, pure_ok, List.mem_singleton]
      exact ⟨t, s.tail, ⟨hs, rfl⟩, a, s₁, ha, u, s₁.tail, ⟨hu, rfl⟩, rfl, rfl⟩
    · rw [hk]
      simp only [UnaryOp.ofKind?, bind_ok, next_ok, pure_ok]
      exact ⟨t, s.tail, ⟨hs, rfl⟩, h⟩
    · rw [hk]
      simp only [UnaryOp.ofKind?, bind_ok, next_ok, pure_ok]
      exact ⟨t, s.tail, ⟨hs, rfl⟩, es, s', hl, rfl, rfl⟩
    · rw [hk]
      simp only [UnaryOp.ofKind?, bind_ok, next_ok, pure_ok]
      exact ⟨t, s.tail, ⟨hs, rfl⟩, es, s', hl, rfl, rfl⟩
    · have read : (do let v ← look fun _ => t.literal; let _ ← next; return .literal t.location v : Reading Expr) s =
          .ok (e, s') := by
        simp only [bind_ok, look_ok, next_ok, pure_ok]
        exact ⟨v, s, ⟨hv, rfl⟩, t, s.tail, ⟨hs, rfl⟩, h⟩
      simp only [Token.Kind.literals, List.mem_cons, List.not_mem_nil, or_false] at hk
      rcases hk with hk | hk | hk | hk <;> (rw [hk]; exact read)

theorem map_ok {es : Entries Expr} : map (d + 1) s = .ok (es, s') ↔
    (∃ t, (s.head = .ok t ∧ t.kind = .closeBrace) ∧ es = [] ∧ s' = s.tail) ∨
    ∃ t, (s.head = .ok t ∧ t.kind ≠ .closeBrace) ∧ entries d [] s = .ok (es, s') := by
  rw [map]
  exact closed_or_ok

theorem entries_ok {before es : Entries Expr} : entries (d + 1) before s = .ok (es, s') ↔
    ∃ key colon a s₁ t, (s.head = .ok key ∧ key.kind ∈ [Token.Kind.string, .name]) ∧
      (s.tail.head = .ok colon ∧ colon.kind = .colon) ∧ expression d s.tail.tail = .ok (a, s₁) ∧ s₁.head = .ok t ∧
      ((t.kind = .comma ∧ entries d (Entries.insertNew before key.word a) s₁.tail = .ok (es, s')) ∨
        (t.kind = .closeBrace ∧ es = Entries.insertNew before key.word a ∧ s' = s₁.tail)) := by
  simp only [entries, bind_ok, expect_ok]
  constructor
  · rintro ⟨key, _, ⟨hkey, rfl⟩, colon, _, ⟨hcolon, rfl⟩, a, s₁, ha, t, _, ⟨⟨hs, hm⟩, rfl⟩, h⟩
    refine ⟨key, colon, a, s₁, t, hkey, ⟨hcolon.1, List.mem_singleton.1 hcolon.2⟩, ha, hs, ?_⟩
    split at h
    · next hk => exact .inl ⟨hk, h⟩
    · next hk => exact .inr ⟨by simpa [hk] using hm, pure_ok.1 h⟩
  · rintro ⟨key, colon, a, s₁, t, hkey, ⟨hcolon, hck⟩, ha, hs, h⟩
    refine ⟨key, s.tail, ⟨hkey, rfl⟩, colon, s.tail.tail, ⟨⟨hcolon, by simp [hck]⟩, rfl⟩, a, s₁, ha, t, s₁.tail, ?_⟩
    rcases h with ⟨hk, h⟩ | ⟨hk, h⟩
    · refine ⟨⟨⟨hs, by simp [hk]⟩, rfl⟩, ?_⟩
      rw [if_pos hk]
      exact h
    · refine ⟨⟨⟨hs, by simp [hk]⟩, rfl⟩, ?_⟩
      rw [if_neg (by simp [hk])]
      exact pure_ok.2 h

end Parser

end ExprLang
