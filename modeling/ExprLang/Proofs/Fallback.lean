import ExprLang.Proofs.Parser.Taken

/-!
# Expressions or else model lists

A definition of a model is an expression or, where no expression with a closing token behind it can
be read, a model list. Both are tried from the same cursor.

* `Tokens.Aligned.of_drops`: what a reading leaves is again the stream of its cursor, so the token that
  it stops before is the one that a reader finds there.
* `ModelList.entries_closed`: a list of entries ends right before a closing token.
* `Expr.readModel_eq`: the two attempts; `Expr.readModel_falls_back`: what comes of them.
-/

namespace ExprLang

open Relation (ReflTransGen)

/-! ## Streams and cursors -/

namespace Cursor

/-- At the end there is no gap left. -/
theorem skipGap_of_ended {c : Cursor} (h : c.rest = []) : c.skipGap = c := by
  obtain ⟨rest, offset, location⟩ := c
  cases h
  rfl

/-- The end of the input can be read again and again. -/
theorem peek_next_of_ended {c : Cursor} {t : Token} (h : c.next.1 = .ok t)
    (hend : ∀ l rest, Lexeme.front c.skipGap.rest ≠ .lexeme l rest) : c.next.2.peek = .ok t := by
  cases hfront : Lexeme.front c.skipGap.rest with
  | lexeme l rest => exact absurd hfront (hend l rest)
  | fault f =>
    unfold next at h
    rw [hfront] at h
    cases f <;> cases h
  | ended =>
    have hnext : c.next = (.ok c.skipGap.endToken, c.skipGap) := by rw [next, hfront]
    have hskip : c.skipGap.skipGap = c.skipGap := skipGap_of_ended (Lexeme.eq_nil_of_front hfront)
    rw [hnext] at h ⊢
    rw [peek, next, hskip, hfront]
    exact h

end Cursor

namespace Tokens

variable {s s' : Tokens}

/-- Every token is the one that is read from its cursor on. -/
def Aligned : Tokens → Prop
  | token here t rest => here.peek = .ok t ∧ rest.Aligned
  | ending here result stop => here.peek = result ∧ ∀ t, result = .ok t → stop.peek = .ok t

theorem aligned_read (c : Cursor) : (read c).Aligned := by
  fun_induction read c with
  | case1 c l rest hl _ ih => exact ⟨by rw [Cursor.peek, Cursor.next, hl], ih⟩
  | case2 c hend => exact ⟨rfl, fun t ht => Cursor.peek_next_of_ended ht hend⟩

theorem Aligned.peek (h : s.Aligned) : s.cursor.peek = s.head := by
  cases s <;> exact h.1

theorem Aligned.of_drops (h : s.Aligned) (hdrops : ReflTransGen Drops s s') : s'.Aligned := by
  induction hdrops with
  | refl => exact h
  | tail _ hstep ih =>
    obtain ⟨c, t, rfl⟩ := hstep
    exact ih.2

end Tokens

/-! ## Model lists -/

namespace ModelList

open Reading

variable {closing : List Token.Kind}

/-- However many entries there are, reading takes tokens off and stops right before a closing one. -/
theorem entries_closed : ∀ {n : Nat} {s s' : Tokens} {es : List Expr}, s.Wf →
    entries closing n s = .ok (es, s') → ReflTransGen Tokens.Drops s s' ∧ s'.StartsIn closing
  | 0, _, _, _, _, h => nomatch h
  | n + 1, s, s', es, hs, h => by
    have hrest : ∀ (e : Expr) (s₁ : Tokens), ReflTransGen Tokens.Drops s s₁ → (do
        let t ← peekExpected (.comma :: closing)
        if t.kind = .comma then
          let _ ← next
          return e :: (← entries closing n)
        else return [e] : Reading (List Expr)) s₁ = .ok (es, s') →
        ReflTransGen Tokens.Drops s s' ∧ s'.StartsIn closing := by
      intro e s₁ hentry hclose
      obtain ⟨u, _, hpeek, hgo⟩ := bind_ok.1 hclose
      obtain ⟨⟨hu, hm⟩, rfl⟩ := peekExpected_ok.1 hpeek
      split at hgo
      · next hcomma =>
        simp only [bind_ok, next_ok] at hgo
        obtain ⟨_, _, ⟨-, rfl⟩, es', _, hes, hlist⟩ := hgo
        obtain ⟨-, rfl⟩ := pure_ok.1 hlist
        have hbehind := hentry.tail ((Tokens.wf_of_drops hentry hs).drops hu (by simp [hcomma]))
        obtain ⟨hdrops, hstarts⟩ := entries_closed (Tokens.wf_of_drops hbehind hs) hes
        exact ⟨hbehind.trans hdrops, hstarts⟩
      · next hcomma =>
        obtain ⟨-, rfl⟩ := pure_ok.1 hgo
        exact ⟨hentry, u, hu, (List.mem_cons.1 hm).resolve_left hcomma⟩
    rw [entries] at h
    obtain ⟨t, _, ht, hentry⟩ := bind_ok.1 h
    obtain ⟨-, rfl⟩ := peekExpected_ok.1 ht
    dsimp only at hentry
    split at hentry
    · obtain ⟨e, s₁, he, hclose⟩ := bind_ok.1 hentry
      exact hrest e s₁ (staticEntry_drops _ _ _ hs he) hclose
    · obtain ⟨e, s₁, he, hclose⟩ := bind_ok.1 hentry
      exact hrest e s₁ (dynamicEntry_drops n _ _ _ hs he) hclose

end ModelList

/-! ## Both attempts -/

/-- The next token closes what is before the cursor. -/
def Cursor.ClosedBy (closing : List Token.Kind) (k : Cursor) : Prop := ∃ t, k.peek = .ok t ∧ t.kind ∈ closing

theorem Cursor.closedBy_iff {closing : List Token.Kind} {k : Cursor} :
    k.ClosedBy closing ↔ ∃ t, k.peekExpected closing = .ok t :=
  exists_congr fun _ => Reading.check_ok.symm

theorem ModelList.read_closed {closing : List Token.Kind} {c k : Cursor} {e : Expr}
    (h : ModelList.read closing c = (.ok e, k)) : k.ClosedBy closing := by
  obtain ⟨s', hs, rfl⟩ := Cursor.read_eq_ok.1 h
  obtain ⟨es, s₁, hes, hs⟩ := Reading.bind_ok.1 hs
  obtain ⟨-, rfl⟩ := Reading.pure_ok.1 hs
  obtain ⟨hdrops, t, ht, hm⟩ := entries_closed (Tokens.wf_read c) hes
  exact ⟨t, ((Tokens.aligned_read c).of_drops hdrops).peek.trans ht, hm⟩

namespace Reading

variable {α β : Type} {x : Reading α} {f : α → Reading β} {s s' : Tokens} {a : α}

theorem bind_of_ok (h : x s = .ok (a, s')) : (x >>= f) s = f a s' := by
  show (x s >>= fun p => f p.1 p.2) = _
  rw [h]
  rfl

theorem bind_of_error {stop : Stop} (h : x s = .error stop) : (x >>= f) s = .error stop := by
  show (x s >>= fun p => f p.1 p.2) = _
  rw [h]
  rfl

end Reading

namespace Expr

variable {closing : List Token.Kind} {c : Cursor}

/-- An expression with a closing token behind it. -/
def readClosed (closing : List Token.Kind) (c : Cursor) : Except Error Expr × Cursor :=
  match read .lenient c with
  | (.error err, k) => (.error err, k)
  | (.ok e, k) =>
    match k.peekExpected closing with
    | .ok _ => (.ok e, k)
    | .error err => (.error err, k)

theorem aligned_of_reading {e : Expr} {s' : Tokens}
    (h : reading .lenient (Parser.depthFor (Tokens.read c)) (Tokens.read c) = .ok (e, s')) : s'.Aligned := by
  obtain ⟨e', s₁, he, h⟩ := Reading.bind_ok.1 h
  obtain ⟨-, rfl⟩ := Reading.pure_ok.1 h
  exact (Tokens.aligned_read c).of_drops ((Parser.expression_iff (Tokens.wf_read c)).1 he).drops

theorem read_then_closed : (c.read fun s => do
      let e ← reading .lenient (Parser.depthFor s)
      let _ ← Reading.peekExpected closing
      return e) = readClosed closing c := by
  unfold readClosed read Cursor.read
  dsimp only
  cases hreading : reading .lenient (Parser.depthFor (Tokens.read c)) (Tokens.read c) with
  | error stop =>
    rw [Reading.bind_of_error hreading]
    cases stop <;> rfl
  | ok p =>
    obtain ⟨e, s'⟩ := p
    have hpeek : s'.cursor.peekExpected closing = s'.head >>= Cursor.check closing := by
      rw [Cursor.peekExpected, (aligned_of_reading hreading).peek]
    have hlook : Reading.peekExpected closing s' = Reading.look (fun s => s.head >>= Cursor.check closing) s' := rfl
    rw [Reading.bind_of_ok hreading]
    dsimp only
    rw [hpeek]
    cases hcheck : s'.head >>= Cursor.check closing with
    | error err =>
      rw [Reading.look, hcheck] at hlook
      rw [Reading.bind_of_error hlook]
    | ok t =>
      rw [Reading.look, hcheck] at hlook
      rw [Reading.bind_of_ok hlook]
      rfl

theorem readClosed_ok {e : Expr} {k : Cursor} :
    readClosed closing c = (.ok e, k) ↔ read .lenient c = (.ok e, k) ∧ k.ClosedBy closing := by
  rw [Cursor.closedBy_iff, readClosed]
  rcases read .lenient c with ⟨err | f, d⟩
  · exact ⟨nofun, nofun⟩
  · cases hpeek : d.peekExpected closing with
    | ok t =>
      simp only [hpeek]
      refine ⟨fun h => ?_, And.left⟩
      cases h
      exact ⟨rfl, t, hpeek⟩
    | error err =>
      simp only [hpeek]
      refine ⟨nofun, fun ⟨h, t, ht⟩ => ?_⟩
      cases h
      rw [hpeek] at ht
      cases ht

/-- The attempt fails because there is no expression, or because of the token behind it. -/
theorem readClosed_error {err : Error} {k : Cursor} (h : readClosed closing c = (.error err, k)) :
    (∃ d, read .lenient c = (.error err, d)) ∨
      ∃ f d, read .lenient c = (.ok f, d) ∧ d.peekExpected closing = .error err := by
  revert h
  rw [readClosed]
  rcases read .lenient c with ⟨err' | f, d⟩ <;> intro h
  · cases h
    exact .inl ⟨k, rfl⟩
  · cases hpeek : d.peekExpected closing with
    | ok t =>
      simp only [hpeek] at h
      cases h
    | error err' =>
      simp only [hpeek] at h
      cases h
      exact .inr ⟨f, k, rfl, hpeek⟩

/-- Reading a model is reading an expression up to a closing token, or else a list; where both fail, the error is that of
the expression and nothing has been read. -/
theorem readModel_eq (closing : List Token.Kind) (c : Cursor) : readModel closing c =
    match readClosed closing c, ModelList.read closing c with
    | (.ok e, k), _ => (.ok e, k)
    | (.error _, _), (.ok e, k) => (.ok e, k)
    | (.error err, _), (.error _, _) => (.error err, c) := by
  rw [← read_then_closed]
  rfl

/-- If a model is read, a closing token comes next. It is the first expression, wherever that can be read and a closing
token comes next, and else the list that begins in the same place. If none is read, the cursor is where it was, and the
error is that of the first expression or, if that was read, of the token behind it. -/
theorem readModel_falls_back (closing : List Token.Kind) (c : Cursor) :
    match readModel closing c with
    | (.ok e, k) => k.ClosedBy closing ∧ (read .lenient c = (.ok e, k) ∨
        (¬ ∃ f d, read .lenient c = (.ok f, d) ∧ d.ClosedBy closing) ∧ ModelList.read closing c = (.ok e, k))
    | (.error err, k) => k = c ∧ ((∃ d, read .lenient c = (.error err, d)) ∨
        ∃ f d, read .lenient c = (.ok f, d) ∧ d.peekExpected closing = .error err) ∧
        ∃ err' d, ModelList.read closing c = (.error err', d) := by
  rw [readModel_eq]
  cases hclosed : readClosed closing c with
  | mk outcome d =>
    cases outcome with
    | ok e =>
      obtain ⟨hread, hcloses⟩ := readClosed_ok.1 hclosed
      exact ⟨hcloses, .inl hread⟩
    | error err =>
      have hnone : ¬ ∃ f d, read .lenient c = (.ok f, d) ∧ d.ClosedBy closing := by
        rintro ⟨f, d', h⟩
        rw [readClosed_ok.2 h] at hclosed
        cases hclosed
      cases hlist : ModelList.read closing c with
      | mk outcome k =>
        cases outcome with
        | ok e => exact ⟨ModelList.read_closed hlist, .inr ⟨hnone, rfl⟩⟩
        | error err' => exact ⟨rfl, readClosed_error hclosed, err', k, rfl⟩

end Expr

end ExprLang
