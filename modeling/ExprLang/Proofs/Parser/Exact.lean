import ExprLang.Proofs.Parser.Reads

/-!
# The functions read what `Reads` says

* `sound`: what a function reads from the tokens of a text is related by `Reads`, at every depth.
* `Reads.runs`: what is related is read, as soon as the depth is eight times the tokens of the phrase
  and a constant of the function.
* `expression_iff`: with `depthFor`, reading an expression and `Reads` are the same.
-/

namespace ExprLang.Parser

variable {d : Nat} {s s' : Tokens} {e : Expr} {es : List Expr} {kind : Item}

/-! ## Soundness -/

/-- What the functions read at one depth. -/
structure Sound (d : Nat) : Prop where
  expression {s s' : Tokens} {e : Expr} : s.Wf → expression d s = .ok (e, s') → Reads (.expression e) s s'
  operators {s s' : Tokens} {l e : Expr} : s.Wf → operators d l s = .ok (e, s') →
    ∃ js, e = l.joinAll js ∧ Reads (.operators js) s s'
  term {s s' : Tokens} {e : Expr} : s.Wf → term d s = .ok (e, s') → Reads (.term e) s s'
  subscripts {s s' : Tokens} {b e : Expr} : s.Wf → subscripts d b s = .ok (e, s') →
    ∃ subs, e = b.subscriptAll subs ∧ Reads (.subscripts subs) s s'
  simple {s s' : Tokens} {e : Expr} : s.Wf → simple d s = .ok (e, s') → Reads (.simple e) s s'
  list {s s' : Tokens} {kind : Item} {es : List Expr} : s.Wf → list d kind s = .ok (es, s') →
    Reads (.list kind es) s s'
  items {s s' : Tokens} {kind : Item} {es : List Expr} : s.Wf → items d kind s = .ok (es, s') →
    Reads (.items kind es) s s'
  item {s s' : Tokens} {kind : Item} {e : Expr} : s.Wf → item d kind s = .ok (e, s') → Reads (.item kind e) s s'
  map {s s' : Tokens} {es : Entries Expr} : s.Wf → map d s = .ok (es, s') → Reads (.map es) s s'
  entries {s s' : Tokens} {before es : Entries Expr} : s.Wf → entries d before s = .ok (es, s') →
    ∃ fs, es = Entries.insertAll before fs ∧ Reads (.entries fs) s s'

section Step

variable (ih : Sound d) (hs : s.Wf)

include ih hs

theorem expression_sound (h : expression (d + 1) s = .ok (e, s')) : Reads (.expression e) s s' := by
  obtain ⟨_, t, s₁, ht, ho⟩ := expression_ok.1 h
  have rt := ih.term hs ht
  obtain ⟨js, rfl, rjs⟩ := ih.operators (rt.wf hs) ho
  exact .expression rt rjs

theorem operators_sound {l : Expr} (h : operators (d + 1) l s = .ok (e, s')) :
    ∃ js, e = l.joinAll js ∧ Reads (.operators js) s s' := by
  rcases operators_ok.1 h with ⟨hstop, rfl, rfl⟩ | ⟨t, op, r, s₁, ht, hk, _, hr, ho⟩
  · exact ⟨[], rfl, .noOperator hstop⟩
  · obtain ⟨c, hc⟩ := hs.eq_token ht fun he => by rw [he] at hk; cases hk
    have rr := ih.term hs.tail hr
    obtain ⟨js, rfl, rjs⟩ := ih.operators (rr.wf hs.tail) ho
    refine ⟨⟨op, t.location, r⟩ :: js, rfl, ?_⟩
    rw [hc]
    exact .operator hk rr rjs

theorem term_sound (h : term (d + 1) s = .ok (e, s')) : Reads (.term e) s s' := by
  rcases term_ok.1 h with ⟨t, es, ⟨ht, hk⟩, _, hl, rfl⟩ | ⟨_, b, s₁, hb, hsub⟩
  · obtain ⟨c, hc⟩ := hs.eq_token ht (by simp [hk])
    rw [hc]
    exact .switch hk (ih.list hs.tail hl)
  · have rb := ih.simple hs hb
    obtain ⟨subs, rfl, rsubs⟩ := ih.subscripts (rb.wf hs) hsub
    exact .term rb rsubs

theorem subscripts_sound {b : Expr} (h : subscripts (d + 1) b s = .ok (e, s')) :
    ∃ subs, e = b.subscriptAll subs ∧ Reads (.subscripts subs) s s' := by
  rcases subscripts_ok.1 h with ⟨t, ⟨ht, hk⟩, rfl, rfl⟩ | ⟨t, es, s₁, ⟨ht, hk⟩, hl, hsub⟩
  · exact ⟨[], rfl, .noSubscript ht hk⟩
  · obtain ⟨c, hc⟩ := hs.eq_token ht (by simp [hk])
    have rl := ih.list hs.tail hl
    obtain ⟨subs, rfl, rsubs⟩ := ih.subscripts (rl.wf hs.tail) hsub
    refine ⟨(t.location, es) :: subs, rfl, ?_⟩
    rw [hc]
    exact .subscript hk rl rsubs

theorem simple_sound (h : simple (d + 1) s = .ok (e, s')) : Reads (.simple e) s s' := by
  obtain ⟨t, ht, h⟩ := simple_ok.1 h
  have hm : t.kind ≠ .endOfInput := fun he => by simp [he, UnaryOp.ofKind?, Token.Kind.literals] at h
  obtain ⟨c, hc⟩ := hs.eq_token ht hm
  rw [hc]
  rcases h with ⟨op, a, hk, ha, rfl⟩ | ⟨hk, a, s₁, u, ha, ⟨hu, hku⟩, rfl, rfl⟩ | ⟨hk, rfl, rfl⟩ |
    ⟨hk, es, hl, rfl⟩ | ⟨hk, es, hl, rfl⟩ | ⟨hk, v, hv, rfl, rfl⟩
  · exact .unary hk (ih.term hs.tail ha)
  · have ra := ih.expression hs.tail ha
    obtain ⟨c', hc'⟩ := (ra.wf hs.tail).eq_token hu (by simp [hku])
    rw [hc'] at ra
    exact .group hk ra hku
  · exact .name hk
  · exact .array hk (ih.list hs.tail hl)
  · exact .mapping hk (ih.map hs.tail hl)
  · exact .literal hk hv

theorem list_sound (h : list (d + 1) kind s = .ok (es, s')) : Reads (.list kind es) s s' := by
  rcases list_ok.1 h with ⟨t, ⟨ht, hk⟩, rfl, rfl⟩ | ⟨_, _, hi⟩
  · obtain ⟨c, hc⟩ := hs.eq_token ht fun he => by rw [he] at hk; cases kind <;> cases hk
    rw [hc]
    exact .emptyList hk
  · exact .list (ih.items hs hi)

theorem items_sound (h : items (d + 1) kind s = .ok (es, s')) : Reads (.items kind es) s s' := by
  obtain ⟨e, s₁, t, he, ht, h⟩ := items_ok.1 h
  have re := ih.item hs he
  rcases h with ⟨hk, fs, hf, rfl⟩ | ⟨hk, rfl, rfl⟩
  · obtain ⟨c, hc⟩ := (re.wf hs).eq_token ht (by simp [hk])
    have rf := ih.items (re.wf hs).tail hf
    rw [hc] at re
    exact .items re hk rf
  · obtain ⟨c, hc⟩ := (re.wf hs).eq_token ht fun he => by rw [he] at hk; cases kind <;> cases hk
    rw [hc] at re
    exact .lastItem re hk

theorem item_sound (h : item (d + 1) kind s = .ok (e, s')) : Reads (.item kind e) s s' := by
  cases kind with
  | case =>
    have re := ih.expression hs h
    obtain ⟨t, ht, _⟩ := re.stops
    exact .item re ht fun hne => absurd rfl hne
  | element =>
    obtain ⟨a, s₁, t, ha, ht, h⟩ := item_element_ok.1 h
    have ra := ih.expression hs ha
    rcases h with ⟨hk, rfl, rfl⟩ | ⟨hk, b, hb, _⟩
    · exact .item ra ht fun _ => hk
    · have rb := ih.expression (ra.wf hs).tail hb
      exact absurd rb (ra.no_range_after ht hk)
  | index =>
    rcases item_index_ok.1 h with ⟨t, a, ⟨ht, hk⟩, ha, rfl⟩ | ⟨_, a, s₁, u, _, ha, hu, h⟩
    · obtain ⟨c, hc⟩ := hs.eq_token ht (by simp [hk])
      rw [hc]
      exact .endingAt hk (ih.expression hs.tail ha)
    · have ra := ih.expression hs ha
      rcases h with ⟨hk, rfl, rfl⟩ | ⟨hk, _, b, hb, _⟩ | ⟨hk, _, rfl, rfl⟩
      · exact .item ra hu fun _ => hk
      · have rb := ih.expression (ra.wf hs).tail hb
        exact absurd rb (ra.no_range_after hu hk)
      · obtain ⟨c, hc⟩ := (ra.wf hs).eq_token hu (by simp [hk])
        rw [hc] at ra
        exact .startingAt ra hk

theorem map_sound {es : Entries Expr} (h : map (d + 1) s = .ok (es, s')) : Reads (.map es) s s' := by
  rcases map_ok.1 h with ⟨t, ⟨ht, hk⟩, rfl, rfl⟩ | ⟨_, _, he⟩
  · obtain ⟨c, hc⟩ := hs.eq_token ht (by simp [hk])
    rw [hc]
    exact .emptyMap hk
  · obtain ⟨fs, rfl, rfs⟩ := ih.entries hs he
    exact .map rfs

theorem entries_sound {before es : Entries Expr} (h : entries (d + 1) before s = .ok (es, s')) :
    ∃ fs, es = Entries.insertAll before fs ∧ Reads (.entries fs) s s' := by
  obtain ⟨key, colon, a, s₁, t, ⟨hkey, hkk⟩, ⟨hcolon, hck⟩, ha, ht, h⟩ := entries_ok.1 h
  obtain ⟨c₁, hc₁⟩ := hs.eq_token hkey fun he => by simp [he] at hkk
  obtain ⟨c₂, hc₂⟩ := hs.tail.eq_token hcolon (by simp [hck])
  have ra := ih.expression hs.tail.tail ha
  have hs₁ := ra.wf hs.tail.tail
  rw [hc₁, hc₂]
  rcases h with ⟨hk, hr⟩ | ⟨hk, rfl, rfl⟩
  · obtain ⟨c, hc⟩ := hs₁.eq_token ht (by simp [hk])
    obtain ⟨fs, rfl, rfs⟩ := ih.entries hs₁.tail hr
    rw [hc] at ra
    exact ⟨(key.word, a) :: fs, rfl, .entries hkk hck ra hk rfs⟩
  · obtain ⟨c, hc⟩ := hs₁.eq_token ht (by simp [hk])
    rw [hc] at ra
    exact ⟨[(key.word, a)], rfl, .lastEntry hkk hck ra hk⟩

end Step

theorem sound_zero : Sound 0 := by
  constructor <;> (intros; contradiction)

theorem sound : ∀ d : Nat, Sound d
  | 0 => sound_zero
  | d + 1 =>
    have ih := sound d
    { expression := expression_sound ih
      operators := fun hs h => operators_sound ih hs h
      term := term_sound ih
      subscripts := fun hs h => subscripts_sound ih hs h
      simple := simple_sound ih
      list := list_sound ih
      items := items_sound ih
      item := item_sound ih
      map := fun hs h => map_sound ih hs h
      entries := fun hs h => entries_sound ih hs h }

/-! ## Completeness -/

end Parser

/-- The functions read the phrase at a depth, whatever they are given besides. -/
def Phrase.Runs (d : Nat) (s s' : Tokens) : Phrase → Prop
  | expression e => Parser.expression d s = .ok (e, s')
  | operators js => ∀ l : Expr, Parser.operators d l s = .ok (l.joinAll js, s')
  | term e => Parser.term d s = .ok (e, s')
  | subscripts subs => ∀ b : Expr, Parser.subscripts d b s = .ok (b.subscriptAll subs, s')
  | simple e => Parser.simple d s = .ok (e, s')
  | list kind es => Parser.list d kind s = .ok (es, s')
  | items kind es => Parser.items d kind s = .ok (es, s')
  | item kind e => Parser.item d kind s = .ok (e, s')
  | map es => Parser.map d s = .ok (es, s')
  | entries es => ∀ before : Entries Expr, Parser.entries d before s = .ok (Entries.insertAll before es, s')

/-- How deep a function calls before the first token is taken off. -/
@[grind =] def Phrase.rank : Phrase → Nat
  | operators _ | subscripts _ | simple _ | entries _ => 1
  | term _ | map _ => 2
  | expression _ => 3
  | item _ _ => 4
  | items _ _ => 5
  | list _ _ => 6

namespace Reads

variable {p : Phrase} {s s' : Tokens} {d : Nat}

theorem depth_pos (h : Reads p s s') (hd : 8 * s.length + p.rank ≤ d + 8 * s'.length) : ∃ k, d = k + 1 := by
  have hlen := h.length_le
  have hrank : 0 < p.rank := by cases p <;> exact Nat.succ_pos _
  exact ⟨d - 1, by omega⟩

theorem runs (h : Reads p s s') : ∀ d, 8 * s.length + p.rank ≤ d + 8 * s'.length → p.Runs d s s' := by
  induction h with
  | expression rt rjs iht ihjs =>
    intro d hd
    obtain ⟨d, rfl⟩ := depth_pos (.expression rt rjs) hd
    exact Parser.expression_ok.2 ⟨rt.starts, _, _, iht d (by grind), ihjs d (by grind) _⟩
  | noOperator hstop =>
    intro d hd l
    obtain ⟨d, rfl⟩ := depth_pos (.noOperator hstop) hd
    exact Parser.operators_ok.2 (.inl ⟨hstop, rfl, rfl⟩)
  | operator hk rr rjs ihr ihjs =>
    intro d hd l
    obtain ⟨d, rfl⟩ := depth_pos (.operator hk rr rjs) hd
    exact Parser.operators_ok.2
      (.inr ⟨_, _, _, _, rfl, hk, fun _ => rr.starts, ihr d (by grind), ihjs d (by grind) _⟩)
  | switch hk rl ihl =>
    intro d hd
    obtain ⟨d, rfl⟩ := depth_pos (.switch hk rl) hd
    exact Parser.term_ok.2 (.inl ⟨_, _, ⟨rfl, hk⟩, rl.starts_cases, ihl d (by grind), rfl⟩)
  | term rb rsubs ihb ihsubs =>
    intro d hd
    obtain ⟨d, rfl⟩ := depth_pos (.term rb rsubs) hd
    exact Parser.term_ok.2 (.inr ⟨rb.starts, _, _, ihb d (by grind), ihsubs d (by grind) _⟩)
  | noSubscript ht hk =>
    intro d hd b
    obtain ⟨d, rfl⟩ := depth_pos (.noSubscript ht hk) hd
    exact Parser.subscripts_ok.2 (.inl ⟨_, ⟨ht, hk⟩, rfl, rfl⟩)
  | subscript hk rl rsubs ihl ihsubs =>
    intro d hd b
    obtain ⟨d, rfl⟩ := depth_pos (.subscript hk rl rsubs) hd
    exact Parser.subscripts_ok.2 (.inr ⟨_, _, _, ⟨rfl, hk⟩, ihl d (by grind), ihsubs d (by grind) _⟩)
  | unary hk ra iha =>
    intro d hd
    obtain ⟨d, rfl⟩ := depth_pos (.unary hk ra) hd
    exact Parser.simple_ok.2 ⟨_, rfl, .inl ⟨_, _, hk, iha d (by grind), rfl⟩⟩
  | group hk ra hku iha =>
    intro d hd
    obtain ⟨d, rfl⟩ := depth_pos (.group hk ra hku) hd
    exact Parser.simple_ok.2 ⟨_, rfl, .inr (.inl ⟨hk, _, _, _, iha d (by grind), ⟨rfl, hku⟩, rfl, rfl⟩)⟩
  | name hk =>
    intro d hd
    obtain ⟨d, rfl⟩ := depth_pos (.name hk) hd
    exact Parser.simple_ok.2 ⟨_, rfl, .inr (.inr (.inl ⟨hk, rfl, rfl⟩))⟩
  | array hk rl ihl =>
    intro d hd
    obtain ⟨d, rfl⟩ := depth_pos (.array hk rl) hd
    exact Parser.simple_ok.2 ⟨_, rfl, .inr (.inr (.inr (.inl ⟨hk, _, ihl d (by grind), rfl⟩)))⟩
  | mapping hk rm ihm =>
    intro d hd
    obtain ⟨d, rfl⟩ := depth_pos (.mapping hk rm) hd
    exact Parser.simple_ok.2 ⟨_, rfl, .inr (.inr (.inr (.inr (.inl ⟨hk, _, ihm d (by grind), rfl⟩))))⟩
  | literal hk hv =>
    intro d hd
    obtain ⟨d, rfl⟩ := depth_pos (.literal hk hv) hd
    exact Parser.simple_ok.2 ⟨_, rfl, .inr (.inr (.inr (.inr (.inr ⟨hk, _, hv, rfl, rfl⟩))))⟩
  | emptyList hk =>
    intro d hd
    obtain ⟨d, rfl⟩ := depth_pos (.emptyList hk) hd
    exact Parser.list_ok.2 (.inl ⟨_, ⟨rfl, hk⟩, rfl, rfl⟩)
  | list ri ihi =>
    intro d hd
    obtain ⟨d, rfl⟩ := depth_pos (.list ri) hd
    exact Parser.list_ok.2 (.inr (ri.items_ne_close.imp fun _ ht => ⟨ht, ihi d (by grind)⟩))
  | lastItem ri hk ihi =>
    intro d hd
    obtain ⟨d, rfl⟩ := depth_pos (.lastItem ri hk) hd
    exact Parser.items_ok.2 ⟨_, _, _, ihi d (by grind), rfl, .inr ⟨hk, rfl, rfl⟩⟩
  | items ri hk ris ihi ihis =>
    intro d hd
    obtain ⟨d, rfl⟩ := depth_pos (.items ri hk ris) hd
    exact Parser.items_ok.2 ⟨_, _, _, ihi d (by grind), rfl, .inl ⟨hk, _, ihis d (by grind), rfl⟩⟩
  | @item t kind e s s' re ht hk ihe =>
    intro d hd
    obtain ⟨d, rfl⟩ := depth_pos (.item re ht hk) hd
    have he : Parser.expression d s = .ok (e, s') := ihe d (by grind)
    cases kind with
    | case => exact he
    | element => exact Parser.item_element_ok.2 ⟨_, _, _, he, ht, .inl ⟨hk (by decide), rfl, rfl⟩⟩
    | index =>
      obtain ⟨u, hu⟩ := re.expression_ne_dots
      exact Parser.item_index_ok.2 (.inr ⟨u, _, _, _, hu, he, ht, .inl ⟨hk (by decide), rfl, rfl⟩⟩)
  | startingAt re hk ihe =>
    intro d hd
    obtain ⟨d, rfl⟩ := depth_pos (.startingAt re hk) hd
    obtain ⟨u, hu⟩ := re.expression_ne_dots
    obtain ⟨v, hv, hnot⟩ := re.after_dots rfl hk
    exact Parser.item_index_ok.2 (.inr ⟨u, _, _, _, hu, ihe d (by grind), rfl,
      .inr (.inr ⟨hk, ⟨v, hv, fun hm => hnot (List.mem_append_left _ hm)⟩, rfl, rfl⟩)⟩)
  | endingAt hk re ihe =>
    intro d hd
    obtain ⟨d, rfl⟩ := depth_pos (.endingAt hk re) hd
    exact Parser.item_index_ok.2 (.inl ⟨_, _, ⟨rfl, hk⟩, ihe d (by grind), rfl⟩)
  | emptyMap hk =>
    intro d hd
    obtain ⟨d, rfl⟩ := depth_pos (.emptyMap hk) hd
    exact Parser.map_ok.2 (.inl ⟨_, ⟨rfl, hk⟩, rfl, rfl⟩)
  | map res ihes =>
    intro d hd
    obtain ⟨d, rfl⟩ := depth_pos (.map res) hd
    obtain ⟨t, ht, hm⟩ := res.starts
    have hk : t.kind ≠ .closeBrace := fun hk => by simp [hk, Phrase.starts] at hm
    exact Parser.map_ok.2 (.inr ⟨t, ⟨ht, hk⟩, ihes d (by grind) []⟩)
  | lastEntry hkk hck re hk ihe =>
    intro d hd before
    obtain ⟨d, rfl⟩ := depth_pos (.lastEntry hkk hck re hk) hd
    exact Parser.entries_ok.2
      ⟨_, _, _, _, _, ⟨rfl, hkk⟩, ⟨rfl, hck⟩, ihe d (by grind), rfl, .inr ⟨hk, rfl, rfl⟩⟩
  | entries hkk hck re hk res ihe ihes =>
    intro d hd before
    obtain ⟨d, rfl⟩ := depth_pos (.entries hkk hck re hk res) hd
    exact Parser.entries_ok.2
      ⟨_, _, _, _, _, ⟨rfl, hkk⟩, ⟨rfl, hck⟩, ihe d (by grind), rfl, .inl ⟨hk, ihes d (by grind) _⟩⟩

end Reads

/-! ## Whole sources -/

/-- Enough depth makes reading an expression independent of it. -/
theorem Parser.expression_iff {s s' : Tokens} {e : Expr} (hs : s.Wf) :
    Parser.expression (Parser.depthFor s) s = .ok (e, s') ↔ Reads (.expression e) s s' := by
  refine ⟨(Parser.sound _).expression hs, fun h => h.runs _ ?_⟩
  have hrank : (Phrase.expression e).rank = 3 := rfl
  unfold Parser.depthFor
  omega

/-- What is read from a cursor on, and where that ends. -/
theorem Cursor.read_eq_ok {α : Type} {c k : Cursor} {r : Tokens → Reading α} {a : α} :
    c.read r = (.ok a, k) ↔ ∃ s', r (Tokens.read c) (Tokens.read c) = .ok (a, s') ∧ s'.cursor = k := by
  unfold Cursor.read
  rcases r (Tokens.read c) (Tokens.read c) with (_ | _) | ⟨b, s'⟩
  · exact ⟨fun h => (by cases h), fun ⟨_, h, _⟩ => (by cases h)⟩
  · exact ⟨fun h => (by cases h), fun ⟨_, h, _⟩ => (by cases h)⟩
  · exact ⟨fun h => by cases h; exact ⟨s', rfl, rfl⟩, fun ⟨_, h, hk⟩ => by cases h; cases hk; rfl⟩

theorem Cursor.read_ok {α : Type} {c : Cursor} {r : Tokens → Reading α} {a : α} :
    (c.read r).1 = .ok a ↔ ∃ s', r (Tokens.read c) (Tokens.read c) = .ok (a, s') := by
  constructor
  · intro h
    obtain ⟨s', hs', -⟩ := Cursor.read_eq_ok.1 (Prod.ext h rfl : c.read r = (.ok a, (c.read r).2))
    exact ⟨s', hs'⟩
  · rintro ⟨s', hs'⟩
    exact congrArg Prod.fst (Cursor.read_eq_ok.2 ⟨s', hs', rfl⟩)

theorem Expr.reading_strict_ok {d : Nat} {s s' : Tokens} {e : Expr} : Expr.reading .strict d s = .ok (e, s') ↔
    Parser.expression d s = .ok (e, s') ∧ ∃ t, s'.head = .ok t ∧ t.kind = .endOfInput := by
  simp only [Expr.reading, Reading.bind_ok, Reading.peekExpected_ok, Reading.pure_ok, List.mem_singleton]
  constructor
  · rintro ⟨a, s₁, ha, t, s₂, ⟨ht, rfl⟩, rfl, rfl⟩
    exact ⟨ha, t, ht⟩
  · rintro ⟨he, t, ht⟩
    exact ⟨e, s', he, t, s', ⟨ht, rfl⟩, rfl, rfl⟩

/-- The rest of a source is an expression if one is read off its tokens and then they end. -/
theorem Expr.read_strict_iff {c : Cursor} {e : Expr} :
    (Expr.read .strict c).1 = .ok e ↔ ∃ s' t, Reads (.expression e) (Tokens.read c) s' ∧
      s'.head = .ok t ∧ t.kind = .endOfInput := by
  have hs := Tokens.wf_read c
  refine Cursor.read_ok.trans ⟨?_, ?_⟩
  · rintro ⟨s', h⟩
    obtain ⟨he, t, ht⟩ := Expr.reading_strict_ok.1 h
    exact ⟨s', t, (Parser.expression_iff hs).1 he, ht⟩
  · rintro ⟨s', t, he, ht⟩
    exact ⟨s', Expr.reading_strict_ok.2 ⟨(Parser.expression_iff hs).2 he, t, ht⟩⟩

/-- A text is an expression if one is read off its tokens and then they end. -/
theorem Expr.parse_iff {text : String} {e : Expr} :
    Expr.parse text = .ok e ↔ ∃ s' t, Reads (.expression e) (Tokens.ofText text) s' ∧
      s'.head = .ok t ∧ t.kind = .endOfInput := Expr.read_strict_iff

/-- Reading the first expression of a source. -/
theorem Expr.read_lenient_iff {c k : Cursor} {e : Expr} : Expr.read .lenient c = (.ok e, k) ↔
    ∃ s', Reads (.expression e) (Tokens.read c) s' ∧ s'.cursor = k := by
  have hreading {s' : Tokens} : Expr.reading .lenient (Parser.depthFor (Tokens.read c)) (Tokens.read c) = .ok (e, s') ↔
      Reads (.expression e) (Tokens.read c) s' := by
    rw [← Parser.expression_iff (Tokens.wf_read c)]
    simp only [Expr.reading, Reading.bind_ok, Reading.pure_ok]
    constructor
    · rintro ⟨_, _, h, rfl, rfl⟩
      exact h
    · exact fun h => ⟨e, s', h, rfl, rfl⟩
  exact Cursor.read_eq_ok.trans (exists_congr fun _ => and_congr_left fun _ => hreading)

end ExprLang
