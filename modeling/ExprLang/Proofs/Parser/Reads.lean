import ExprLang.Proofs.Lexemes
import ExprLang.Proofs.Parser.Step
import ExprLang.Proofs.Precedence

/-!
# What is read, step by step

`Reads p s s'` says that the phrase `p` of a source stands at the front of the tokens `s`, with `s'`
behind it, as a reader decides it: with one token of lookahead, and two for `..`. A phrase holds what
has been read and not what is built around it, so `Reads` does not depend on the depth of a call or
on the expression to the left.

* `Reads.climbs`: an expression is the tree of precedence climbing.
* `Reads.stops`: an expression ends where no operator can be read on.
* `Reads.length_le`, `Reads.wf`: what is left is a shorter part of the same source.
-/

namespace ExprLang

/-! ## Sequences -/

/-- The entries of a map in the order of the source; the first under a key counts. -/
def Entries.insertAll {α : Type} (es fs : Entries α) : Entries α := fs.foldl (fun acc f => insertNew acc f.1 f.2) es

/-- Applies subscripts from left to right. -/
def Expr.subscriptAll (b : Expr) (subs : List (Location × List Expr)) : Expr :=
  subs.foldl (fun e i => .subscript i.1 e (Expr.ofIndices i.1 i.2)) b

@[simp] theorem Expr.subscriptAll_nil (b : Expr) : b.subscriptAll [] = b := rfl

@[simp] theorem Expr.subscriptAll_cons (b : Expr) (i : Location × List Expr) (subs : List (Location × List Expr)) :
    b.subscriptAll (i :: subs) = (Expr.subscript i.1 b (Expr.ofIndices i.1 i.2)).subscriptAll subs := rfl

/-! ## Sources -/

/-- A token that some text begins with. -/
def Token.Genuine (t : Token) : Prop :=
  ∃ l cs rest, Lexeme.front cs = .lexeme l rest ∧ t.kind = l.kind ∧ t.data = l.data

/-- No text begins with the end of the input. -/
theorem Token.Genuine.kind_ne {t : Token} (h : t.Genuine) : t.kind ≠ .endOfInput := by
  obtain ⟨l, cs, rest, hl, hk, _⟩ := h
  rw [hk]
  exact Lexeme.kind_ne_of_front hl

namespace Tokens

attribute [grind =] length

/-- The tokens come from a text, and only the last one can be the end of the input. -/
def Wf : Tokens → Prop
  | token _ t rest => t.Genuine ∧ rest.Wf
  | ending _ (.ok t) _ => t.kind = .endOfInput
  | ending _ (.error _) _ => True

theorem read_lexeme {c : Cursor} {l : Lexeme} {rest : List Char} (h : Lexeme.front c.skipGap.rest = .lexeme l rest) :
    read c = .token c (c.skipGap.token l) (read (c.skipGap.past l.text rest)) := by
  rw [read.eq_def]
  split
  · next h' =>
    rw [h] at h'
    cases h'
    rfl
  · next h' => exact absurd h (h' l rest)

theorem read_of_not_lexeme {c : Cursor} (h : ∀ l rest, Lexeme.front c.skipGap.rest ≠ .lexeme l rest) :
    read c = .ending c c.next.1 c.next.2 := by
  rw [read.eq_def]
  split
  · next h' => exact absurd h' (h _ _)
  · rfl

theorem read_ended {c : Cursor} (h : Lexeme.front c.skipGap.rest = .ended) :
    read c = .ending c (.ok c.skipGap.endToken) c.skipGap := by
  rw [read_of_not_lexeme (by rw [h]; exact fun _ _ => Lexeme.Front.noConfusion), Cursor.next, h]

/-- Where nothing but a gap follows, there is the end. -/
theorem read_gap {c : Cursor} (h : (Lexeme.gap c.rest).2 = []) :
    read c = .ending c (.ok c.skipGap.endToken) c.skipGap :=
  read_ended (by rw [Cursor.skipGap, h]; rfl)

theorem read_fault {c : Cursor} {f : SyntaxFault} (h : Lexeme.front c.skipGap.rest = .fault f) :
    read c = .ending c (.error (.parse c.skipGap.location f)) c.next.2 := by
  rw [read_of_not_lexeme (by rw [h]; exact fun _ _ => Lexeme.Front.noConfusion)]
  unfold Cursor.next
  rw [h]
  cases f <;> rfl

theorem wf_read (c : Cursor) : (read c).Wf := by
  fun_induction read c with
  | case1 c l rest h _ ih => exact ⟨⟨l, _, _, h, rfl, rfl⟩, ih⟩
  | case2 c h =>
    unfold Cursor.next
    split
    · rfl
    · next hl => exact absurd hl (h _ _)
    · trivial
    · trivial

/-- The tokens of a text. -/
def ofText (text : String) : Tokens := read (Cursor.start text .start)

theorem wf_ofText (text : String) : (ofText text).Wf := wf_read _

theorem Wf.tail : ∀ {s : Tokens}, s.Wf → s.tail.Wf
  | token _ _ _, h => h.2
  | ending _ (.ok _) _, h => h
  | ending _ (.error _) _, h => h

/-- Only the end of the input is not followed by anything else. -/
theorem Wf.eq_token {s : Tokens} {t : Token} (hs : s.Wf) (h : s.head = .ok t) (hk : t.kind ≠ .endOfInput) :
    ∃ c, s = .token c t s.tail := by
  cases s with
  | token c u rest =>
    cases h
    exact ⟨c, rfl⟩
  | ending c r stop =>
    have hr : r = .ok t := h
    subst hr
    exact absurd hs hk

end Tokens

/-- From `s` up to `s'` stand tokens that look like `as` through `f`. -/
def Tokens.Spans {α : Type} (f : Token → α) : List α → Tokens → Tokens → Prop
  | [], s, s' => s = s'
  | a :: as, s, s' => ∃ c t rest, s = .token c t rest ∧ f t = a ∧ Spans f as rest s'

namespace Tokens

variable {α : Type} {f : Token → α} {as bs : List α} {c : Cursor} {t : Token} {s s' s'' : Tokens}

theorem spans_append : ∀ {as : List α} {s : Tokens},
    Spans f (as ++ bs) s s'' ↔ ∃ s', Spans f as s s' ∧ Spans f bs s' s''
  | [], s => ⟨fun h => ⟨s, rfl, h⟩, fun ⟨_, h, h'⟩ => by cases h; exact h'⟩
  | a :: as, s => by
    constructor
    · rintro ⟨c, t, rest, hs, ht, h⟩
      obtain ⟨s', h, h'⟩ := spans_append.1 h
      exact ⟨s', ⟨c, t, rest, hs, ht, h⟩, h'⟩
    · rintro ⟨s', ⟨c, t, rest, hs, ht, h⟩, h'⟩
      exact ⟨c, t, rest, hs, ht, spans_append.2 ⟨s', h, h'⟩⟩

theorem Spans.append (h : Spans f as s s') (h' : Spans f bs s' s'') : Spans f (as ++ bs) s s'' :=
  spans_append.2 ⟨s', h, h'⟩

theorem Spans.cons (h : Spans f as s s') : Spans f (f t :: as) (.token c t s) s' := ⟨c, t, s, rfl, rfl, h⟩

theorem Spans.token : Spans f [f t] (.token c t s) s := ⟨c, t, s, rfl, rfl, rfl⟩

theorem Spans.snoc (h : Spans f as s (.token c t s')) : Spans f (as ++ [f t]) s s' := h.append .token

theorem Spans.toList : ∀ {as : List α} {s : Tokens}, Spans f as s s' →
    s.toList.1.map f = as ++ s'.toList.1.map f ∧ s.toList.2 = s'.toList.2
  | [], _, h => by
    cases h
    exact ⟨rfl, rfl⟩
  | a :: as, _, ⟨_, t, rest, hs, ht, h⟩ => by
    subst hs ht
    exact ⟨congrArg (f t :: ·) (Spans.toList h).1, (Spans.toList h).2⟩

theorem Spans.map : ∀ {ts : List Token} {s : Tokens}, Spans id ts s s' → Spans f (ts.map f) s s'
  | [], _, h => h
  | _ :: _, _, ⟨c, t, rest, hs, ht, h⟩ => ⟨c, t, rest, hs, congrArg f ht, h.map⟩

theorem Wf.of_spans : ∀ {as : List α} {s : Tokens}, s.Wf → Spans f as s s' → s'.Wf
  | [], _, hs, h => by cases h; exact hs
  | _ :: _, _, hs, ⟨_, _, _, he, _, h⟩ => by subst he; exact Wf.of_spans hs.2 h

end Tokens

/-! ## The relation -/

/-- A part of a source, by what is read from it. -/
inductive Phrase where
  | expression (e : Expr)
  /-- The signs and terms after a first one. -/
  | operators (js : List Joint)
  | term (e : Expr)
  /-- The subscripts after a base, each with the place of its bracket. -/
  | subscripts (subs : List (Location × List Expr))
  | simple (e : Expr)
  | list (kind : Item) (es : List Expr)
  | items (kind : Item) (es : List Expr)
  | item (kind : Item) (e : Expr)
  | map (es : Entries Expr)
  /-- The entries as they are written, equal keys included. -/
  | entries (es : Entries Expr)

open Token.Kind in
inductive Reads : Phrase → Tokens → Tokens → Prop
  | expression {e : Expr} {js : List Joint} {s s₁ s' : Tokens} :
      Reads (.term e) s s₁ → Reads (.operators js) s₁ s' → Reads (.expression (e.joinAll js)) s s'
  | noOperator {s : Tokens} : s.Stops → Reads (.operators []) s s
  | operator {c : Cursor} {t : Token} {op : BinaryOp} {r : Expr} {js : List Joint} {s s₁ s' : Tokens} :
      BinaryOp.ofKind? t.kind = some op → Reads (.term r) s s₁ → Reads (.operators js) s₁ s' →
      Reads (.operators (⟨op, t.location, r⟩ :: js)) (.token c t s) s'
  | switch {c : Cursor} {t : Token} {es : List Expr} {s s' : Tokens} :
      t.kind = openSwitch → Reads (.list .case es) s s' → Reads (.term (.switch t.location es)) (.token c t s) s'
  | term {b : Expr} {subs : List (Location × List Expr)} {s s₁ s' : Tokens} :
      Reads (.simple b) s s₁ → Reads (.subscripts subs) s₁ s' → Reads (.term (b.subscriptAll subs)) s s'
  | noSubscript {t : Token} {s : Tokens} : s.head = .ok t → t.kind ≠ openBracket → Reads (.subscripts []) s s
  | subscript {c : Cursor} {t : Token} {es : List Expr} {subs : List (Location × List Expr)} {s s₁ s' : Tokens} :
      t.kind = openBracket → Reads (.list .index es) s s₁ → Reads (.subscripts subs) s₁ s' →
      Reads (.subscripts ((t.location, es) :: subs)) (.token c t s) s'
  | unary {c : Cursor} {t : Token} {op : UnaryOp} {a : Expr} {s s' : Tokens} :
      UnaryOp.ofKind? t.kind = some op → Reads (.term a) s s' →
      Reads (.simple (.unary t.location op a)) (.token c t s) s'
  | group {c c' : Cursor} {t u : Token} {a : Expr} {s s' : Tokens} :
      t.kind = openParen → Reads (.expression a) s (.token c' u s') → u.kind = closeParen →
      Reads (.simple (.unary t.location .group a)) (.token c t s) s'
  | name {c : Cursor} {t : Token} {s : Tokens} :
      t.kind = name → Reads (.simple (.var t.location t.word)) (.token c t s) s
  | array {c : Cursor} {t : Token} {es : List Expr} {s s' : Tokens} :
      t.kind = openBracket → Reads (.list .element es) s s' →
      Reads (.simple (.array t.location es)) (.token c t s) s'
  | mapping {c : Cursor} {t : Token} {es : Entries Expr} {s s' : Tokens} :
      t.kind = openBrace → Reads (.map es) s s' → Reads (.simple (.map t.location es)) (.token c t s) s'
  | literal {c : Cursor} {t : Token} {v : Value} {s : Tokens} :
      t.kind ∈ literals → t.literal = .ok v → Reads (.simple (.literal t.location v)) (.token c t s) s
  | emptyList {c : Cursor} {t : Token} {kind : Item} {s : Tokens} :
      t.kind = kind.close → Reads (.list kind []) (.token c t s) s
  | list {kind : Item} {es : List Expr} {s s' : Tokens} : Reads (.items kind es) s s' → Reads (.list kind es) s s'
  | lastItem {c : Cursor} {t : Token} {kind : Item} {e : Expr} {s s' : Tokens} :
      Reads (.item kind e) s (.token c t s') → t.kind = kind.close → Reads (.items kind [e]) s s'
  | items {c : Cursor} {t : Token} {kind : Item} {e : Expr} {es : List Expr} {s s₁ s' : Tokens} :
      Reads (.item kind e) s (.token c t s₁) → t.kind = comma → Reads (.items kind es) s₁ s' →
      Reads (.items kind (e :: es)) s s'
  | item {t : Token} {kind : Item} {e : Expr} {s s' : Tokens} :
      Reads (.expression e) s s' → s'.head = .ok t → (kind ≠ .case → t.kind ≠ dots) → Reads (.item kind e) s s'
  | startingAt {c : Cursor} {t : Token} {e : Expr} {s s' : Tokens} :
      Reads (.expression e) s (.token c t s') → t.kind = dots →
      Reads (.item .index (.unary t.location .startingAt e)) s s'
  | endingAt {c : Cursor} {t : Token} {e : Expr} {s s' : Tokens} :
      t.kind = dots → Reads (.expression e) s s' →
      Reads (.item .index (.unary t.location .endingAt e)) (.token c t s) s'
  | emptyMap {c : Cursor} {t : Token} {s : Tokens} : t.kind = closeBrace → Reads (.map []) (.token c t s) s
  | map {es : Entries Expr} {s s' : Tokens} : Reads (.entries es) s s' → Reads (.map (Entries.insertAll [] es)) s s'
  | lastEntry {c₁ c₂ c : Cursor} {key colon t : Token} {e : Expr} {s s' : Tokens} :
      key.kind ∈ [string, Token.Kind.name] → colon.kind = .colon → Reads (.expression e) s (.token c t s') →
      t.kind = closeBrace → Reads (.entries [(key.word, e)]) (.token c₁ key (.token c₂ colon s)) s'
  | entries {c₁ c₂ c : Cursor} {key colon t : Token} {e : Expr} {es : Entries Expr} {s s₁ s' : Tokens} :
      key.kind ∈ [string, Token.Kind.name] → colon.kind = .colon → Reads (.expression e) s (.token c t s₁) →
      t.kind = comma → Reads (.entries es) s₁ s' →
      Reads (.entries ((key.word, e) :: es)) (.token c₁ key (.token c₂ colon s)) s'

/-! ## What follows -/

namespace Tokens

/-- No subscript can be read on from here. -/
def Ready (s : Tokens) : Prop := ∃ t, s.head = .ok t ∧ t.kind ≠ .openBracket

/-- What follows an expression in every place that is not before an operator. -/
def Closes (s : Tokens) : Prop :=
  s.StartsIn [.comma, .closeBracket, .closeBrace, .closeSwitch, .closeParen, .endOfInput]

variable {s : Tokens}

theorem Closes.ready (h : s.Closes) : s.Ready := by
  obtain ⟨t, ht, hm⟩ := h
  exact ⟨t, ht, fun hk => by rw [hk] at hm; exact absurd hm (of_decide_eq_false rfl)⟩

theorem Closes.ne_dots (h : s.Closes) : ∃ t, s.head = .ok t ∧ t.kind ≠ .dots := by
  obtain ⟨t, ht, hm⟩ := h
  exact ⟨t, ht, fun hk => by rw [hk] at hm; exact absurd hm (of_decide_eq_false rfl)⟩

theorem Closes.not_term (h : s.Closes) : ∃ t, s.head = .ok t ∧ t.kind ∉ Token.Kind.terms := by
  obtain ⟨t, ht, hm⟩ := h
  refine ⟨t, ht, ?_⟩
  revert hm
  cases t.kind <;> decide

theorem Closes.stops (h : s.Closes) : s.Stops := by
  obtain ⟨t, ht, hm⟩ := h
  refine ⟨t, ht, .inl ?_⟩
  revert hm
  cases t.kind <;> decide

theorem closes_of_close {c : Cursor} {t : Token} {kind : Item} (hk : t.kind = kind.close) : (token c t s).Closes := by
  refine ⟨t, rfl, ?_⟩
  rw [hk]
  cases kind <;> decide

end Tokens

theorem Tokens.Ready.reads {s : Tokens} (h : s.Ready) : Reads (.subscripts []) s s :=
  let ⟨_, ht, hk⟩ := h
  .noSubscript ht hk

/-! ## Both ends of a phrase -/

theorem Tokens.StartsIn.mono {s : Tokens} {ks ls : List Token.Kind} (h : s.StartsIn ks) (hk : ∀ k ∈ ks, k ∈ ls) :
    s.StartsIn ls :=
  let ⟨t, ht, hm⟩ := h
  ⟨t, ht, hk _ hm⟩

/-- The kinds with which a phrase begins; operators and subscripts may be empty. -/
def Phrase.starts : Phrase → List Token.Kind
  | expression _ | term _ | item .element _ | items .element _ | item .case _ | items .case _ => Token.Kind.terms
  | simple _ => Token.Kind.simpleTerms
  | item .index _ | items .index _ => .dots :: Token.Kind.terms
  | list kind _ => kind.close :: .dots :: Token.Kind.terms
  | map _ => [.closeBrace, .string, .name]
  | entries _ => [.string, .name]
  | operators _ | subscripts _ => Token.Kind.all

theorem Phrase.starts_item {kind : Item} {e f : Expr} {k : Token.Kind} (h : k ∈ (Phrase.expression f).starts) :
    k ∈ (Phrase.item kind e).starts := by
  cases kind with
  | index => exact List.mem_cons_of_mem _ h
  | _ => exact h

theorem Phrase.starts_list {kind : Item} {es : List Expr} {k : Token.Kind} (h : k ∈ (Phrase.items kind es).starts) :
    k ∈ (Phrase.list kind es).starts := by
  cases kind with
  | index => exact List.mem_cons_of_mem _ h
  | _ => exact List.mem_cons_of_mem _ (List.mem_cons_of_mem _ h)

namespace Reads

variable {p : Phrase} {s s' : Tokens} {e : Expr} {js : List Joint}

theorem starts (h : Reads p s s') : s.StartsIn p.starts := by
  induction h with
  | expression _ _ ih _ => exact ih
  | noOperator h =>
    obtain ⟨t, ht, _⟩ := h
    exact ⟨t, ht, Token.Kind.mem_all _⟩
  | operator | subscript => exact ⟨_, rfl, Token.Kind.mem_all _⟩
  | switch hk => exact ⟨_, rfl, List.mem_append_right _ (by rw [hk]; exact List.mem_singleton_self _)⟩
  | term _ _ ih _ => exact ih.mono fun k hk => List.mem_append_left _ hk
  | noSubscript ht => exact ⟨_, ht, Token.Kind.mem_all _⟩
  | unary hk => exact ⟨_, rfl, Parser.mem_simpleTerms.2 (.inl ⟨_, hk⟩)⟩
  | group hk | name hk | array hk | mapping hk | literal hk => exact ⟨_, rfl, Parser.mem_simpleTerms.2 (by simp [hk])⟩
  | emptyList hk => exact ⟨_, rfl, by rw [hk]; exact List.mem_cons_self⟩
  | list _ ih => exact ih.mono fun k hk => Phrase.starts_list hk
  | @lastItem _ _ kind _ _ _ _ _ ih | @items _ _ kind _ _ _ _ _ _ _ _ ih _ => cases kind <;> exact ih
  | item _ _ _ ih => exact ih.mono fun k hk => Phrase.starts_item hk
  | startingAt _ _ ih => exact ih.mono fun k hk => List.mem_cons_of_mem _ hk
  | endingAt hk | emptyMap hk => exact ⟨_, rfl, by rw [hk]; exact List.mem_cons_self⟩
  | map _ ih => exact ih.mono fun k hk => List.mem_cons_of_mem _ hk
  | lastEntry hk | entries hk => exact ⟨_, rfl, hk⟩

/-- What may stand in a list does not close it. -/
theorem items_ne_close {kind : Item} {es : List Expr} (h : Reads (.items kind es) s s') :
    ∃ t, s.head = .ok t ∧ t.kind ≠ kind.close := by
  obtain ⟨t, ht, hm⟩ := h.starts
  refine ⟨t, ht, fun hk => ?_⟩
  rw [hk] at hm
  revert hm
  cases kind <;> exact of_decide_eq_false rfl

theorem expression_ne_dots (h : Reads (.expression e) s s') : ∃ t, s.head = .ok t ∧ t.kind ≠ .dots := by
  obtain ⟨t, ht, hm⟩ := h.starts
  refine ⟨t, ht, fun hk => ?_⟩
  rw [hk] at hm
  exact absurd hm (of_decide_eq_false rfl)

theorem starts_cases {es : List Expr} (h : Reads (.list .case es) s s') :
    s.StartsIn (Token.Kind.terms ++ [.closeSwitch]) := by
  cases h with
  | emptyList hk => exact ⟨_, rfl, List.mem_append_right _ (List.mem_singleton.2 hk)⟩
  | list h => exact h.starts.mono fun k hk => List.mem_append_left _ hk

theorem stops_operators : ∀ {js : List Joint} {s s' : Tokens}, Reads (.operators js) s s' → s'.Stops
  | _, _, _, .noOperator h => h
  | _, _, _, .operator _ _ h => h.stops_operators

/-- Nothing that an expression could take in follows it. -/
theorem stops (h : Reads (.expression e) s s') : s'.Stops := by
  cases h with
  | expression _ h => exact h.stops_operators

/-- After an expression a `..` is not followed by a term. -/
theorem after_dots {t : Token} (h : Reads (.expression e) s s') (ht : s'.head = .ok t) (hk : t.kind = .dots) :
    ∃ u, s'.tail.head = .ok u ∧ u.kind ∉ Token.Kind.terms := by
  obtain ⟨t', ht', hstop⟩ := h.stops
  obtain rfl : t' = t := Except.ok.inj (ht'.symm.trans ht)
  rcases hstop with hn | ⟨_, hu⟩
  · rw [hk] at hn
    cases hn
  · exact hu

/-- So no expression stands after it. -/
theorem no_range_after {t : Token} {s'' : Tokens} {f : Expr} (h : Reads (.expression e) s s') (ht : s'.head = .ok t)
    (hk : t.kind = .dots) : ¬ Reads (.expression f) s'.tail s'' := by
  intro hf
  obtain ⟨u, hu, hnot⟩ := h.after_dots ht hk
  obtain ⟨v, hv, hm⟩ := hf.starts
  obtain rfl : v = u := Except.ok.inj (hv.symm.trans hu)
  exact hnot hm

theorem simple_not_binary (h : Reads (.simple e) s s') : e.isBinary = false := by
  cases h <;> rfl

theorem subscriptAll_not_binary {b : Expr} (h : b.isBinary = false) (subs : List (Location × List Expr)) :
    (b.subscriptAll subs).isBinary = false := by
  induction subs generalizing b with
  | nil => exact h
  | cons i subs ih =>
    rw [Expr.subscriptAll_cons]
    exact ih rfl

theorem term_not_binary (h : Reads (.term e) s s') : e.isBinary = false := by
  cases h with
  | switch => rfl
  | term hb => exact subscriptAll_not_binary hb.simple_not_binary _

theorem operators_not_binary : ∀ {js : List Joint} {s s' : Tokens}, Reads (.operators js) s s' →
    ∀ j ∈ js, j.right.isBinary = false
  | _, _, _, .noOperator _ => by simp
  | _, _, _, .operator _ hr hjs => by
    intro j hj
    rcases List.mem_cons.1 hj with rfl | hj
    · exact hr.term_not_binary
    · exact hjs.operators_not_binary j hj

/-- What is read for an expression is the tree of precedence climbing. -/
theorem climbs (h : Reads (.expression e) s s') : e.Climbs := by
  cases h with
  | expression ht hjs => exact Expr.climbs_joinAll (Expr.climbs_of_not_binary ht.term_not_binary) hjs.operators_not_binary

theorem ready_of_subscripts : ∀ {subs : List (Location × List Expr)} {s s' : Tokens},
    Reads (.subscripts subs) s s' → s'.Ready
  | _, _, _, .noSubscript ht hk => ⟨_, ht, hk⟩
  | _, _, _, .subscript _ _ h => h.ready_of_subscripts

/-! ## What is left -/

@[grind →] theorem length_le (h : Reads p s s') : s'.length ≤ s.length := by
  induction h <;> grind

/-- What follows a phrase in a source is again a source. -/
theorem wf (h : Reads p s s') (hs : s.Wf) : s'.Wf := by
  induction h with
  | noOperator | noSubscript => exact hs
  | expression _ _ ih ih' | term _ _ ih ih' => exact ih' (ih hs)
  | operator _ _ _ ih ih' | subscript _ _ _ ih ih' => exact ih' (ih hs.2)
  | switch _ _ ih | unary _ _ ih | array _ _ ih | mapping _ _ ih | endingAt _ _ ih => exact ih hs.2
  | group _ _ _ ih => exact (ih hs.2).2
  | name | literal | emptyList | emptyMap => exact hs.2
  | list _ ih | item _ _ _ ih | map _ ih => exact ih hs
  | lastItem _ _ ih | startingAt _ _ ih => exact (ih hs).2
  | items _ _ _ ih ih' => exact ih' (ih hs).2
  | lastEntry _ _ _ _ ih => exact (ih hs.2.2).2
  | entries _ _ _ _ _ ih ih' => exact ih' (ih hs.2.2).2

end Reads

end ExprLang
