import ExprLang.Proofs.Parser.Exact

/-!
# The grammar

`Derives` is the grammar of expressions over the kinds of tokens, one constructor for each of its
alternatives. It is ambiguous: a subscript after an operand with a sign belongs to either of them,
and `..` between two operands is an operator or separates two expressions. The reader decides both.

* `Reads.derives`: what is read is derivable.
* `Derives.read`: what is derivable is read, whichever way the reader decides.
* `parse_iff_derives`: a text of tokens is accepted exactly if they are derivable from `expression`.
-/

namespace ExprLang

namespace Grammar

/-- The nonterminals. -/
inductive Symbol where
  | expression | term
  /-- Operators with their operands, any number of them. -/
  | operations
  /-- A simple term with its subscripts, or a switch. -/
  | operand
  | subscripts | simple | literal | array | element | map | entry | switch | index
  /-- Items separated by commas, or none. -/
  | list (x : Symbol)
  /-- Items separated by commas, at least one. -/
  | commas (x : Symbol)

open Token.Kind in
inductive Derives : Symbol → List Token.Kind → Prop
  | expression {ks : List Token.Kind} : Derives .term ks → Derives .expression ks
  | term {ks ls : List Token.Kind} : Derives .operand ks → Derives .operations ls → Derives .term (ks ++ ls)
  | noOperation : Derives .operations []
  | operation {k : Token.Kind} {ks ls : List Token.Kind} :
      k ∈ binaryOperators → Derives .operand ks → Derives .operations ls → Derives .operations (k :: (ks ++ ls))
  | switchOperand {ks : List Token.Kind} : Derives .switch ks → Derives .operand ks
  | simpleOperand {ks ls : List Token.Kind} :
      Derives .simple ks → Derives .subscripts ls → Derives .operand (ks ++ ls)
  | noSubscript : Derives .subscripts []
  | subscript {ks ls : List Token.Kind} :
      Derives (.list .index) ks → Derives .subscripts ls → Derives .subscripts (openBracket :: (ks ++ closeBracket :: ls))
  | unary {k : Token.Kind} {ks : List Token.Kind} : k ∈ unaryOperators → Derives .operand ks → Derives .simple (k :: ks)
  | group {ks : List Token.Kind} : Derives .expression ks → Derives .simple (openParen :: (ks ++ [closeParen]))
  | name : Derives .simple [name]
  | literal {ks : List Token.Kind} : Derives .literal ks → Derives .simple ks
  | scalar {k : Token.Kind} : k ∈ literals → Derives .literal [k]
  | arrayLiteral {ks : List Token.Kind} : Derives .array ks → Derives .literal ks
  | mapLiteral {ks : List Token.Kind} : Derives .map ks → Derives .literal ks
  | array {ks : List Token.Kind} : Derives (.list .element) ks → Derives .array (openBracket :: (ks ++ [closeBracket]))
  | element {ks : List Token.Kind} : Derives .expression ks → Derives .element ks
  | elementRange {ks ls : List Token.Kind} :
      Derives .expression ks → Derives .expression ls → Derives .element (ks ++ dots :: ls)
  | map {ks : List Token.Kind} : Derives (.list .entry) ks → Derives .map (openBrace :: (ks ++ [closeBrace]))
  | entry {k : Token.Kind} {ks : List Token.Kind} :
      k ∈ [string, Token.Kind.name] → Derives .expression ks → Derives .entry (k :: colon :: ks)
  | switch {ks : List Token.Kind} :
      Derives (.list .expression) ks → Derives .switch (openSwitch :: (ks ++ [closeSwitch]))
  | index {ks : List Token.Kind} : Derives .expression ks → Derives .index ks
  | startingAt {ks : List Token.Kind} : Derives .expression ks → Derives .index (ks ++ [dots])
  | endingAt {ks : List Token.Kind} : Derives .expression ks → Derives .index (dots :: ks)
  | indexRange {ks ls : List Token.Kind} :
      Derives .expression ks → Derives .expression ls → Derives .index (ks ++ dots :: ls)
  | empty {x : Symbol} : Derives (.list x) []
  | list {x : Symbol} {ks : List Token.Kind} : Derives (.commas x) ks → Derives (.list x) ks
  | single {x : Symbol} {ks : List Token.Kind} : Derives x ks → Derives (.commas x) ks
  | commas {x : Symbol} {ks ls : List Token.Kind} :
      Derives x ks → Derives (.commas x) ls → Derives (.commas x) (ks ++ comma :: ls)

end Grammar

open Grammar

/-- What the items of a list are. -/
def Item.symbol : Item → Symbol
  | element => .element
  | index => .index
  | case => .expression

theorem mem_binaryOperators {k : Token.Kind} : k ∈ Token.Kind.binaryOperators ↔ ∃ op, BinaryOp.ofKind? k = some op := by
  cases k <;> simp [Token.Kind.binaryOperators, BinaryOp.ofKind?]

theorem mem_unaryOperators {k : Token.Kind} : k ∈ Token.Kind.unaryOperators ↔ ∃ op, UnaryOp.ofKind? k = some op := by
  cases k <;> simp [Token.Kind.unaryOperators, UnaryOp.ofKind?]

/-! ## What is read is derivable -/

/-- The kinds of the tokens of a phrase are derivable; a list and a map take the closing sign with them. -/
def Phrase.Derived (ks : List Token.Kind) : Phrase → Prop
  | expression _ => Derives .expression ks
  | operators _ => Derives .operations ks
  | term _ => Derives .operand ks
  | subscripts _ => Derives .subscripts ks
  | simple _ => Derives .simple ks
  | list kind _ => ∃ ls, ks = ls ++ [kind.close] ∧ Derives (.list kind.symbol) ls
  | items kind _ => ∃ ls, ks = ls ++ [kind.close] ∧ Derives (.commas kind.symbol) ls
  | item kind _ => Derives kind.symbol ks
  | map _ => ∃ ls, ks = ls ++ [.closeBrace] ∧ Derives (.list .entry) ls
  | entries _ => ∃ ls, ks = ls ++ [.closeBrace] ∧ Derives (.commas .entry) ls

theorem Reads.derives {p : Phrase} {s s' : Tokens} (h : Reads p s s') :
    ∃ ks, Tokens.Spans Token.kind ks s s' ∧ p.Derived ks := by
  induction h with
  | expression _ _ iht ihjs =>
    obtain ⟨ks, hks, dt⟩ := iht
    obtain ⟨ls, hls, djs⟩ := ihjs
    exact ⟨_, hks.append hls, .expression (.term dt djs)⟩
  | noOperator => exact ⟨[], rfl, .noOperation⟩
  | operator hk _ _ ihr ihjs =>
    obtain ⟨ks, hks, dr⟩ := ihr
    obtain ⟨ls, hls, djs⟩ := ihjs
    exact ⟨_, (hks.append hls).cons, .operation (mem_binaryOperators.2 ⟨_, hk⟩) dr djs⟩
  | switch hk _ ihl =>
    obtain ⟨_, hks, ls, rfl, dl⟩ := ihl
    refine ⟨_, hks.cons, ?_⟩
    rw [hk]
    exact .switchOperand (.switch dl)
  | term _ _ ihb ihsubs =>
    obtain ⟨ks, hks, db⟩ := ihb
    obtain ⟨ls, hls, dsubs⟩ := ihsubs
    exact ⟨_, hks.append hls, .simpleOperand db dsubs⟩
  | noSubscript => exact ⟨[], rfl, .noSubscript⟩
  | subscript hk _ _ ihl ihsubs =>
    obtain ⟨_, hks, ks, rfl, dl⟩ := ihl
    obtain ⟨ls, hls, dsubs⟩ := ihsubs
    refine ⟨_, (hks.append hls).cons, ?_⟩
    rw [hk, List.append_assoc]
    exact .subscript dl dsubs
  | unary hk _ iha =>
    obtain ⟨ks, hks, da⟩ := iha
    exact ⟨_, hks.cons, .unary (mem_unaryOperators.2 ⟨_, hk⟩) da⟩
  | group hk _ hku iha =>
    obtain ⟨ks, hks, da⟩ := iha
    refine ⟨_, hks.snoc.cons, ?_⟩
    rw [hk, hku]
    exact .group da
  | name hk =>
    refine ⟨_, .token, ?_⟩
    rw [hk]
    exact .name
  | array hk _ ihl =>
    obtain ⟨_, hks, ks, rfl, dl⟩ := ihl
    refine ⟨_, hks.cons, ?_⟩
    rw [hk]
    exact .literal (.arrayLiteral (.array dl))
  | mapping hk _ ihm =>
    obtain ⟨_, hks, ks, rfl, dm⟩ := ihm
    refine ⟨_, hks.cons, ?_⟩
    rw [hk]
    exact .literal (.mapLiteral (.map dm))
  | literal hk => exact ⟨_, .token, .literal (.scalar hk)⟩
  | emptyList hk => exact ⟨_, .token, [], by rw [hk]; rfl, .empty⟩
  | list _ ih =>
    obtain ⟨_, hks, ks, rfl, d⟩ := ih
    exact ⟨_, hks, ks, rfl, .list d⟩
  | lastItem _ hk ih =>
    obtain ⟨ks, hks, d⟩ := ih
    exact ⟨_, hks.snoc, ks, by rw [hk], .single d⟩
  | items _ hk _ ihi ihis =>
    obtain ⟨ks, hks, di⟩ := ihi
    obtain ⟨_, hls, ls, rfl, dis⟩ := ihis
    refine ⟨_, hks.append hls.cons, ks ++ .comma :: ls, ?_, .commas di dis⟩
    rw [hk, List.append_assoc, List.cons_append]
  | @item _ kind _ _ _ _ _ _ ih =>
    obtain ⟨ks, hks, d⟩ := ih
    refine ⟨ks, hks, ?_⟩
    cases kind with
    | case => exact d
    | element => exact .element d
    | index => exact .index d
  | startingAt _ hk ih =>
    obtain ⟨ks, hks, d⟩ := ih
    refine ⟨_, hks.snoc, ?_⟩
    rw [hk]
    exact .startingAt d
  | endingAt hk _ ih =>
    obtain ⟨ks, hks, d⟩ := ih
    refine ⟨_, hks.cons, ?_⟩
    rw [hk]
    exact .endingAt d
  | emptyMap hk => exact ⟨_, .token, [], by rw [hk]; rfl, .empty⟩
  | map _ ih =>
    obtain ⟨_, hks, ks, rfl, d⟩ := ih
    exact ⟨_, hks, ks, rfl, .list d⟩
  | lastEntry hkk hck _ hk ih =>
    obtain ⟨ks, hks, d⟩ := ih
    refine ⟨_, hks.snoc.cons.cons, _ :: .colon :: ks, ?_, .single (.entry hkk d)⟩
    rw [hck, hk]
    rfl
  | entries hkk hck _ hk _ ihe ihes =>
    obtain ⟨ks, hks, de⟩ := ihe
    obtain ⟨_, hls, ls, rfl, des⟩ := ihes
    refine ⟨_, (hks.append hls.cons).cons.cons, _ :: .colon :: ks ++ .comma :: ls, ?_, .commas (.entry hkk de) des⟩
    rw [hck, hk]
    simp

/-! ## What is derivable is read -/

/-- The literal of a token of a text can be told, that of a number in particular. -/
theorem Token.Genuine.literal {t : Token} (h : t.Genuine) : ∃ v, t.literal = .ok v := by
  obtain ⟨l, cs, rest, hl, hk, hd⟩ := h
  unfold Token.literal
  split
  · exact ⟨_, rfl⟩
  · next hn =>
    rw [hk] at hn
    obtain ⟨x, hx⟩ := Lexeme.front_number hl hn
    have hdata : t.data = l.text := by simp [hd, Lexeme.data, hn]
    exact ⟨.number x, by rw [Token.number, hdata, hx]; rfl⟩
  · exact ⟨_, rfl⟩
  · exact ⟨_, rfl⟩

namespace Grammar

/-- What a derivation lets the reader do. The reader may give a piece less or more than the derivation
does, so pieces are taken together with what they could take in: an expression with the operators
after it, an operand with the subscripts after it, unless it is a switch, which takes none. -/
def Symbol.Read (ks : List Token.Kind) : Symbol → Prop
  | expression | term => ∀ s s' s'' js, s.Wf → Tokens.Spans Token.kind ks s s' → s'.Ready →
      Reads (.operators js) s' s'' → ∃ e, Reads (.expression e) s s''
  | operations => ∀ s s' s'' js, s.Wf → Tokens.Spans Token.kind ks s s' → s'.Ready →
      Reads (.operators js) s' s'' → s.Ready ∧ ∃ js', Reads (.operators js') s s''
  | operand => ∀ s s' s'' subs, s.Wf → Tokens.Spans Token.kind ks s s' →
      Reads (.subscripts subs) s' s'' → ∃ e, Reads (.term e) s s' ∨ Reads (.term e) s s''
  | subscripts => ∀ s s' s'' subs, s.Wf → Tokens.Spans Token.kind ks s s' →
      Reads (.subscripts subs) s' s'' → ∃ subs', Reads (.subscripts subs') s s''
  | simple => ∀ s s' s'' subs, s.Wf → Tokens.Spans Token.kind ks s s' → Reads (.subscripts subs) s' s'' →
      ∃ e s₁ subs', Reads (.simple e) s s₁ ∧ Reads (.subscripts subs') s₁ s''
  | literal | array | map => ∀ s s', s.Wf → Tokens.Spans Token.kind ks s s' → ∃ e, Reads (.simple e) s s'
  | switch => ∀ s s', s.Wf → Tokens.Spans Token.kind ks s s' → ∃ e, Reads (.term e) s s'
  | element => ∀ s s', s.Wf → Tokens.Spans Token.kind ks s s' → s'.Closes → ∃ e, Reads (.item .element e) s s'
  | index => ∀ s s', s.Wf → Tokens.Spans Token.kind ks s s' → s'.Closes → ∃ e, Reads (.item .index e) s s'
  | entry => ∀ s s', s.Wf → Tokens.Spans Token.kind ks s s' → s'.Closes → ∃ c₁ c₂ key colon s₁ e,
      s = .token c₁ key (.token c₂ colon s₁) ∧ key.kind ∈ [Token.Kind.string, .name] ∧ colon.kind = .colon ∧
        Reads (.expression e) s₁ s'
  | list x => ∀ s c t s', s.Wf → Tokens.Spans Token.kind ks s (.token c t s') →
      (∀ kind, Item.symbol kind = x → t.kind = kind.close → ∃ es, Reads (.list kind es) s s') ∧
      (x = entry → t.kind = .closeBrace → ∃ es, Reads (.map es) s s')
  | commas x => ∀ s c t s', s.Wf → Tokens.Spans Token.kind ks s (.token c t s') →
      (∀ kind, Item.symbol kind = x → t.kind = kind.close → ∃ es, Reads (.items kind es) s s') ∧
      (x = entry → t.kind = .closeBrace → ∃ es, Reads (.entries es) s s')

section Read

variable {ks ls : List Token.Kind} {s s' : Tokens}

theorem Symbol.Read.alone (h : Symbol.expression.Read ks) (hs : s.Wf) (hspan : Tokens.Spans Token.kind ks s s')
    (hc : s'.Closes) : ∃ e, Reads (.expression e) s s' :=
  h s s' s' [] hs hspan hc.ready (.noOperator hc.stops)

/-- Two expressions around `..` are read as one. -/
theorem Symbol.Read.range (h : Symbol.expression.Read ks) (h' : Symbol.expression.Read ls) (hs : s.Wf)
    (hspan : Tokens.Spans Token.kind (ks ++ .dots :: ls) s s') (hc : s'.Closes) : ∃ e, Reads (.expression e) s s' := by
  obtain ⟨m, hks, c, t, rest, rfl, ht, hls⟩ := Tokens.spans_append.1 hspan
  obtain ⟨b, hb⟩ := h'.alone (hs.of_spans hks).2 hls hc
  cases hb with
  | expression hr hjs =>
    have hop : BinaryOp.ofKind? t.kind = some .range := by rw [ht]; rfl
    exact h _ _ _ _ hs hks ⟨t, rfl, by simp [ht]⟩ (.operator hop hr hjs)

theorem Symbol.Read.item {kind : Item} (h : kind.symbol.Read ks) (hs : s.Wf)
    (hspan : Tokens.Spans Token.kind ks s s') (hc : s'.Closes) : ∃ e, Reads (.item kind e) s s' := by
  cases kind with
  | element => exact h s s' hs hspan hc
  | index => exact h s s' hs hspan hc
  | case =>
    obtain ⟨e, he⟩ := Symbol.Read.alone h hs hspan hc
    obtain ⟨t, ht, _⟩ := hc
    exact ⟨e, .item he ht fun hne => absurd rfl hne⟩

end Read

theorem Derives.read {x : Symbol} {ks : List Token.Kind} (h : Derives x ks) : x.Read ks := by
  induction h with
  | expression _ ih => exact ih
  | term _ _ iht ihops =>
    intro s s' s'' js hs hspan hready hjs
    obtain ⟨m, hks, hls⟩ := Tokens.spans_append.1 hspan
    obtain ⟨hm, js', hjs'⟩ := ihops _ _ _ _ (hs.of_spans hks) hls hready hjs
    obtain ⟨e, he⟩ := iht _ _ _ _ hs hks hm.reads
    exact ⟨_, .expression (he.elim id id) hjs'⟩
  | noOperation =>
    rintro s _ s'' js hs rfl hready hjs
    exact ⟨hready, js, hjs⟩
  | operation hk _ _ ihr ihops =>
    rintro _ s' s'' js hs ⟨c, t, rest, rfl, rfl, hspan⟩ hready hjs
    obtain ⟨op, hop⟩ := mem_binaryOperators.1 hk
    obtain ⟨m, hks, hls⟩ := Tokens.spans_append.1 hspan
    obtain ⟨hm, js', hjs'⟩ := ihops _ _ _ _ (hs.2.of_spans hks) hls hready hjs
    obtain ⟨r, hr⟩ := ihr _ _ _ _ hs.2 hks hm.reads
    have hne : t.kind ≠ .openBracket := fun hb => by rw [hb] at hop; cases hop
    exact ⟨⟨t, rfl, hne⟩, _, .operator hop (hr.elim id id) hjs'⟩
  | switchOperand _ ih =>
    intro s s' s'' subs hs hspan _
    exact (ih s s' hs hspan).imp fun _ => .inl
  | simpleOperand _ _ ihb ihsubs =>
    intro s s' s'' subs hs hspan hsubs
    obtain ⟨m, hks, hls⟩ := Tokens.spans_append.1 hspan
    obtain ⟨subs', hsubs'⟩ := ihsubs _ _ _ _ (hs.of_spans hks) hls hsubs
    obtain ⟨b, s₁, subs₁, hb, hsubs₁⟩ := ihb _ _ _ _ hs hks hsubs'
    exact ⟨_, .inr (.term hb hsubs₁)⟩
  | noSubscript =>
    rintro s _ s'' subs hs rfl hsubs
    exact ⟨subs, hsubs⟩
  | subscript _ _ ihl ihsubs =>
    rintro _ s' s'' subs hs ⟨c, t, rest, rfl, ht, hspan⟩ hsubs
    obtain ⟨_, hks, c', u, m, rfl, hu, hls⟩ := Tokens.spans_append.1 hspan
    obtain ⟨es, hes⟩ := (ihl _ _ _ _ hs.2 hks).1 .index rfl hu
    obtain ⟨subs', hsubs'⟩ := ihsubs _ _ _ _ (hs.2.of_spans hks).2 hls hsubs
    exact ⟨_, .subscript ht hes hsubs'⟩
  | unary hk _ ih =>
    rintro _ s' s'' subs hs ⟨c, t, rest, rfl, rfl, hspan⟩ hsubs
    obtain ⟨op, hop⟩ := mem_unaryOperators.1 hk
    obtain ⟨a, ha | ha⟩ := ih _ _ _ _ hs.2 hspan hsubs
    · exact ⟨_, s', subs, .unary hop ha, hsubs⟩
    · exact ⟨_, s'', [], .unary hop ha, hsubs.ready_of_subscripts.reads⟩
  | group _ ih =>
    rintro _ s' s'' subs hs ⟨c, t, rest, rfl, ht, hspan⟩ hsubs
    obtain ⟨_, hks, c', u, _, rfl, hu, rfl⟩ := Tokens.spans_append.1 hspan
    obtain ⟨a, ha⟩ := Symbol.Read.alone ih hs.2 hks ⟨u, rfl, by simp [hu]⟩
    exact ⟨_, _, subs, .group ht ha hu, hsubs⟩
  | name =>
    rintro _ s' s'' subs hs ⟨c, t, rest, rfl, ht, rfl⟩ hsubs
    exact ⟨_, _, subs, .name ht, hsubs⟩
  | literal _ ih =>
    intro s s' s'' subs hs hspan hsubs
    obtain ⟨e, he⟩ := ih s s' hs hspan
    exact ⟨e, s', subs, he, hsubs⟩
  | scalar hk =>
    rintro _ s' hs ⟨c, t, rest, rfl, rfl, rfl⟩
    obtain ⟨v, hv⟩ := hs.1.literal
    exact ⟨_, .literal hk hv⟩
  | arrayLiteral _ ih => exact ih
  | mapLiteral _ ih => exact ih
  | array _ ih =>
    rintro _ s' hs ⟨c, t, rest, rfl, ht, hspan⟩
    obtain ⟨_, hks, c', u, _, rfl, hu, rfl⟩ := Tokens.spans_append.1 hspan
    obtain ⟨es, hes⟩ := (ih _ _ _ _ hs.2 hks).1 .element rfl hu
    exact ⟨_, .array ht hes⟩
  | element _ ih =>
    intro s s' hs hspan hc
    obtain ⟨e, he⟩ := Symbol.Read.alone ih hs hspan hc
    obtain ⟨t, ht, hk⟩ := hc.ne_dots
    exact ⟨e, .item he ht fun _ => hk⟩
  | elementRange _ _ ih ih' =>
    intro s s' hs hspan hc
    obtain ⟨e, he⟩ := Symbol.Read.range ih ih' hs hspan hc
    obtain ⟨t, ht, hk⟩ := hc.ne_dots
    exact ⟨e, .item he ht fun _ => hk⟩
  | map _ ih =>
    rintro _ s' hs ⟨c, t, rest, rfl, ht, hspan⟩
    obtain ⟨_, hks, c', u, _, rfl, hu, rfl⟩ := Tokens.spans_append.1 hspan
    obtain ⟨es, hes⟩ := (ih _ _ _ _ hs.2 hks).2 rfl hu
    exact ⟨_, .mapping ht hes⟩
  | entry hk _ ih =>
    rintro _ s' hs ⟨c₁, key, _, rfl, rfl, c₂, colon, s₁, rfl, hcolon, hspan⟩ hc
    obtain ⟨e, he⟩ := Symbol.Read.alone ih hs.2.2 hspan hc
    exact ⟨c₁, c₂, key, colon, s₁, e, rfl, hk, hcolon, he⟩
  | switch _ ih =>
    rintro _ s' hs ⟨c, t, rest, rfl, ht, hspan⟩
    obtain ⟨_, hks, c', u, _, rfl, hu, rfl⟩ := Tokens.spans_append.1 hspan
    obtain ⟨es, hes⟩ := (ih _ _ _ _ hs.2 hks).1 .case rfl hu
    exact ⟨_, .switch ht hes⟩
  | index _ ih =>
    intro s s' hs hspan hc
    obtain ⟨e, he⟩ := Symbol.Read.alone ih hs hspan hc
    obtain ⟨t, ht, hk⟩ := hc.ne_dots
    exact ⟨e, .item he ht fun _ => hk⟩
  | startingAt _ ih =>
    intro s s' hs hspan hc
    obtain ⟨_, hks, c, t, _, rfl, ht, rfl⟩ := Tokens.spans_append.1 hspan
    obtain ⟨e, he⟩ := ih _ _ _ [] hs hks ⟨t, rfl, by simp [ht]⟩ (.noOperator ⟨t, rfl, .inr ⟨ht, hc.not_term⟩⟩)
    exact ⟨_, .startingAt he ht⟩
  | endingAt _ ih =>
    rintro _ s' hs ⟨c, t, rest, rfl, ht, hspan⟩ hc
    obtain ⟨e, he⟩ := Symbol.Read.alone ih hs.2 hspan hc
    exact ⟨_, .endingAt ht he⟩
  | indexRange _ _ ih ih' =>
    intro s s' hs hspan hc
    obtain ⟨e, he⟩ := Symbol.Read.range ih ih' hs hspan hc
    obtain ⟨t, ht, hk⟩ := hc.ne_dots
    exact ⟨e, .item he ht fun _ => hk⟩
  | empty =>
    rintro _ c t s' hs rfl
    exact ⟨fun kind _ hk => ⟨_, .emptyList hk⟩, fun _ hk => ⟨_, .emptyMap hk⟩⟩
  | list _ ih =>
    intro s c t s' hs hspan
    obtain ⟨hitems, hentries⟩ := ih s c t s' hs hspan
    exact ⟨fun kind hx hk => (hitems kind hx hk).imp fun _ => .list,
      fun hx hk => (hentries hx hk).elim fun _ he => ⟨_, .map he⟩⟩
  | single _ ih =>
    intro s c t s' hs hspan
    constructor
    · rintro kind rfl hk
      obtain ⟨e, he⟩ := Symbol.Read.item ih hs hspan (Tokens.closes_of_close hk)
      exact ⟨_, .lastItem he hk⟩
    · rintro rfl hk
      obtain ⟨c₁, c₂, key, colon, s₁, e, rfl, hkey, hcolon, he⟩ := ih _ _ hs hspan ⟨t, rfl, by simp [hk]⟩
      exact ⟨_, .lastEntry hkey hcolon he hk⟩
  | commas _ _ ih ihs =>
    intro s c t s' hs hspan
    obtain ⟨_, hks, c', u, m, rfl, hu, hls⟩ := Tokens.spans_append.1 hspan
    have hm : (Tokens.token c' u m).Closes := ⟨u, rfl, by simp [hu]⟩
    obtain ⟨hitems, hentries⟩ := ihs _ _ _ _ (hs.of_spans hks).2 hls
    constructor
    · rintro kind rfl hk
      obtain ⟨e, he⟩ := Symbol.Read.item ih hs hks hm
      obtain ⟨es, hes⟩ := hitems kind rfl hk
      exact ⟨_, .items he hu hes⟩
    · rintro rfl hk
      obtain ⟨c₁, c₂, key, colon, s₁, e, rfl, hkey, hcolon, he⟩ := ih _ _ hs hks hm
      obtain ⟨es, hes⟩ := hentries rfl hk
      exact ⟨_, .entries hkey hcolon he hu hes⟩

end Grammar

/-! ## Whole texts -/

namespace Tokens

variable {ks : List Token.Kind} {s s' : Tokens} {t : Token}

/-- Without an error the tokens of a source go on up to the end of the input. -/
theorem Wf.spans_toList : ∀ {s : Tokens}, s.Wf → s.toList.2 = none → ∃ ks s' t,
    Spans Token.kind ks s s' ∧ s'.head = .ok t ∧ t.kind = .endOfInput
  | .ending _ (.ok t) _, hs, _ => ⟨[], _, t, rfl, rfl, hs⟩
  | .ending _ (.error _) _, _, h => nomatch h
  | .token _ _ _, hs, h =>
    let ⟨_, s', t, hspan, ht⟩ := spans_toList hs.2 h
    ⟨_, s', t, hspan.cons, ht⟩

/-- What stands before the end of the input is everything but that. -/
theorem Wf.toList_of_spans (hs : s.Wf) (h : Spans Token.kind ks s s') (ht : s'.head = .ok t)
    (hk : t.kind = .endOfInput) : s.toList.1.map Token.kind = ks ++ [.endOfInput] := by
  have hs' := hs.of_spans h
  rw [h.toList.1, ← hk]
  cases s' with
  | token =>
    cases ht
    exact absurd hk hs'.1.kind_ne
  | ending =>
    cases ht
    rfl

end Tokens

/-- A text that falls into tokens is an expression if and only if their kinds up to the end of the input
are derivable from the start symbol. -/
theorem Expr.parse_iff_derives {text : String} (h : (Tokens.ofText text).toList.2 = none) :
    (∃ e, Expr.parse text = .ok e) ↔
      ∃ ks, (Tokens.ofText text).toList.1.map Token.kind = ks ++ [.endOfInput] ∧ Derives .expression ks := by
  have hs := Tokens.wf_ofText text
  constructor
  · rintro ⟨e, he⟩
    obtain ⟨s', t, hread, ht, hk⟩ := Expr.parse_iff.1 he
    obtain ⟨ks, hspan, hd⟩ := hread.derives
    exact ⟨ks, hs.toList_of_spans hspan ht hk, hd⟩
  · rintro ⟨ks, hks, hd⟩
    obtain ⟨ls, s', t, hspan, ht, hk⟩ := hs.spans_toList h
    obtain rfl : ls = ks := List.append_cancel_right ((hs.toList_of_spans hspan ht hk).symm.trans hks)
    obtain ⟨e, he⟩ := Symbol.Read.alone hd.read hs hspan ⟨t, ht, by simp [hk]⟩
    exact ⟨e, Expr.parse_iff.2 ⟨s', t, he, ht, hk⟩⟩

theorem Expr.parse_iff_derives_open_range : (Tokens.ofText "a[b..]").toList.2 = none ∧
    ((∃ e, Expr.parse "a[b..]" = .ok e) ↔
      ∃ ks, (Tokens.ofText "a[b..]").toList.1.map Token.kind = ks ++ [.endOfInput] ∧ Derives .expression ks) :=
  have h : (Tokens.ofText "a[b..]").toList.2 = none := by decide +kernel
  ⟨h, Expr.parse_iff_derives h⟩

end ExprLang
