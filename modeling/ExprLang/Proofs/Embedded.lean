import ExprLang.Proofs.Grammar
import ExprLang.Proofs.Respaced

/-!
# Expressions in front of foreign text

A lenient reader stops behind the first complete expression and leaves the rest to another grammar.
That the expression is complete it sees from the token behind it, so there has to be one.

* `Reads.shut`: in a complete expression no `..` stands right before the end, so the second token of
  lookahead never decides about foreign text.
* `Reads.before_foreign`: an expression is read in front of a token that none goes on with.
* `Reads.not_before_fault`: nothing is read in front of a place where there is no token.
* `Expr.parseFirst_embedded`: so an expression is read in front of foreign text if and only if that
  begins with a token or is empty.
-/

namespace ExprLang

/-! ## Foreign text -/

namespace Lexeme

variable {cs rest : List Char} {l : Lexeme}

/-- Whether neither a gap nor a comment, a binary operator or a subscript begins with a character. -/
def isForeign (c : Char) : Bool := isPlain c && "+-*%&|^<>=!.[".toList.all (· != c)

/-- No expression goes on with a lexeme of foreign text. -/
theorem front_foreign (hcs : ∀ c ∈ cs.head?, isForeign c = true) (h : front cs = .lexeme l rest) :
    BinaryOp.ofKind? l.kind = none ∧ l.kind ≠ .openBracket := by
  obtain ⟨c, r, rfl, ⟨_, _, _, rfl⟩ | ⟨_, _, _, hk⟩ | ⟨_, rfl, _⟩ | ⟨hs, _⟩⟩ := front_cases h
  · exact ⟨rfl, Token.Kind.noConfusion⟩
  · rw [hk]
    exact ⟨rfl, Token.Kind.noConfusion⟩
  · have hwords : ∀ k ∈ [Token.Kind.boolean, .null, .name], BinaryOp.ofKind? k = none ∧ k ≠ .openBracket := by decide
    exact hwords _ (wordKind_mem _)
  · have hsigns : ∀ s ∈ signs, s.1.head?.any isForeign = true →
        BinaryOp.ofKind? s.2 = none ∧ s.2 ≠ .openBracket := by decide
    refine hsigns _ (sign?_kind hs) ?_
    obtain ⟨hne, hstart⟩ := sign?_text hs
    obtain ⟨d, text, htext⟩ := List.exists_cons_of_ne_nil hne
    rw [htext] at hstart ⊢
    obtain ⟨rfl, _⟩ := List.cons_prefix_cons.1 hstart
    exact hcs d rfl

/-- A new line before foreign text is all that is skipped. -/
theorem gap_foreign (hcs : ∀ c ∈ cs.head?, isForeign c = true) : (gap ('\n' :: cs)).2 = cs := by
  rw [gap_cons_space rfl]
  cases cs with
  | nil => rfl
  | cons c r =>
    have hc : isForeign c = true := hcs c rfl
    simp only [isForeign, Bool.and_eq_true] at hc
    exact gap_of_plain hc.1

end Lexeme

namespace Tokens

variable {cs : List Char} {s w : Tokens}

/-- The next token is there and no expression goes on with it. -/
def Foreign (w : Tokens) : Prop := ∃ t, w.head = .ok t ∧ BinaryOp.ofKind? t.kind = none ∧ t.kind ≠ .openBracket

/-- Where foreign text begins there is a token that no expression goes on with, or else a fault. -/
theorem At.foreign (hcs : ∀ c ∈ cs.head?, Lexeme.isForeign c = true) (h : At ('\n' :: cs) w) :
    w.Foreign ∧ (∀ f, Lexeme.front cs ≠ .fault f) ∨
      (∃ here e stop, w = .ending here (.error e) stop) ∧ ∃ f, Lexeme.front cs = .fault f := by
  obtain ⟨d, rfl, hgap⟩ := h
  rw [Lexeme.gap_foreign hcs] at hgap
  have hrest : d.skipGap.rest = cs := hgap
  cases hfront : Lexeme.front cs with
  | ended =>
    rw [← hrest] at hfront
    rw [read_ended hfront]
    exact .inl ⟨⟨_, rfl, rfl, Token.Kind.noConfusion⟩, fun _ => Lexeme.Front.noConfusion⟩
  | lexeme l rest =>
    have hforeign := Lexeme.front_foreign hcs hfront
    rw [← hrest] at hfront
    rw [read_lexeme hfront]
    exact .inl ⟨⟨_, rfl, hforeign⟩, fun _ => Lexeme.Front.noConfusion⟩
  | fault f =>
    rw [← hrest] at hfront
    rw [read_fault hfront]
    exact .inr ⟨⟨_, _, _, rfl⟩, f, rfl⟩

/-! ## No open range at the end -/

/-- Something other than the end of the input is ahead. -/
def GoesOn (s : Tokens) : Prop := ∃ t, s.head = .ok t ∧ t.kind ≠ .endOfInput

/-- Behind every `..` the source goes on. -/
def Shut : Tokens → Prop
  | token _ t rest => (t.kind = .dots → rest.GoesOn) ∧ rest.Shut
  | ending _ _ _ => True

theorem Shut.cons {c : Cursor} {t : Token} {ks : List Token.Kind} (hs : s.Shut) (hk : t.kind ∈ ks)
    (hks : Token.Kind.dots ∉ ks) : (token c t s).Shut :=
  ⟨fun hdots => absurd (hdots ▸ hk) hks, hs⟩

theorem Shut.dots {c : Cursor} {t : Token} (hs : s.Shut) (hgoes : s.GoesOn) : (token c t s).Shut := ⟨fun _ => hgoes, hs⟩

end Tokens

/-- What begins with a term does not end there. -/
theorem Tokens.StartsIn.goesOn {s : Tokens} (h : s.StartsIn Token.Kind.terms) : s.GoesOn := by
  obtain ⟨t, ht, hm⟩ := h
  exact ⟨t, ht, fun hk => by rw [hk] at hm; exact absurd hm (of_decide_eq_false rfl)⟩

/-- A phrase that may leave a range open is not at the end of its source. -/
def Phrase.Followed (s : Tokens) : Phrase → Prop
  | item _ _ => s.GoesOn
  | _ => True

/-- Where what follows a phrase has no open range at its end, neither has the whole. -/
theorem Reads.shut {p : Phrase} {s s' : Tokens} (h : Reads p s s') : s'.Shut → p.Followed s' → s.Shut := by
  -- a `..` is an operator before its term, or it is in an index, which a comma or a bracket follows
  induction h with
  | noOperator | noSubscript => exact fun hs _ => hs
  | expression _ _ ih ih' | term _ _ ih ih' => exact fun hs _ => ih (ih' hs trivial) trivial
  | operator _ hr _ ih ih' =>
    intro hs _
    exact (ih (ih' hs trivial) trivial).dots hr.starts.goesOn
  | switch hk _ ih => exact fun hs _ => (ih hs trivial).cons (List.mem_singleton.2 hk) (by decide)
  | subscript hk _ _ ih ih' => exact fun hs _ => (ih (ih' hs trivial) trivial).cons (List.mem_singleton.2 hk) (by decide)
  | unary hk _ ih =>
    have hsign := Parser.mem_simpleTerms.2 (.inl ⟨_, hk⟩)
    exact fun hs _ => (ih hs trivial).cons hsign (by decide)
  | group hk _ hclose ih =>
    intro hs _
    have hinside := ih (hs.cons (List.mem_singleton.2 hclose) (by decide)) trivial
    exact hinside.cons (List.mem_singleton.2 hk) (by decide)
  | name hk => exact fun hs _ => hs.cons (List.mem_singleton.2 hk) (by decide)
  | array hk _ ih | mapping hk _ ih => exact fun hs _ => (ih hs trivial).cons (List.mem_singleton.2 hk) (by decide)
  | literal hk => exact fun hs _ => hs.cons hk (by decide)
  | @emptyList _ _ kind _ hk => exact fun hs _ => hs.cons (List.mem_singleton.2 hk) (by cases kind <;> decide)
  | list _ ih | map _ ih => exact fun hs _ => ih hs trivial
  | @lastItem _ _ kind _ _ _ _ hk ih =>
    intro hs _
    refine ih (hs.cons (List.mem_singleton.2 hk) (by cases kind <;> decide)) ⟨_, rfl, ?_⟩
    rw [hk]
    cases kind <;> exact Token.Kind.noConfusion
  | items _ hk _ ih ih' =>
    intro hs _
    refine ih ((ih' hs trivial).cons (List.mem_singleton.2 hk) (by decide)) ⟨_, rfl, ?_⟩
    rw [hk]
    exact Token.Kind.noConfusion
  | item _ _ _ ih => exact fun hs _ => ih hs trivial
  | startingAt _ _ ih => exact fun hs hgoes => ih (hs.dots hgoes) trivial
  | endingAt _ he ih => exact fun hs _ => (ih hs trivial).dots he.starts.goesOn
  | emptyMap hk => exact fun hs _ => hs.cons (List.mem_singleton.2 hk) (by decide)
  | lastEntry hkey hcolon _ hk ih =>
    intro hs _
    have hvalue := ih (hs.cons (List.mem_singleton.2 hk) (by decide)) trivial
    exact (hvalue.cons (List.mem_singleton.2 hcolon) (by decide)).cons hkey (by decide)
  | entries hkey hcolon _ hk _ ih ih' =>
    intro hs _
    have hvalue := ih ((ih' hs trivial).cons (List.mem_singleton.2 hk) (by decide)) trivial
    exact (hvalue.cons (List.mem_singleton.2 hcolon) (by decide)).cons hkey (by decide)

/-! ## Reading in front of it -/

namespace Tokens

variable {near : Cursor → Cursor → Prop} {after : Tokens → Prop} {s w : Tokens}

theorem Foreign.stops (h : w.Foreign) : w.Stops :=
  let ⟨t, ht, hop, _⟩ := h
  ⟨t, ht, .inl hop⟩

theorem Foreign.ready (h : w.Foreign) : w.Ready :=
  let ⟨t, ht, _, hk⟩ := h
  ⟨t, ht, hk⟩

theorem Foreign.ne_dots (h : w.Foreign) : ∃ t, w.head = .ok t ∧ t.kind ≠ .dots := by
  obtain ⟨t, ht, hop, _⟩ := h
  exact ⟨t, ht, fun hk => by rw [hk] at hop; cases hop⟩

/-- Unless the first source ends, the next token of the second is of the same kind. -/
theorem Tracks.head_of_goesOn (h : Tracks near after s w) (hs : s.Wf) (hgoes : s.GoesOn) :
    ∃ t u, s.head = .ok t ∧ w.head = .ok u ∧ u.kind = t.kind := by
  obtain ⟨t, ht, hne⟩ := hgoes
  obtain ⟨c, htoken⟩ := hs.eq_token ht hne
  rw [htoken] at h ⊢
  obtain ⟨c', u, w', rfl, ⟨hk, _⟩, _⟩ := h.of_token
  exact ⟨t, u, rfl, rfl, hk⟩

/-- Sources are read alike up to foreign text, if the first has no open range at its end. -/
theorem Tracks.carries_foreign (hafter : ∀ w, after w → w.Foreign) :
    Carries fun s w => Tracks near after s w ∧ s.Wf ∧ s.Shut where
  token := by
    rintro c t s w ⟨h, hs, hshut⟩
    obtain ⟨c', u, w', rfl, hu, h⟩ := h.of_token
    exact ⟨c', u, w', rfl, hu, h, hs.2, hshut.2⟩
  stops := by
    rintro s w ⟨h, hs, hshut⟩ ⟨t, ht, hstop⟩
    cases h with
    | token _ hk _ h =>
      cases ht
      rcases hstop with hop | ⟨hdots, v, hv, hterm⟩
      · exact ⟨_, rfl, .inl (by rw [hk]; exact hop)⟩
      · obtain ⟨v', u, hv', hu, huk⟩ := h.head_of_goesOn hs.2 (hshut.1 hdots)
        cases hv.symm.trans hv'
        exact ⟨_, rfl, .inr ⟨hk.trans hdots, u, hu, by rw [huk]; exact hterm⟩⟩
    | ended _ _ hw => exact (hafter _ hw).stops
    | fault => cases ht
  ready := by
    rintro s w ⟨h, _, _⟩ ⟨t, ht, hne⟩
    cases h with
    | token _ hk _ _ =>
      cases ht
      exact ⟨_, rfl, by rw [hk]; exact hne⟩
    | ended _ _ hw => exact (hafter _ hw).ready
    | fault => cases ht
  ne_dots := by
    rintro s w ⟨h, _, _⟩ ⟨t, ht, hne⟩
    cases h with
    | token _ hk _ _ =>
      cases ht
      exact ⟨_, rfl, by rw [hk]; exact hne⟩
    | ended _ _ hw => exact (hafter _ hw).ne_dots
    | fault => cases ht

/-- Where the second source goes on with a fault, the first one tracks it up to there, if it has none itself. -/
theorem Tracks.back (hafter : ∀ w, after w → ∃ here e stop, w = .ending here (.error e) stop) (h : Tracks near after s w)
    (hs : s.toList.2 = none) : Tracks (fun _ _ => True) (fun _ => False) w s := by
  induction h with
  | token _ hk hd _ ih => exact .token trivial hk.symm hd.symm (ih hs)
  | ended _ _ hw =>
    obtain ⟨_, _, _, rfl⟩ := hafter _ hw
    exact .fault
  | fault => cases hs

/-- At its end a source is over. -/
theorem Wf.eq_ending (hs : s.Wf) {t : Token} (ht : s.head = .ok t) (hk : t.kind = .endOfInput) :
    ∃ here stop, s = .ending here (.ok t) stop := by
  cases s with
  | token =>
    cases ht
    exact absurd hk hs.1.kind_ne
  | ending here result stop =>
    cases ht
    exact ⟨here, stop, rfl⟩

end Tokens

section Embedded

variable {near : Cursor → Cursor → Prop} {after : Tokens → Prop} {s s' w : Tokens} {e : Expr} {t : Token}
  (h : Reads (.expression e) s s') (hs : s.Wf) (ht : s'.head = .ok t) (hk : t.kind = .endOfInput)
  (htracks : Tokens.Tracks near after s w)

include h hs ht hk htracks

/-- The expression that is a whole source is read in front of foreign tokens. -/
theorem Reads.before_foreign (hafter : ∀ w, after w → w.Foreign) :
    ∃ f w', Reads (.expression f) w w' ∧ f.unplaced = e.unplaced := by
  obtain ⟨_, _, rfl⟩ := (h.wf hs).eq_ending ht hk
  have hshut : s.Shut := h.shut trivial trivial
  obtain ⟨_, w', hreads, halike, _⟩ := h.carried (Tokens.Tracks.carries_foreign hafter) ⟨htracks, hs, hshut⟩
  cases halike with | @expression _ f hf =>
  exact ⟨f, w', hreads, hf⟩

/-- In front of a fault no expression is read at all: it would also be one in the first source, and that goes on to its
end. -/
theorem Reads.not_before_fault (hafter : ∀ w, after w → ∃ here e stop, w = .ending here (.error e) stop) (f : Expr)
    (w' : Tokens) : ¬ Reads (.expression f) w w' := by
  intro hf
  have hs' := h.wf hs
  obtain ⟨_, _, rfl⟩ := hs'.eq_ending ht hk
  obtain ⟨_, hspan, _⟩ := h.derives
  obtain ⟨_, s'', hback, halike, htracks'⟩ := hf.tracks (fun _ => False.elim) (htracks.back hafter hspan.toList.2)
  cases halike with | @expression _ g hg =>
  have hsame := ((Parser.expression_iff hs).2 h).symm.trans ((Parser.expression_iff hs).2 hback)
  cases hsame
  obtain ⟨u, hu, _⟩ := hf.stops
  cases htracks' with
  | ended _ _ hfalse => exact hfalse
  | fault => cases hu

end Embedded

/-! ## Texts -/

/-- The text of an expression in front of a new line and foreign text: where that is empty or begins with a token, the
expression is read and reading stops before it. Where no token can be read there, nothing is. -/
theorem Expr.parseFirst_embedded {text host : String} {e : Expr} (h : parse text = .ok e)
    (hhost : ∀ c ∈ host.toList.head?, Lexeme.isForeign c = true) :
    ((∀ f, Lexeme.front host.toList ≠ .fault f) →
        ∃ f, parseFirst (text ++ "\n" ++ host) .start = .ok f ∧ (f == e) = true) ∧
      ((∃ f, Lexeme.front host.toList = .fault f) →
        ∃ err, parseFirst (text ++ "\n" ++ host) .start = .error err) := by
  obtain ⟨s', t, hreads, ht, hk⟩ := parse_iff.1 h
  have hs := Tokens.wf_ofText text
  let d := Cursor.start (text ++ "\n" ++ host) .start
  have hrest : d.rest = text.toList ++ '\n' :: host.toList := by simp [d, Cursor.start]
  have htracks : Tokens.Tracks _ (Tokens.At ('\n' :: host.toList)) (Tokens.ofText text) (Tokens.read d) :=
    Tokens.tracks_continued (Lexeme.separates_newline _) (c := Cursor.start text .start) trivial hrest
  constructor
  · intro hfront
    have hafter : ∀ w, Tokens.At ('\n' :: host.toList) w → w.Foreign := fun w hw =>
      (hw.foreign hhost).elim And.left fun ⟨_, f, hf⟩ => absurd hf (hfront f)
    obtain ⟨f, w', hreads', hf⟩ := hreads.before_foreign hs ht hk htracks hafter
    have hread : read .lenient d = (.ok f, w'.cursor) := read_lenient_iff.2 ⟨w', hreads', rfl⟩
    exact ⟨f, congrArg Prod.fst hread, equals_of_unplaced_eq hf (keyed_of_parse h)⟩
  · rintro ⟨f, hf⟩
    have hafter : ∀ w, Tokens.At ('\n' :: host.toList) w → ∃ here e stop, w = .ending here (.error e) stop := fun w hw =>
      (hw.foreign hhost).elim (fun ⟨_, hno⟩ => absurd hf (hno f)) And.left
    cases hread : read .lenient d with
    | mk outcome k =>
      cases outcome with
      | error err => exact ⟨err, congrArg Prod.fst hread⟩
      | ok g =>
        obtain ⟨w', hg, _⟩ := read_lenient_iff.1 hread
        exact absurd hg (hreads.not_before_fault hs ht hk htracks hafter g w')

/-- An expression that ends in a bracket, in front of a word and in front of a character that begins no token. -/
theorem Expr.parseFirst_embedded_index : ∃ e, parse "x[1..]" = .ok e ∧
    (∃ f, parseFirst ("x[1..]" ++ "\n" ++ "then") .start = .ok f ∧ (f == e) = true) ∧
    ∃ err, parseFirst ("x[1..]" ++ "\n" ++ "# note") .start = .error err := by
  obtain ⟨e, he⟩ : ∃ e, parse "x[1..]" = .ok e := Except.exists_ok_of_isSome (by decide +kernel)
  have hword : ∀ f, Lexeme.front "then".toList ≠ .fault f := fun f => Lexeme.Front.noConfusion
  have hthen : ∀ c ∈ "then".toList.head?, Lexeme.isForeign c = true := (Option.all_eq_true _ _).1 (by decide)
  have hnote : ∀ c ∈ "# note".toList.head?, Lexeme.isForeign c = true := (Option.all_eq_true _ _).1 (by decide)
  exact ⟨e, he, (parseFirst_embedded he hthen).1 hword, (parseFirst_embedded he hnote).2 ⟨_, rfl⟩⟩

/-- So it is not read in front of every foreign text. -/
theorem Expr.parseFirst_embedded_hash : ¬ ∀ (text host : String) (e : Expr), parse text = .ok e →
    (∀ c ∈ host.toList.head?, Lexeme.isForeign c = true) →
    ∃ f, parseFirst (text ++ "\n" ++ host) .start = .ok f ∧ (f == e) = true := by
  intro h
  obtain ⟨e, he⟩ : ∃ e, parse "1" = .ok e := Except.exists_ok_of_isSome (by decide +kernel)
  obtain ⟨f, hf, _⟩ := h "1" "#" e he ((Option.all_eq_true _ _).1 (by decide))
  have hrefused : (parseFirst ("1" ++ "\n" ++ "#") .start).toOption.isNone = true := by decide +kernel
  rw [hf] at hrefused
  cases hrefused

end ExprLang
