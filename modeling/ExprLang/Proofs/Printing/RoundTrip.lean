import ExprLang.Proofs.Number.Numerals
import ExprLang.Proofs.Parser.Exact
import ExprLang.Proofs.Printing.Again

/-!
# Printing and reading again

* `readInvariant_leaf`: the leaves of a tree that was read are names and literals as a text has them.
* `Number.front_of_readsBack`: a number that its text shows is read back wherever it is printed.
* `Expr.parse_text`: the text of a tree that was read is read as an equal tree.
-/

namespace ExprLang

open Lexeme

/-! ## Leaves of a source -/

/-- Values that literals stand for, and names. -/
def Expr.Leaf : Expr → Prop
  | .literal _ v => (∃ s, v = .string s) ∨ (∃ x, v = .number x) ∨ (∃ b, v = .boolean b) ∨ v = .null
  | .var _ name => (⟨.name, name.toList⟩ : Lexeme).Firm
  | _ => True

theorem Token.literal_leaf {t : Token} {v : Value} (h : t.literal = .ok v) :
    (∃ s, v = .string s) ∨ (∃ x, v = .number x) ∨ (∃ b, v = .boolean b) ∨ v = .null := by
  unfold Token.literal at h
  split at h
  · cases h
    exact .inl ⟨_, rfl⟩
  · cases hx : t.number with
    | error e => rw [hx] at h; cases h
    | ok x =>
      rw [hx] at h
      cases h
      exact .inr (.inl ⟨x, rfl⟩)
  · cases h
    exact .inr (.inr (.inl ⟨_, rfl⟩))
  · cases h
    exact .inr (.inr (.inr rfl))

/-- A name is read back before everything that may follow it. -/
theorem firm_of_front {cs rest : List Char} {l : Lexeme} (h : front cs = .lexeme l rest) (hk : l.kind = .name) :
    l.Firm := by
  obtain ⟨c, r, rfl, ⟨_, _, _, rfl⟩ | ⟨_, _, _, hn⟩ | ⟨hw, rfl, _⟩ | ⟨hs, _⟩⟩ := front_cases h
  · cases hk
  · rw [hn] at hk
    cases hk
  · exact firm_of_word hw
  · have hsigns : ∀ x ∈ signs, x.2 ≠ .name := by decide
    exact absurd hk (hsigns _ (sign?_kind hs))

theorem Token.Genuine.firm_name {t : Token} (h : t.Genuine) (hk : t.kind = .name) :
    (⟨.name, t.word.toList⟩ : Lexeme).Firm := by
  obtain ⟨l, cs, rest, hl, hkind, hdata⟩ := h
  rw [hk] at hkind
  have hword : t.word.toList = l.text := by
    simp [Token.word, hk, hdata, Lexeme.data, ← hkind]
  rw [hword, hkind]
  exact firm_of_front hl hkind.symm

theorem readInvariant_leaf : ReadInvariant Expr.Leaf fun _ _ => True where
  literal := Token.literal_leaf
  name := Token.Genuine.firm_name
  array _ _ := trivial
  map _ _ := trivial
  unary _ _ _ := trivial
  subscript _ _ _ := trivial
  switch _ _ := trivial
  binary _ _ _ _ := Iff.rfl
  sign _ _ := trivial

/-! ## Numbers -/

/-- Whether the text of a number is one number token, with an equal number. -/
def Number.readsBack (x : Float) : Bool :=
  match (Tokens.ofText (Number.text x)).toList with
  | ([t, _], none) => t.kind == .number && (match t.number with
    | .ok y => y == x
    | .error _ => false)
  | _ => false

theorem Number.readsBack_iff {x : Float} : readsBack x = true ↔ ∃ t u,
    (Tokens.ofText (Number.text x)).toList = ([t, u], none) ∧ t.kind = .number ∧ ∃ y, t.number = .ok y ∧ (y == x) = true := by
  unfold readsBack
  constructor
  · intro h
    split at h
    · next t u htokens =>
      obtain ⟨hk, hx⟩ := Bool.and_eq_true_iff.1 h
      cases hy : t.number with
      | error e => rw [hy] at hx; cases hx
      | ok y =>
        rw [hy] at hx
        exact ⟨t, u, htokens, eq_of_beq hk, y, hy, hx⟩
    · cases h
  · rintro ⟨t, u, htokens, hk, y, hy, hxy⟩
    rw [htokens]
    simp [hk, hy, hxy]

theorem Lexeme.isPlain_of_digit {c : Char} (h : c.isDigit = true) : isPlain c = true := isPlain_of_opens (opens_of_digit h)

/-- The text of a number has no gap in it. -/
theorem Number.text_plain (x : Float) : ∀ c ∈ (Number.text x).toList, isPlain c = true := by
  have hsign : ∀ s, ∀ c ∈ (signText s).toList, isPlain c = true := by
    intro s c hc
    cases s with
    | positive => cases hc
    | negative =>
      obtain rfl : c = '-' := by simpa [signText] using hc
      rfl
  have hname : ∀ body ∈ names, body.all isPlain = true := by decide
  obtain ⟨s, body, htext, hbody⟩ := text_parts x
  rw [htext]
  refine List.forall_mem_append.2 ⟨hsign s, fun c hc => ?_⟩
  rcases hbody with hbody | hbody
  · rcases hbody.chars c hc with hdigit | rfl
    · exact isPlain_of_digit hdigit
    · rfl
  · exact List.all_eq_true.1 (hname body hbody) c hc

theorem Lexeme.gap_of_all_plain {cs : List Char} (h : ∀ c ∈ cs, isPlain c = true) : (gap cs).2 = cs := by
  cases cs with
  | nil => rfl
  | cons c r => exact gap_of_plain (h c List.mem_cons_self)

theorem Tokens.toList_ne_nil : ∀ {s : Tokens}, s.toList.2 = none → s.toList.1 ≠ []
  | .token _ _ _, _ => List.cons_ne_nil _ _
  | .ending _ (.ok _) _, _ => List.cons_ne_nil _ _
  | .ending _ (.error _) _, h => nomatch h

/-- Where the end of the input is the only token, nothing but a gap is left. -/
theorem Tokens.gap_of_toList {c : Cursor} {u : Token} (h : (read c).toList = ([u], none)) : (gap c.rest).2 = [] := by
  cases hf : Lexeme.front c.skipGap.rest with
  | ended => exact Lexeme.eq_nil_of_front hf
  | lexeme l rest =>
    rw [read_lexeme hf, toList] at h
    have h₁ := (Prod.ext_iff.1 h).1
    have h₂ := (Prod.ext_iff.1 h).2
    exact absurd (List.tail_eq_of_cons_eq h₁) (toList_ne_nil h₂)
  | fault f =>
    rw [read_fault hf] at h
    cases (Prod.ext_iff.1 h).1

/-- Without gaps in its text, a number that is alone in it is all of it. -/
theorem Number.front_of_readsBack {x : Float} (h : readsBack x = true) : front (Number.text x).toList =
    .lexeme ⟨.number, (Number.text x).toList⟩ [] ∧
      ∃ y, Numeral.value? (Number.text x).toList = some y ∧ (y == x) = true := by
  obtain ⟨t, u, htokens, hk, y, hy, hxy⟩ := readsBack_iff.1 h
  have hplain := Number.text_plain x
  have hskip : Lexeme.front (Cursor.start (Number.text x) .start).skipGap.rest = Lexeme.front (Number.text x).toList :=
    congrArg Lexeme.front (Lexeme.gap_of_all_plain hplain)
  cases hf : Lexeme.front (Number.text x).toList with
  | ended =>
    rw [Tokens.ofText, Tokens.read_ended (hskip.trans hf)] at htokens
    cases (Prod.ext_iff.1 htokens).1
  | fault f =>
    rw [Tokens.ofText, Tokens.read_fault (hskip.trans hf)] at htokens
    cases (Prod.ext_iff.1 htokens).1
  | lexeme l rest =>
    rw [Tokens.ofText, Tokens.read_lexeme (hskip.trans hf), Tokens.toList] at htokens
    obtain ⟨hts, herr⟩ := Prod.ext_iff.1 htokens
    have hfirst := List.head_eq_of_cons_eq hts
    have hend := Tokens.gap_of_toList (Prod.ext (List.tail_eq_of_cons_eq hts) herr)
    obtain ⟨_, happend⟩ := Lexeme.front_lexeme hf
    have hrest : rest = [] := by
      have h := Lexeme.gap_of_all_plain fun c hc => hplain c (by rw [← happend]; exact List.mem_append_right _ hc)
      exact h.symm.trans hend
    have hkind : l.kind = .number := by rw [← hk, ← hfirst]; rfl
    have htext : l.text = (Number.text x).toList := by rw [← happend, hrest, List.append_nil]
    have hdata : t.data = (Number.text x).toList := by
      rw [← hfirst, ← htext]
      simp [Cursor.token, Lexeme.data, hkind]
    have hl : l = ⟨.number, (Number.text x).toList⟩ := by rw [← hkind, ← htext]
    refine ⟨by rw [hl, hrest], y, ?_, hxy⟩
    rw [Token.number, hdata] at hy
    cases hv : Numeral.value? (Number.text x).toList with
    | none => rw [hv] at hy; cases hy
    | some z =>
      rw [hv] at hy
      cases hy
      rfl

/-! ## Leaves that are read back -/

section

variable {t : Token}

theorem Token.literal_string {s : String} (hk : t.kind = .string)
    (hd : t.data = (⟨.string, (Text.quote s).toList⟩ : Lexeme).data) : t.literal = .ok (.string s) := by
  simp only [literal, hk, word_of_quote hk hd]

theorem Token.literal_number {x : Float} (hk : t.kind = .number) (hx : Numeral.value? t.data = some x) :
    t.literal = .ok (.number x) := by
  simp only [literal, hk, number, hx]
  rfl

theorem Token.literal_boolean {b : Bool} (hk : t.kind = .boolean) (hd : t.data = (Value.boolean b).lexeme.data) :
    t.literal = .ok (.boolean b) := by
  simp only [literal, hk, hd]
  cases b <;> rfl

theorem Token.literal_null (hk : t.kind = .null) : t.literal = .ok .null := by simp only [literal, hk]

end

theorem Value.string_readsBack (s : String) : (Value.string s).lexeme.Firm ∧ (Value.string s).Legible :=
  ⟨firm_quote s, fun _ hk hd => ⟨.string s, Token.literal_string hk hd, beq_self_eq_true s⟩⟩

theorem Value.number_readsBack {x : Float} (h : Number.readsBack x = true) :
    (Value.number x).lexeme.Firm ∧ (Value.number x).Legible := by
  obtain ⟨hfront, y, hy, hxy⟩ := Number.front_of_readsBack h
  refine ⟨firm_number hfront, fun t hk hd => ⟨.number y, ?_, ?_⟩⟩
  · have hd : t.data = (Number.text x).toList := hd
    exact Token.literal_number hk (by rw [hd, hy])
  · show (y == x || _) = true
    rw [hxy, Bool.true_or]

theorem Value.boolean_readsBack (b : Bool) : (Value.boolean b).lexeme.Firm ∧ (Value.boolean b).Legible := by
  refine ⟨?_, fun t hk hd => ⟨.boolean b, Token.literal_boolean hk hd, beq_self_eq_true b⟩⟩
  cases b
  · exact firm_word (c := 'f') (by decide) (List.all_eq_true.1 (rfl : ['f', 'a', 'l', 's', 'e'].all isWordPart = true))
  · exact firm_word (c := 't') (by decide) (List.all_eq_true.1 (rfl : ['t', 'r', 'u', 'e'].all isWordPart = true))

theorem Value.null_readsBack : Value.null.lexeme.Firm ∧ Value.null.Legible :=
  ⟨firm_word (c := 'n') (by decide) (List.all_eq_true.1 (rfl : ['n', 'u', 'l', 'l'].all isWordPart = true)),
    fun _ hk _ => ⟨.null, Token.literal_null hk, rfl⟩⟩

/-- A literal is read back before everything, if it is a number as far as its text shows it. -/
theorem Expr.Leaf.readsBack {l : Option Location} {v : Value} (h : (Expr.literal l v).Leaf)
    (hx : ∀ x, v.content = .number x → Number.readsBack x = true) : v.lexeme.Firm ∧ v.Legible := by
  rcases h with ⟨s, rfl⟩ | ⟨x, rfl⟩ | ⟨b, rfl⟩ | rfl
  · exact Value.string_readsBack s
  · exact Value.number_readsBack (hx x rfl)
  · exact Value.boolean_readsBack b
  · exact Value.null_readsBack

/-! ## Whole texts -/

/-- A text that falls into lexemes is read as their tokens. -/
theorem Tokens.shows_of_scans : ∀ {ls : List Lexeme} {c : Cursor} {r : List Char}, Scans c.rest ls r →
    ∃ c', c'.rest = r ∧ Shows ls (read c) (read c')
  | [], c, _, h => ⟨c, h, rfl⟩
  | l :: ls, c, r, ⟨rest, hl, h⟩ => by
    obtain ⟨c', hc', hshows⟩ := shows_of_scans (c := c.skipGap.past l.text rest) h
    refine ⟨c', hc', ?_⟩
    rw [read_lexeme hl]
    exact shows_cons.2 ⟨_, _, _, rfl, ⟨rfl, rfl⟩, hshows⟩

/-- A text that falls into words is the expression that is read off them. -/
theorem Expr.parse_of_scans {α : Type} {R : Expr → α → Prop} {text : String} {ws : List Lexeme} {a : α}
    (hscans : Scans text.toList ws []) (h : ReadOff .expression R ws a) : ∃ u, parse text = .ok u ∧ R u a := by
  obtain ⟨c, hc, hshows⟩ := @Tokens.shows_of_scans _ (Cursor.start text .start) _ hscans
  have hend : Tokens.read c = .ending c (.ok c.skipGap.endToken) c.skipGap :=
    Tokens.read_gap (by rw [hc]; rfl)
  have hcloses : (Tokens.read c).Closes := ⟨_, by rw [hend]; rfl, by simp [Cursor.endToken]⟩
  obtain ⟨u, hu, heq⟩ := h _ _ hshows hcloses
  exact ⟨u, parse_iff.2 ⟨_, _, hu, by rw [hend]; rfl, rfl⟩, heq⟩

namespace Expr

/-- Whether open ranges stand in subscripts only, and in none of several indices. -/
def rangesInSubscripts (t : Expr) : Bool := t.nodes.all fun
  | array _ items => items.all fun e => !e.isOpenRange
  | _ => true

/-- Whether the text of every number literal shows its number. -/
def numbersReadBack (t : Expr) : Bool := t.nodes.all fun
  | literal _ ⟨_, .number x⟩ => Number.readsBack x
  | _ => true

/-- The text of a tree that was read from a text is read as an equal tree. -/
theorem parse_text {text : String} {t : Expr} (h : parse text = .ok t) (hranges : t.rangesInSubscripts = true)
    (hnumbers : t.numbersReadBack = true) : ∃ u, parse t.text = .ok u ∧ (u == t) = true := by
  have hranges := List.all_eq_true.1 hranges
  have hnumbers := List.all_eq_true.1 hnumbers
  obtain ⟨s', _, hread, _, _⟩ := parse_iff.1 h
  have hleaf : t.Each Leaf := readInvariant_leaf.each hread (Tokens.wf_ofText text)
  have hliteral : ∀ l v, literal l v ∈ t.nodes → v.lexeme.Firm ∧ v.Legible := by
    rintro l ⟨m, content⟩ hn
    refine Leaf.readsBack (hleaf _ hn) fun x hx => ?_
    cases hx
    exact hnumbers _ hn
  have hprintable : t.Each Printable := fun n hn => by
    cases n with
    | literal l v => exact (hliteral l v hn).1
    | var l name => exact hleaf _ hn
    | _ => trivial
  have hfaithful : t.Each Faithful := fun n hn => by
    cases n with
    | literal l v => exact (hliteral l v hn).2
    | array l items => exact fun e he => by simpa using List.all_eq_true.1 (hranges _ hn) e he
    | _ => trivial
  have hscans : Scans t.text.toList t.words [] := by
    simpa using (writes hprintable).scans (.inl rfl : Delimits [])
  have hwords : ReadOff .expression (fun u e => (u == e) = true) t.words t := fun _ _ hs hc =>
    hread.again hfaithful _ _ hs hc.stops hc.ready
  exact parse_of_scans hscans hwords

theorem parse_text_sample : ∃ t, parse "-a[1.5..][b, 2] * \x7bk: null\x7d" = .ok t ∧ t.rangesInSubscripts = true ∧
    t.numbersReadBack = true ∧ ∃ u, parse t.text = .ok u ∧ (u == t) = true := by
  have hsome : (parse "-a[1.5..][b, 2] * \x7bk: null\x7d").toOption.any
      (fun t => t.rangesInSubscripts && t.numbersReadBack) = true := by decide +kernel
  cases ht : parse "-a[1.5..][b, 2] * \x7bk: null\x7d" with
  | error e =>
    rw [ht] at hsome
    cases hsome
  | ok t =>
    rw [ht] at hsome
    obtain ⟨hranges, hnumbers⟩ := Bool.and_eq_true_iff.1 hsome
    exact ⟨t, rfl, hranges, hnumbers, parse_text ht hranges hnumbers⟩

end Expr

end ExprLang
