import ExprLang.Proofs.Positions
import ExprLang.Proofs.Parser.Continued
import ExprLang.Proofs.Printing.Again

/-!
# Texts cut into lexemes

Reading a text token by token cuts it into lexemes, one for each token, with a gap before each of
them and after the last one: no character is lost, and none is read twice.

* `Lexeme.gap_isGap`: what is skipped is white space and comments; `Lexeme.IsGap.gap`: and a gap in
  front of anything else is skipped.
* `Tokens.exists_cut`: the tokens of a text and the pieces that it is cut into.
* `Cut.Holds.ordered`: no two tokens share a byte, and none is empty.
* `Scanner.run_cut`: a scanner that reads on comes to the end of its text or to an error.
-/

namespace ExprLang

namespace Lexeme

/-! ## Gaps -/

/-- White space and comments before `rest`. A comment runs up to the end of its line or of the text. -/
inductive IsGap (rest : List Char) : List Char → Prop
  | nil : IsGap rest []
  | space {c : Char} {g : List Char} : isGapSpace c = true → IsGap rest g → IsGap rest (c :: g)
  | comment {body g : List Char} : (∀ c ∈ body, endsComment c = false) →
      (∀ c ∈ (g ++ rest).head?, endsComment c = true) → IsGap rest g → IsGap rest ('/' :: '/' :: (body ++ g))

theorem isGapSpace_of_endsComment {c : Char} (h : endsComment c = true) : isGapSpace c = true := by
  simp only [endsComment, Bool.or_eq_true, beq_iff_eq] at h
  rcases h with rfl | rfl <;> rfl

/-- A gap, or else what is left of a comment and then a gap. -/
def IsGapFrom (rest : List Char) : Bool → List Char → Prop
  | false, g => IsGap rest g
  | true, g => ∃ body g', g = body ++ g' ∧ (∀ c ∈ body, endsComment c = false) ∧
      (∀ c ∈ (g' ++ rest).head?, endsComment c = true) ∧ IsGap rest g'

theorem gapFrom_isGap (inside : Bool) (cs : List Char) :
    IsGapFrom (gapFrom inside cs).2 inside (gapFrom inside cs).1 := by
  fun_induction gapFrom inside cs with
  | case1 inside =>
    cases inside with
    | false => exact .nil
    | true => exact ⟨[], [], rfl, by simp, by simp, .nil⟩
  | case2 c r ih =>
    cases hc : endsComment c with
    | true =>
      rw [hc] at ih
      refine ⟨[], _, rfl, by simp, ?_, .space (isGapSpace_of_endsComment hc) ih⟩
      rintro d ⟨⟩
      exact hc
    | false =>
      rw [hc] at ih
      obtain ⟨body, g, happ, hbody, hend, hgap⟩ := ih
      exact ⟨c :: body, g, congrArg (c :: ·) happ, List.forall_mem_cons.2 ⟨hc, hbody⟩, hend, hgap⟩
  | case3 r ih =>
    obtain ⟨body, g, happ, hbody, hend, hgap⟩ := ih
    rw [happ]
    exact .comment hbody hend hgap
  | case4 c r _ hspace ih => exact .space hspace ih
  | case5 => exact .nil

/-- What is skipped is a gap. -/
theorem gap_isGap (cs : List Char) : IsGap (gap cs).2 (gap cs).1 := gapFrom_isGap false cs

theorem gapFrom_body {body : List Char} (h : ∀ c ∈ body, endsComment c = false) (cs : List Char) :
    (gapFrom true (body ++ cs)).2 = (gapFrom true cs).2 := by
  induction body with
  | nil => rfl
  | cons c body ih =>
    obtain ⟨hc, hbody⟩ := List.forall_mem_cons.1 h
    rw [List.cons_append, gapFrom, hc]
    exact ih hbody

theorem gap_cons_space {c : Char} (h : isGapSpace c = true) (cs : List Char) : (gap (c :: cs)).2 = (gap cs).2 :=
  gap_spaces (List.forall_mem_singleton.2 h) cs

/-- A comment that is over, or that the text ends in, is no different from a gap. -/
theorem gapFrom_closed {cs : List Char} (h : ∀ c ∈ cs.head?, endsComment c = true) :
    (gapFrom true cs).2 = (gap cs).2 := by
  cases cs with
  | nil => rfl
  | cons c r =>
    have hc : endsComment c = true := h c rfl
    rw [gap_cons_space (isGapSpace_of_endsComment hc), gapFrom, hc]
    rfl

/-- A gap is skipped, and then what follows it is looked at. -/
theorem IsGap.gap {g rest : List Char} (h : IsGap rest g) : (Lexeme.gap (g ++ rest)).2 = (Lexeme.gap rest).2 := by
  induction h with
  | nil => rfl
  | space hc _ ih => rw [List.cons_append, gap_cons_space hc, ih]
  | @comment body g hbody hend _ ih =>
    have hskip : (Lexeme.gap ('/' :: '/' :: (body ++ (g ++ rest)))).2 = (gapFrom true (body ++ (g ++ rest))).2 := rfl
    rw [List.cons_append, List.cons_append, List.append_assoc, hskip, gapFrom_body hbody, gapFrom_closed hend, ih]

/-! ## Lexemes -/

/-- A text that is one lexeme from end to end. -/
def Whole (l : Lexeme) : Prop := front l.text = .lexeme l []

theorem number_self {c : Char} {r text rest : List Char} (hd : c.isDigit = true)
    (hn : number (c :: r) = (text, rest)) : number text = (text, []) := by
  obtain ⟨ds, f, x, hparts, hds, hf, hx⟩ := number_parts (r := r) hd
  have hnumber := number_append_of hds hf hx (r := []) rfl
  rw [hn] at hparts
  rw [List.append_nil, ← hparts] at hnumber
  exact hnumber

/-- A lexeme is found again in its own text. -/
theorem whole_of_front {cs rest : List Char} {l : Lexeme} (h : front cs = .lexeme l rest) : l.Whole := by
  obtain ⟨hne, happ⟩ := front_lexeme h
  obtain ⟨d, t, hdt⟩ := List.exists_cons_of_ne_nil hne
  obtain ⟨c, r, rfl, ⟨hc, body, hq, rfl⟩ | ⟨hd, hn, _, hk⟩ | ⟨hw, rfl, rfl⟩ | ⟨hs, _⟩⟩ := front_cases h
  · show front (c :: body) = _
    have hself := quoted_before hq []
    rw [List.append_nil] at hself
    rw [front, if_pos hc, hself]
  · rw [hdt, List.cons_append] at happ
    obtain rfl : d = c := (List.cons_eq_cons.1 happ).1
    have hquote : ¬ (d = '"' ∨ d = '\x27') := by rintro (rfl | rfl) <;> cases hd
    rw [Whole, hdt, front, if_neg hquote, if_pos hd, ← hdt, number_self hd hn, ← hk]
    rfl
  · simpa [Whole] using (firm_of_word (r := r) hw).front (.inl rfl)
  · have hsigns : ∀ s ∈ signs, signs.find? (fun u => u.1.isPrefixOf s.1) = some s := by decide
    have hself : sign? (d :: t) = some l := by
      rw [← hdt, sign?, hsigns _ (sign?_kind hs)]
      rfl
    rw [Whole, hdt, front_sign hself, hdt, List.drop_length]

/-- No white space begins a lexeme, and a slash alone is the only one that begins with a slash. -/
theorem front_plain {c : Char} {r rest : List Char} {l : Lexeme} (h : front (c :: r) = .lexeme l rest) :
    isGapSpace c = false ∧ (c = '/' → l.text = ['/']) := by
  have hopens (hc : opens c = true) : isGapSpace c = false ∧ (c = '/' → l.text = ['/']) := by
    have hplain := isPlain_of_opens hc
    simp only [isPlain, Bool.and_eq_true, Bool.not_eq_true', bne_iff_ne] at hplain
    exact ⟨hplain.1, fun hslash => absurd hslash hplain.2⟩
  obtain ⟨_, _, hcons, ⟨hc, _, _, _⟩ | ⟨hd, _, _, _⟩ | ⟨hw, _, _⟩ | ⟨hs, _⟩⟩ := front_cases h <;> cases hcons
  · rcases hc with rfl | rfl <;> exact hopens rfl
  · exact hopens (opens_of_digit hd)
  · exact hopens (opens_of_wordStart hw)
  · have hsigns : ∀ s ∈ signs, s.1.head?.all (fun d => !isGapSpace d) = true ∧
        (s.1.head? = some '/' → s.1 = ['/']) := by decide
    obtain ⟨hspace, hslash⟩ := hsigns _ (sign?_kind hs)
    have hhead : l.text.head? = some c := by
      obtain ⟨hne, t, ht⟩ := sign?_text hs
      obtain ⟨d, u, hdu⟩ := List.exists_cons_of_ne_nil hne
      rw [hdu, List.cons_append] at ht
      rw [hdu, (List.cons_eq_cons.1 ht).1]
      rfl
    dsimp only at hspace hslash
    rw [hhead] at hspace hslash
    exact ⟨by simpa using hspace, fun hc => hslash (congrArg some hc)⟩

/-- White space parts a lexeme from whatever follows. -/
theorem Whole.front_space {l : Lexeme} (h : l.Whole) {d : Char} (hd : isGapSpace d = true) (tail : List Char) :
    front (gap (l.text ++ d :: tail)).2 = .lexeme l (d :: tail) := by
  have hbreaks : Breaks d := by
    simp only [isGapSpace, Bool.or_eq_true, beq_iff_eq] at hd
    rcases hd with ((rfl | rfl) | rfl) | rfl <;> exact ⟨by decide, by decide, by decide⟩
  have hfront : front (l.text ++ d :: tail) = .lexeme l (d :: tail) := by
    simpa using front_continued tail hbreaks (sign_ne_space hd _) h
  obtain ⟨c, t, hct⟩ := List.exists_cons_of_ne_nil (front_lexeme h).1
  rw [hct, List.cons_append] at hfront ⊢
  obtain ⟨hspace, hslash⟩ := front_plain hfront
  have hcomment : ∀ r : List Char, c = '/' → t ++ d :: tail = '/' :: r → False := by
    intro r hc ht
    rw [hct] at hslash
    obtain rfl : t = [] := (List.cons_eq_cons.1 (hslash hc)).2
    exact hbreaks.slash (List.cons_eq_cons.1 ht).1
  rw [gap, gapFrom.eq_4 _ _ hcomment, if_neg (by rw [hspace]; exact Bool.false_ne_true)]
  exact hfront

end Lexeme

/-! ## Cuts -/

/-- A text cut into lexemes, with what stands before each, and what is left behind the last one. -/
inductive Cut where
  | ended (rest : List Char)
  | lexeme (gap : List Char) (l : Lexeme) (after : Cut)

namespace Cut

def text : Cut → List Char
  | ended rest => rest
  | lexeme gap l after => gap ++ (l.text ++ after.text)

def lexemes : Cut → List Lexeme
  | ended _ => []
  | lexeme _ l after => l :: after.lexemes

def rest : Cut → List Char
  | ended rest => rest
  | lexeme _ _ after => after.rest

/-- What stands before, between and behind the lexemes. -/
def gaps : Cut → List (List Char)
  | ended rest => [rest]
  | lexeme gap _ after => gap :: after.gaps

/-- There is nothing but gaps before the lexemes. -/
def Gapped : Cut → Prop
  | ended _ => True
  | lexeme gap l after => Lexeme.IsGap (l.text ++ after.text) gap ∧ after.Gapped

end Cut

namespace Token

/-- Byte offset of the first character of a token, the opening quote of a string. -/
def first (t : Token) : Nat := if t.kind = .string then t.start - 1 else t.start

/-- Byte offset of what follows a token and, if it is a string, the closing quote. -/
def behind (t : Token) : Nat := if t.kind = .string then t.stop + 1 else t.stop

end Token

namespace Cut

/-- The tokens are those of the lexemes, and stand where these are if the text begins at a byte offset. -/
def Holds : Cut → Nat → List Token → Prop
  | ended _, _, [] => True
  | lexeme gap l after, n, t :: ts => t.kind = l.kind ∧ t.data = l.data ∧ t.first = n + Text.byteSize gap ∧
      t.behind = t.first + Text.byteSize l.text ∧ after.Holds t.behind ts
  | _, _, _ => False

instance decidableHolds : ∀ (k : Cut) (n : Nat) (ts : List Token), Decidable (k.Holds n ts)
  | ended _, _, [] => isTrue trivial
  | lexeme _ _ after, _, t :: ts =>
    have := decidableHolds after t.behind ts
    inferInstanceAs (Decidable (_ ∧ _ ∧ _ ∧ _ ∧ _))
  | ended _, _, _ :: _ | lexeme _ _ _, _, [] => isFalse id

end Cut

/-! ## Tokens -/

namespace Cursor

variable {c : Cursor} {l : Lexeme} {rest : List Char}

theorem first_token (c : Cursor) (l : Lexeme) : (c.token l).first = c.offset := by
  by_cases hk : l.kind = .string <;> simp [Token.first, token, hk]

theorem behind_token {cs : List Char} (h : Lexeme.front cs = .lexeme l rest) :
    (c.token l).behind = c.offset + Text.byteSize l.text := by
  have htext := Lexeme.front_text h
  by_cases hk : l.kind = .string
  · rw [if_pos hk] at htext
    obtain ⟨q, hq, htext⟩ := htext
    have hsize : q.utf8Size = 1 := by rcases hq with rfl | rfl <;> rfl
    simp only [Token.behind, Token.stop, token, hk, if_true]
    rw [htext, Text.byteSize, Text.byteSize_append, Text.byteSize, Text.byteSize, hsize]
    omega
  · rw [if_neg hk] at htext
    simp only [Token.behind, Token.stop, token, hk, if_false]
    rw [htext]

end Cursor

/-- The pieces that reading the text from a cursor on cuts it into, the tokens, and what comes of reading on. -/
structure Cursor.Cuts (c : Cursor) (k : Cut) (ts : List Token) (result : Except Error Token) : Prop where
  text : k.text = c.rest
  gapped : k.Gapped
  whole : ∀ l ∈ k.lexemes, l.Whole
  holds : k.Holds c.offset ts
  stream : ∃ here stop, Tokens.Spans id ts (Tokens.read c) (.ending here result stop)
  last : ∀ t, result = .ok t → (∃ d : Cursor, t = d.endToken) ∧ Lexeme.IsGap [] k.rest

/-- Every text is cut into the lexemes of its tokens with gaps between them. -/
theorem Tokens.exists_cut (c : Cursor) : ∃ k ts result, c.Cuts k ts result := by
  fun_induction read c with
  | case1 c l rest hl _ ih =>
    obtain ⟨k, ts, result, htext, hgapped, hwhole, hholds, ⟨here, stop, hstream⟩, hlast⟩ := ih
    have hrest : l.text ++ k.text = c.skipGap.rest := by
      rw [htext]
      exact (Lexeme.front_lexeme hl).2
    refine ⟨.lexeme (Lexeme.gap c.rest).1 l k, c.skipGap.token l :: ts, result, ?_, ⟨?_, hgapped⟩,
      List.forall_mem_cons.2 ⟨Lexeme.whole_of_front hl, hwhole⟩, ?_, ⟨here, stop, ?_⟩, hlast⟩
    · rw [Cut.text, hrest]
      exact Lexeme.gap_append c.rest
    · rw [hrest]
      exact Lexeme.gap_isGap c.rest
    · have hfirst := c.skipGap.first_token l
      have hbehind := Cursor.behind_token (c := c.skipGap) hl
      refine ⟨rfl, rfl, by rw [hfirst]; rfl, by rw [hbehind, hfirst], ?_⟩
      rw [hbehind]
      exact hholds
    · rw [read_lexeme hl]
      exact .cons hstream
  | case2 c hl =>
    refine ⟨.ended c.rest, [], c.next.1, rfl, trivial, by simp [Cut.lexemes], trivial, ⟨c, c.next.2, ?_⟩, fun t ht => ?_⟩
    · rw [read_of_not_lexeme hl]
      rfl
    · unfold Cursor.next at ht
      split at ht
      · next hended =>
        cases ht
        have hgap := Lexeme.gap_isGap c.rest
        have happ := Lexeme.gap_append c.rest
        have hnil : (Lexeme.gap c.rest).2 = [] := Lexeme.eq_nil_of_front hended
        rw [hnil] at hgap happ
        rw [List.append_nil] at happ
        rw [happ] at hgap
        exact ⟨⟨_, rfl⟩, hgap⟩
      · next hlexeme => exact absurd hlexeme (hl _ _)
      · cases ht
      · cases ht

/-! ## Order -/

theorem Text.byteSize_pos {cs : List Char} (h : cs ≠ []) : 0 < byteSize cs := by
  obtain ⟨c, r, rfl⟩ := List.exists_cons_of_ne_nil h
  have hc := c.utf8Size_pos
  simp only [byteSize]
  omega

theorem Lexeme.Whole.ne_nil {l : Lexeme} (h : l.Whole) : l.text ≠ [] := (front_lexeme h).1

namespace Cut.Holds

/-- The kinds and the data of the tokens are those of the lexemes. -/
theorem shapes : ∀ {k : Cut} {n : Nat} {ts : List Token}, k.Holds n ts →
    ts.map (fun t => (t.kind, t.data)) = k.lexemes.map fun l => (l.kind, l.data)
  | .ended _, _, [], _ => rfl
  | .lexeme _ _ _, _, _ :: _, ⟨hkind, hdata, _, _, h⟩ => by
    rw [List.map_cons, lexemes, List.map_cons, hkind, hdata, shapes h]

variable {k : Cut} {n : Nat} {ts : List Token}

theorem kind_ne (h : k.Holds n ts) (hwhole : ∀ l ∈ k.lexemes, l.Whole) : ∀ t ∈ ts, t.kind ≠ .endOfInput := by
  intro t ht
  have hmem : (t.kind, t.data) ∈ k.lexemes.map fun l => (l.kind, l.data) := by
    rw [← h.shapes]
    exact List.mem_map_of_mem ht
  obtain ⟨l, hl, he⟩ := List.mem_map.1 hmem
  rw [← (Prod.mk.inj he).1]
  exact Lexeme.kind_ne_of_front (hwhole l hl)

/-- Each token takes at least one byte of the text. -/
theorem length_le (h : k.Holds n ts) (hne : ∀ l ∈ k.lexemes, l.text ≠ []) : ts.length ≤ Text.byteSize k.text := by
  induction k generalizing n ts with
  | ended =>
    cases ts with
    | nil => exact Nat.zero_le _
    | cons => exact h.elim
  | lexeme gap l after ih =>
    cases ts with
    | nil => exact h.elim
    | cons t ts =>
      obtain ⟨_, _, _, _, h⟩ := h
      obtain ⟨hl, hne⟩ := List.forall_mem_cons.1 hne
      have hpos := Text.byteSize_pos hl
      have hrest := ih h hne
      simp only [List.length_cons, text, Text.byteSize_append]
      omega

/-- A token that begins before another one ends there at the latest, and none is empty. -/
theorem ordered (h : k.Holds n ts) (hne : ∀ l ∈ k.lexemes, l.text ≠ []) :
    (∀ t ∈ ts, n ≤ t.first ∧ t.first < t.behind) ∧ ts.Pairwise fun t u => t.behind ≤ u.first := by
  induction k generalizing n ts with
  | ended =>
    cases ts with
    | nil => exact ⟨by simp, .nil⟩
    | cons => exact h.elim
  | lexeme gap l after ih =>
    cases ts with
    | nil => exact h.elim
    | cons t ts =>
      obtain ⟨_, _, hfirst, hbehind, h⟩ := h
      obtain ⟨hl, hne⟩ := List.forall_mem_cons.1 hne
      have hpos := Text.byteSize_pos hl
      obtain ⟨hspans, hpairs⟩ := ih h hne
      refine ⟨List.forall_mem_cons.2 ⟨by omega, fun u hu => ?_⟩,
        List.pairwise_cons.2 ⟨fun u hu => (hspans u hu).1, hpairs⟩⟩
      obtain ⟨hle, hlt⟩ := hspans u hu
      omega

end Cut.Holds

/-! ## Scanners -/

namespace Scanner

/-- Reading on from a cursor gives the tokens of the stream there, one after the other, and what comes behind them. -/
theorem run_spans {here stop : Cursor} {result : Except Error Token} : ∀ {ts : List Token} (c : Cursor) (saved : List Cursor),
    Tokens.Spans id ts (Tokens.read c) (.ending here result stop) →
    ((⟨c, saved⟩ : Scanner).run (List.replicate (ts.length + 1) .next)).1 =
      ts.map (fun t => .token (.ok t)) ++ [.token result]
  | [], c, saved, h => by
    have hhead : c.next.1 = result := by
      rw [← Tokens.head_read, show Tokens.read c = _ from h]
      rfl
    show [Outcome.token c.next.1] = _
    rw [hhead]
    rfl
  | t :: ts, c, saved, ⟨c', u, rest, hread, hu, h⟩ => by
    obtain rfl : u = t := hu
    have hnext : c.next.1 = .ok u ∧ Tokens.read c.next.2 = rest := by
      unfold Tokens.read at hread
      split at hread
      · next hl =>
        cases hread
        unfold Cursor.next
        rw [hl]
        exact ⟨rfl, rfl⟩
      · cases hread
    show Outcome.token c.next.1 :: ((⟨c.next.2, saved⟩ : Scanner).run (List.replicate (ts.length + 1) .next)).1 = _
    rw [run_spans c.next.2 saved (by rw [hnext.2]; exact h), hnext.1]
    rfl

/-- A scanner that reads token by token comes to the end of its text or to an error within one step more than the text
has bytes. The tokens before that are those of the lexemes of the text: no two share a byte, none is empty, and what
stands before them is nothing but white space and comments, as is what stands behind them if the text ends there. -/
theorem run_cut (text : String) (origin : Location) : ∃ (ts : List Token) (result : Except Error Token) (k : Cut),
    ts.length + 1 ≤ text.utf8ByteSize + 1 ∧
    ((start text origin).run (List.replicate (ts.length + 1) .next)).1 =
      ts.map (fun t => .token (.ok t)) ++ [.token result] ∧
    (∀ t ∈ ts, t.kind ≠ .endOfInput) ∧
    k.text = text.toList ∧ k.Gapped ∧ k.Holds 0 ts ∧
    (∀ t ∈ ts, t.first < t.behind) ∧ ts.Pairwise (fun t u => t.behind ≤ u.first) ∧
    ∀ t, result = .ok t → t.kind = .endOfInput ∧ Lexeme.IsGap [] k.rest := by
  obtain ⟨k, ts, result, hk⟩ := Tokens.exists_cut (Cursor.start text origin)
  obtain ⟨here, stop, hstream⟩ := hk.stream
  have hne : ∀ l ∈ k.lexemes, l.text ≠ [] := fun l hl => (hk.whole l hl).ne_nil
  obtain ⟨hspans, hpairs⟩ := hk.holds.ordered hne
  have hbytes : Text.byteSize k.text = text.utf8ByteSize := by
    rw [Text.byteSize_eq, hk.text]
    exact congrArg String.utf8ByteSize String.ofList_toList
  have hlength := hk.holds.length_le hne
  refine ⟨ts, result, k, by omega, run_spans _ _ hstream, hk.holds.kind_ne hk.whole, hk.text, hk.gapped, hk.holds,
    fun t ht => (hspans t ht).2, hpairs, fun t ht => ?_⟩
  obtain ⟨⟨d, rfl⟩, hgap⟩ := hk.last t ht
  exact ⟨rfl, hgap⟩

end Scanner

end ExprLang
