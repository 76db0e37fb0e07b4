import ExprLang.Proofs.Lexemes
import ExprLang.Text.Quoted

/-!
# Printed pieces

No two pieces that are printed side by side are read as one lexeme.

* `Scans cs ls r`: a text falls into lexemes and what is left.
* `Firm`: a lexeme that is read back before everything that may follow an expression.
* `Scans.sign`, `before_minus`, `before_bang`: a sign keeps apart from what is printed after it.
-/

namespace ExprLang

/-! ## Texts in lexemes -/

namespace Lexeme

/-- A text begins with lexemes, and gaps before them, and goes on with `r`. -/
def Scans : List Char → List Lexeme → List Char → Prop
  | cs, [], r => cs = r
  | cs, l :: ls, r => ∃ rest, front (gap cs).2 = .lexeme l rest ∧ Scans rest ls r

theorem scans_append {ls : List Lexeme} {r : List Char} : ∀ {ks : List Lexeme} {cs : List Char},
    Scans cs (ks ++ ls) r ↔ ∃ m, Scans cs ks m ∧ Scans m ls r
  | [], cs => ⟨fun h => ⟨cs, rfl, h⟩, fun ⟨_, h, h'⟩ => by cases h; exact h'⟩
  | k :: ks, cs => by
    constructor
    · rintro ⟨rest, hk, h⟩
      obtain ⟨m, h, h'⟩ := scans_append.1 h
      exact ⟨m, ⟨rest, hk, h⟩, h'⟩
    · rintro ⟨m, ⟨rest, hk, h⟩, h'⟩
      exact ⟨rest, hk, scans_append.2 ⟨m, h, h'⟩⟩

theorem Scans.append {ks ls : List Lexeme} {cs m r : List Char} (h : Scans cs ks m) (h' : Scans m ls r) :
    Scans cs (ks ++ ls) r := scans_append.2 ⟨m, h, h'⟩

theorem gap_spaces {g : List Char} (hg : ∀ c ∈ g, isGapSpace c = true) (cs : List Char) : (gap (g ++ cs)).2 = (gap cs).2 := by
  induction g with
  | nil => rfl
  | cons c g ih =>
    obtain ⟨hc, hg⟩ := List.forall_mem_cons.1 hg
    have hslash : ∀ r : List Char, c = '/' → g ++ cs = '/' :: r → False := fun _ he _ => by rw [he] at hc; cases hc
    rw [List.cons_append, gap, gapFrom.eq_4 _ _ hslash, if_pos hc]
    exact ih hg

/-- White space before a lexeme is a gap. -/
theorem Scans.gap {g : List Char} (hg : ∀ c ∈ g, isGapSpace c = true) :
    ∀ {ls : List Lexeme} {cs r : List Char}, ls ≠ [] → Scans cs ls r → Scans (g ++ cs) ls r
  | [], _, _, hne, _ => absurd rfl hne
  | _ :: _, cs, _, _, ⟨rest, hl, h⟩ => ⟨rest, by rw [gap_spaces hg, hl], h⟩

theorem Scans.space {ls : List Lexeme} {cs r : List Char} (hne : ls ≠ []) (h : Scans cs ls r) : Scans (' ' :: cs) ls r :=
  Scans.gap (List.forall_mem_singleton.2 rfl) hne h

/-- The lexeme of a sign. -/
def sign (k : Token.Kind) : Lexeme := ⟨k, (signs.find? fun s => s.2 == k).elim [] Prod.fst⟩

/-- What may follow an expression: nothing, a space, a new line, a comma, a bracket or a `..`. -/
def Delimits (r : List Char) : Prop :=
  r = [] ∨ (∃ c s, r = c :: s ∧ c ∈ [' ', '\n', ',', '[', ']']) ∨ ∃ s, r = '.' :: '.' :: s

theorem delimits_of_mem {c : Char} {r : List Char} (h : c ∈ [' ', '\n', ',', '[', ']']) : Delimits (c :: r) :=
  .inr (.inl ⟨c, r, rfl, h⟩)

theorem delimits_dots {r : List Char} : Delimits ('.' :: '.' :: r) := .inr (.inr ⟨r, rfl⟩)

/-- Whether neither a gap nor a comment begins with a character. -/
def isPlain (c : Char) : Bool := !isGapSpace c && c != '/'

/-- Whether a character begins a lexeme and does not lengthen a sign before it. -/
def opens (c : Char) : Bool := isPlain c && c != '>' && c != '='

theorem isPlain_of_opens {c : Char} (h : opens c = true) : isPlain c = true := by
  simp only [opens, Bool.and_eq_true] at h
  exact h.1.1

theorem gap_of_plain {c : Char} {cs : List Char} (h : isPlain c = true) : (gap (c :: cs)).2 = c :: cs := by
  simp only [isPlain, Bool.and_eq_true, Bool.not_eq_true', bne_iff_ne] at h
  rw [gap, gapFrom.eq_4 _ _ fun r he _ => h.2 he, if_neg (by simp [h.1])]

/-- A lexeme that is read back before everything that may follow an expression. -/
structure Firm (l : Lexeme) : Prop where
  opens : ∃ c cs, l.text = c :: cs ∧ opens c = true
  front {r : List Char} : Delimits r → front (l.text ++ r) = .lexeme l r

/-- A sign is read before `r`. -/
def Before (k : Token.Kind) (r : List Char) : Prop := front (gap ((sign k).text ++ r)).2 = .lexeme (sign k) r

theorem Before.scans {k : Token.Kind} {ls : List Lexeme} {r r' : List Char} (h : Before k r) (h' : Scans r ls r') :
    Scans ((sign k).text ++ r) (sign k :: ls) r' := ⟨r, h, h'⟩

/-- The signs with which no other sign begins. -/
def complete : List Token.Kind :=
  [.openBracket, .closeBracket, .openParen, .closeParen, .comma, .colon, .dots, .openSwitch, .closeSwitch, .plus,
    .tilde]

theorem before_of_complete {k : Token.Kind} {r : List Char} (hk : k ∈ complete) : Before k r := by
  simp only [complete, List.mem_cons, List.not_mem_nil, or_false] at hk
  rcases hk with rfl | rfl | rfl | rfl | rfl | rfl | rfl | rfl | rfl | rfl | rfl <;> rfl

theorem Scans.sign {k : Token.Kind} {ls : List Lexeme} {r r' : List Char} (hk : k ∈ complete) (h : Scans r ls r') :
    Scans ((sign k).text ++ r) (Lexeme.sign k :: ls) r' := (before_of_complete hk).scans h

theorem before_closeBrace {r : List Char} (hr : Delimits r) : Before .closeBrace r := by
  rcases hr with rfl | ⟨c, s, rfl, hc⟩ | ⟨s, rfl⟩
  · rfl
  · simp only [List.mem_cons, List.not_mem_nil, or_false] at hc
    rcases hc with rfl | rfl | rfl | rfl | rfl <;> rfl
  · rfl

/-- Where a sign is found, nothing else begins. -/
theorem front_sign {c : Char} {cs : List Char} {l : Lexeme} (hs : sign? (c :: cs) = some l) :
    front (c :: cs) = .lexeme l ((c :: cs).drop l.text.length) := by
  have hfirst : ∀ s ∈ signs, s.1.head?.all (fun d => d != '"' && d != '\x27' && !d.isDigit && !isWordStart d) = true := by
    decide
  obtain ⟨hne, hbefore⟩ := sign?_text hs
  have hhead : l.text.head? = some c := by
    cases htext : l.text with
    | nil => exact absurd htext hne
    | cons d ds =>
      rw [htext] at hbefore
      rw [(List.cons_prefix_cons.1 hbefore).1]
      rfl
  have hc := hfirst _ (sign?_kind hs)
  rw [hhead] at hc
  simp only [Option.all_some, Bool.and_eq_true, bne_iff_ne, Bool.not_eq_true'] at hc
  obtain ⟨⟨⟨hdouble, hsingle⟩, hdigit⟩, hword⟩ := hc
  have hquote : ¬ (c = '"' ∨ c = '\x27') := not_or.2 ⟨hdouble, hsingle⟩
  rw [front, if_neg hquote, if_neg (by simp [hdigit]), if_neg (by simp [hword]), hs]

/-- Nothing that opens a lexeme makes another sign of a `-` before it. -/
theorem before_minus {c : Char} {r : List Char} (hc : opens c = true) : Before .minus (c :: r) := by
  have hne : ('>' == c) = false := by simpa using fun h : '>' = c => by rw [← h] at hc; cases hc
  have hs : sign? ('-' :: c :: r) = some (sign .minus) := by
    simp [sign?, signs, hne, List.find?, List.isPrefixOf]
    rfl
  exact front_sign hs

theorem before_bang {c : Char} {r : List Char} (hc : opens c = true) : Before .bang (c :: r) := by
  have hne : ('=' == c) = false := by simpa using fun h : '=' = c => by rw [← h] at hc; cases hc
  have hs : sign? ('!' :: c :: r) = some (sign .bang) := by
    simp [sign?, signs, hne, List.find?, List.isPrefixOf]
    rfl
  exact front_sign hs

theorem Firm.scans {l : Lexeme} (h : l.Firm) {r : List Char} (hr : Delimits r) : Scans (l.text ++ r) [l] r := by
  obtain ⟨c, cs, hl, hc⟩ := h.opens
  refine ⟨r, ?_, rfl⟩
  rw [← h.front hr, hl, List.cons_append, gap_of_plain (isPlain_of_opens hc)]

/-! ## Pieces of an expression -/

/-- The closing quote of an escaped text is the first that no backslash protects. -/
theorem quoted_escape (r : List Char) : ∀ cs : List Char,
    quoted '"' (Text.escape cs ++ '"' :: r) = some (Text.escape cs ++ ['"'], r)
  | [] => by simp [Text.escape, quoted]
  | c :: cs => by
    have ih := quoted_escape r cs
    by_cases hc : c = '\\' ∨ c = '"'
    · rw [Text.escape, if_pos hc]
      simp only [List.cons_append]
      rw [quoted, ih]
      rfl
    · rw [Text.escape, if_neg hc]
      simp only [List.cons_append]
      obtain ⟨hb, hq⟩ := not_or.1 hc
      rw [quoted.eq_4 _ _ _ (fun he _ => hb he) (fun _ _ he _ => hb he), if_neg hq, ih]
      rfl

/-- A quoted text is read back before anything. -/
theorem front_quote (s : String) (r : List Char) :
    front ((Text.quote s).toList ++ r) = .lexeme ⟨.string, (Text.quote s).toList⟩ r := by
  have hquote : (Text.quote s).toList = '"' :: (Text.escape s.toList ++ ['"']) := by simp [Text.quote]
  rw [hquote]
  simp only [List.cons_append, List.append_assoc, List.nil_append]
  rw [front, if_pos (.inl rfl), quoted_escape]

theorem firm_quote (s : String) : (⟨.string, (Text.quote s).toList⟩ : Lexeme).Firm where
  opens := ⟨'"', Text.escape s.toList ++ ['"'], by simp [Text.quote], rfl⟩
  front := fun {r} _ => by
    dsimp only
    exact front_quote s r

/-- A key is read up to the expression after its colon. -/
theorem Scans.key (k : String) {ls : List Lexeme} {cs r : List Char} (hne : ls ≠ []) (h : Scans cs ls r) :
    Scans ((Text.quote k).toList ++ ':' :: ' ' :: cs) (⟨.string, (Text.quote k).toList⟩ :: Lexeme.sign .colon :: ls) r := by
  obtain ⟨c, t, htext, hc⟩ := (firm_quote k).opens
  refine ⟨':' :: ' ' :: cs, ?_, .sign (k := .colon) (by decide) (h.space hne)⟩
  dsimp only at htext
  rw [← front_quote, htext, List.cons_append, gap_of_plain (isPlain_of_opens hc)]

/-! ## Words and numbers -/

/-- A class of characters opens lexemes if it has none of those that do not. -/
theorem opens_of_class {p : Char → Bool} (hp : [' ', '\t', '\n', '\r', '/', '>', '='].any p = false) {c : Char}
    (hc : p c = true) : opens c = true := by
  have hne : ∀ d ∈ [' ', '\t', '\n', '\r', '/', '>', '='], c ≠ d := by
    rintro d hd rfl
    exact absurd (List.any_eq_true.2 ⟨c, hd, hc⟩) (by rw [hp]; exact Bool.false_ne_true)
  simp only [List.forall_mem_cons] at hne
  simp [opens, isPlain, isGapSpace, hne]

theorem opens_of_wordStart {c : Char} (h : isWordStart c = true) : opens c = true := opens_of_class rfl h

theorem opens_of_digit {c : Char} (h : c.isDigit = true) : opens c = true := opens_of_class rfl h

/-- What may follow an expression continues neither a word nor a number. -/
theorem Delimits.not_touching {r : List Char} (h : Delimits r) :
    (∀ c ∈ r.head?, isWordPart c = false) ∧ touchesNumber r = false := by
  rcases h with rfl | ⟨c, s, rfl, hc⟩ | ⟨s, rfl⟩
  · exact ⟨fun c hc => (by cases hc), rfl⟩
  · simp only [List.mem_cons, List.not_mem_nil, or_false] at hc
    rcases hc with rfl | rfl | rfl | rfl | rfl <;> exact ⟨fun c hc => (by cases hc; rfl), rfl⟩
  · exact ⟨fun c hc => (by cases hc; rfl), rfl⟩

theorem not_isDigit_of_wordStart {c : Char} (h : isWordStart c = true) : c.isDigit = false := by
  simp only [isWordStart, Bool.or_eq_true, beq_iff_eq] at h
  rcases h with h | rfl
  · -- the letters stand behind the digits
    have hletter : 'A'.toNat ≤ c.toNat := by
      rcases Bool.or_eq_true_iff.1 h with hupper | hlower
      · exact (of_decide_eq_true hupper).1
      · exact Nat.le_trans (by decide) (of_decide_eq_true (Bool.and_eq_true_iff.1 hlower).1)
    exact Bool.and_eq_false_imp.2 fun _ => decide_eq_false fun hdigit => absurd (Nat.le_trans hletter hdigit) (by decide)
  · rfl

theorem front_word {c : Char} {cs : List Char} (h : isWordStart c = true) : front (c :: cs) =
    .lexeme ⟨wordKind ((c :: cs).takeWhile isWordPart), (c :: cs).takeWhile isWordPart⟩
      ((c :: cs).dropWhile isWordPart) := by
  have hq : ¬ (c = '"' ∨ c = '\x27') := by rintro (rfl | rfl) <;> cases h
  rw [front, if_neg hq, if_neg (by simp [not_isDigit_of_wordStart h]), if_pos h]

theorem firm_word {c : Char} {cs : List Char} (h : isWordStart c = true) (hcs : ∀ x ∈ c :: cs, isWordPart x = true) :
    (⟨wordKind (c :: cs), c :: cs⟩ : Lexeme).Firm where
  opens := ⟨c, cs, rfl, opens_of_wordStart h⟩
  front := fun {r} hr => by
    obtain ⟨htake, hdrop⟩ := whileAll_append hcs hr.not_touching.1
    rw [List.cons_append] at htake hdrop ⊢
    rw [front_word h, htake, hdrop]

/-- A word that was read is read back. -/
theorem firm_of_word {c : Char} {r : List Char} (h : isWordStart c = true) :
    (⟨wordKind ((c :: r).takeWhile isWordPart), (c :: r).takeWhile isWordPart⟩ : Lexeme).Firm := by
  have hc : isWordPart c = true := by
    simp only [isWordStart, isWordPart, Char.isAlphanum, Bool.or_eq_true] at h ⊢
    exact h.imp_left .inl
  have htake : (c :: r).takeWhile isWordPart = c :: r.takeWhile isWordPart := List.takeWhile_cons_of_pos hc
  rw [htake]
  refine firm_word h fun x hx => ?_
  rw [← htake] at hx
  exact List.all_eq_true.1 List.all_takeWhile x hx

/-- A number that is read from a text of its own is read back before what may follow it. -/
theorem firm_number {cs : List Char} (h : front cs = .lexeme ⟨.number, cs⟩ []) : (⟨.number, cs⟩ : Lexeme).Firm := by
  obtain ⟨c, t, rfl, hd, hn, _⟩ := front_number_cases h rfl
  refine ⟨⟨c, t, rfl, opens_of_digit hd⟩, fun {r} hr => ?_⟩
  obtain ⟨ds, f, x, hparts, hds, hf, hx⟩ := number_parts (r := t) hd
  rw [hn] at hparts
  have hparts : c :: t = ds ++ f ++ x := hparts
  have htouch := hr.not_touching.2
  have hnumber : number (c :: t ++ r) = (c :: t, r) := by
    rw [hparts]
    exact number_append_of hds hf hx htouch
  have hq : ¬ (c = '"' ∨ c = '\x27') := by rintro (rfl | rfl) <;> cases hd
  show front (c :: (t ++ r)) = _
  rw [front, if_neg hq, if_pos hd]
  simp only [← List.cons_append, hnumber, htouch]
  rfl

end Lexeme

end ExprLang
