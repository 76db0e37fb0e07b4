import ExprLang.Error
import ExprLang.Number.Numeral

/-!
# Lexemes

How a text falls into gaps and lexemes, by its characters alone. A gap is made of white space and of
comments that run from `//` to the end of a line. After it comes the longest lexeme: a quoted
string, a number, a word or a sign.

- `gap_append`, `front_lexeme`: what is cut off and what is left make up the text, and a lexeme is
  not empty.
-/

namespace ExprLang

structure Lexeme where
  kind : Token.Kind
  /-- All characters of the lexeme, the quotes of a string included. -/
  text : List Char

namespace Lexeme

/-! ## Gaps -/

def isGapSpace (c : Char) : Bool := c == ' ' || c == '\t' || c == '\n' || c == '\r'

def endsComment (c : Char) : Bool := c == '\n' || c == '\r'

/-- The gap at the front of a text and what follows it; the flag tells whether the text begins inside a comment. -/
def gapFrom : Bool → List Char → List Char × List Char
  | _, [] => ([], [])
  | true, c :: r => (c :: (gapFrom (!endsComment c) r).1, (gapFrom (!endsComment c) r).2)
  | false, '/' :: '/' :: r => ('/' :: '/' :: (gapFrom true r).1, (gapFrom true r).2)
  | false, c :: r => if isGapSpace c then (c :: (gapFrom false r).1, (gapFrom false r).2) else ([], c :: r)

def gap (cs : List Char) : List Char × List Char := gapFrom false cs

theorem gapFrom_append (inside : Bool) (cs : List Char) : (gapFrom inside cs).1 ++ (gapFrom inside cs).2 = cs := by
  fun_induction gapFrom inside cs <;> simp_all

theorem gap_append (cs : List Char) : (gap cs).1 ++ (gap cs).2 = cs := gapFrom_append false cs

/-! ## Strings -/

/-- What follows an opening quote up to the closing one, with it, and the rest; a backslash protects
the next character. -/
def quoted (quote : Char) : List Char → Option (List Char × List Char)
  | [] => none
  | ['\\'] => none
  | '\\' :: c :: r => (quoted quote r).map fun (body, rest) => ('\\' :: c :: body, rest)
  | c :: r => if c = quote then some ([c], r) else (quoted quote r).map fun (body, rest) => (c :: body, rest)

theorem quoted_append {quote : Char} {cs body rest : List Char} (h : quoted quote cs = some (body, rest)) :
    body ++ rest = cs := by
  fun_induction quoted quote cs generalizing body rest with
  | case1 => simp at h
  | case2 => simp at h
  | case3 c r ih =>
    obtain ⟨⟨b, t⟩, hb, he⟩ := Option.map_eq_some_iff.1 h
    simp only [Prod.mk.injEq] at he
    simp [← he.1, ← he.2, ih hb]
  | case4 r =>
    simp only [Option.some.injEq, Prod.mk.injEq] at h
    obtain ⟨rfl, rfl⟩ := h
    rfl
  | case5 c r _ _ hc ih =>
    obtain ⟨⟨b, t⟩, hb, he⟩ := Option.map_eq_some_iff.1 h
    simp only [Prod.mk.injEq] at he
    simp [← he.1, ← he.2, ih hb]

/-! ## Numbers and words -/

def isWordStart (c : Char) : Bool := c.isAlpha || c == '_'

def isWordPart (c : Char) : Bool := c.isAlphanum || c == '_'

/-- A point and the digits after it, or else nothing: its text, and what follows. -/
def fraction : List Char → List Char × List Char
  | '.' :: c :: r =>
    if c.isDigit then ('.' :: Numeral.digits (c :: r), Numeral.afterDigits (c :: r)) else ([], '.' :: c :: r)
  | r => ([], r)

/-- The text of a number and what follows it. -/
def number (cs : List Char) : List Char × List Char :=
  let (frac, r) := fraction (Numeral.afterDigits cs)
  let (expo, rest) := Numeral.exponentText r
  (Numeral.digits cs ++ frac ++ expo, rest)

theorem fraction_append (cs : List Char) : (fraction cs).1 ++ (fraction cs).2 = cs := by
  unfold fraction
  split
  · next c r => split <;> simp [Numeral.digits_append]
  · rfl

theorem number_append (cs : List Char) : (number cs).1 ++ (number cs).2 = cs := by
  simp [number, Numeral.exponentText_append, fraction_append, Numeral.digits_append]

/-- Whether what follows a number must not touch it: a word, or a point that begins no range. -/
def touchesNumber : List Char → Bool
  | '.' :: '.' :: _ => false
  | c :: _ => c == '.' || isWordPart c
  | [] => false

def wordKind (text : List Char) : Token.Kind :=
  if text = "true".toList ∨ text = "false".toList then .boolean
  else if text = "null".toList then .null
  else .name

/-! ## Signs -/

/-- The signs, a longer one before those that it begins with. -/
def signs : List (List Char × Token.Kind) :=
  [(['\x7b', '\x7b'], .openSwitch), (['\x7d', '\x7d'], .closeSwitch), (['-', '>'], .arrow), (['&', '&'], .and),
    (['|', '|'], .or), (['!', '='], .notEqual), (['<', '='], .lessOrEqual), (['<', '<'], .shiftLeft),
    (['>', '='], .greaterOrEqual), (['>', '>'], .shiftRight), (['=', '='], .equal), (['.', '.'], .dots),
    (['['], .openBracket), ([']'], .closeBracket), (['\x7b'], .openBrace), (['\x7d'], .closeBrace), (['('], .openParen),
    ([')'], .closeParen), (['+'], .plus), (['-'], .minus), (['*'], .times), (['/'], .divide), (['%'], .modulo),
    (['~'], .tilde), (['^'], .caret), ([':'], .colon), ([','], .comma), (['&'], .ampersand), (['|'], .bar),
    (['!'], .bang), (['<'], .less), (['>'], .greater), (['='], .assign)]

def sign? (cs : List Char) : Option Lexeme :=
  (signs.find? fun s => s.1.isPrefixOf cs).map fun s => ⟨s.2, s.1⟩

/-! ## The lexeme at the front -/

/-- What a text without a gap in front begins with. -/
inductive Front where
  | ended
  | lexeme (l : Lexeme) (rest : List Char)
  | fault (f : SyntaxFault)

def front : List Char → Front
  | [] => .ended
  | c :: r =>
    if c = '"' ∨ c = '\x27' then
      match quoted c r with
      | some (body, rest) => .lexeme ⟨.string, c :: body⟩ rest
      | none => .fault .unterminatedString
    else if c.isDigit then
      let (text, rest) := number (c :: r)
      if touchesNumber rest then .fault (.unexpectedCharacter c) else .lexeme ⟨.number, text⟩ rest
    else if isWordStart c then
      let text := (c :: r).takeWhile isWordPart
      .lexeme ⟨wordKind text, text⟩ ((c :: r).dropWhile isWordPart)
    else
      match sign? (c :: r) with
      | some l => .lexeme l ((c :: r).drop l.text.length)
      | none => .fault (.unexpectedCharacter c)

theorem sign?_text {cs : List Char} {l : Lexeme} (h : sign? cs = some l) : l.text ≠ [] ∧ l.text <+: cs := by
  obtain ⟨s, hs, rfl⟩ := Option.map_eq_some_iff.1 h
  have hmem : ∀ s ∈ signs, s.1 ≠ [] := by decide
  exact ⟨hmem s (List.mem_of_find?_eq_some hs), by simpa using List.find?_some hs⟩

theorem front_lexeme {cs rest : List Char} {l : Lexeme} (h : front cs = .lexeme l rest) :
    l.text ≠ [] ∧ l.text ++ rest = cs := by
  unfold front at h
  split at h
  · simp at h
  · next c r =>
    split at h
    · next hc =>
      split at h
      · next body t hq =>
        injection h with hl ht
        subst hl ht
        simpa using quoted_append hq
      · simp at h
    · split at h
      · next hd =>
        simp only at h
        split at h
        · simp at h
        · injection h with hl ht
          subst hl ht
          refine ⟨?_, number_append _⟩
          simp [number, Numeral.digits, hd]
      · split at h
        · next hw =>
          injection h with hl ht
          subst hl ht
          have hp : isWordPart c = true := by
            simp only [isWordStart, isWordPart, Char.isAlphanum, Bool.or_eq_true] at hw ⊢
            rcases hw with hw | hw <;> simp [hw]
          simp [hp]
        · split at h
          · next l' hs =>
            injection h with hl ht
            subst hl ht
            obtain ⟨hne, t, ht⟩ := sign?_text hs
            exact ⟨hne, by rw [← ht]; simp⟩
          · simp at h

/-- The characters that a reader of the lexeme sees: a string without its quotes. -/
def data (l : Lexeme) : List Char := if l.kind = .string then l.text.tail.dropLast else l.text

end Lexeme

end ExprLang
