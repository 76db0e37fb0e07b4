import ExprLang.Expr.Parser
import ExprLang.Expr.Text
import ExprLang.Proofs.Parts
import ExprLang.Proofs.Printing.Scans
import Mathlib.Data.List.Forall2

/-!
# The words of a printed expression

The text of an expression falls into the words that its tree suggests.

* `Writes text ws`: a text that falls into words before everything that may follow an expression.
* `Expr.writes`: so does the text of every tree whose leaves are firm, with `Expr.words`.
-/

namespace ExprLang

open Lexeme

/-! ## Words -/

def Value.lexeme (v : Value) : Lexeme where
  kind :=
    match v.content with
    | .string _ => .string
    | .number _ => .number
    | .boolean _ => .boolean
    | _ => .null
  text := v.text.toList

theorem Value.lexeme_kind (v : Value) : v.lexeme.kind ∈ Token.Kind.literals := by
  unfold lexeme
  dsimp only
  split <;> decide

def BinaryOp.sign : BinaryOp → Token.Kind
  | add => .plus
  | subtract => .minus
  | multiply => .times
  | divide => .divide
  | modulo => .modulo
  | and => .and
  | or => .or
  | bitAnd => .ampersand
  | bitXor => .caret
  | bitOr => .bar
  | shiftLeft => .shiftLeft
  | shiftRight => .shiftRight
  | less => .less
  | lessOrEqual => .lessOrEqual
  | greater => .greater
  | greaterOrEqual => .greaterOrEqual
  | equal => .equal
  | notEqual => .notEqual
  | range => .dots
  | guarded => .arrow

theorem BinaryOp.ofKind?_sign (op : BinaryOp) : BinaryOp.ofKind? op.sign = some op := by cases op <;> rfl

/-- The words of a unary operation, given those of its operand. -/
def UnaryOp.words (ws : List Lexeme) : UnaryOp → List Lexeme
  | plus => Lexeme.sign .plus :: ws
  | minus => Lexeme.sign .minus :: ws
  | not => Lexeme.sign .bang :: ws
  | bitNot => Lexeme.sign .tilde :: ws
  | group => Lexeme.sign .openParen :: (ws ++ [Lexeme.sign .closeParen])
  | startingAt => ws ++ [Lexeme.sign .dots]
  | endingAt => Lexeme.sign .dots :: ws

mutual

def Expr.words : Expr → List Lexeme
  | .literal _ v => [v.lexeme]
  | .var _ name => [⟨.name, name.toList⟩]
  | .array _ items => Lexeme.sign .openBracket :: (wordsOf items ++ [Lexeme.sign .closeBracket])
  | .map _ entries => Lexeme.sign .openBrace :: (wordsOfEntries entries ++ [Lexeme.sign .closeBrace])
  | .unary _ op a => op.words a.words
  | .binary _ op a b => a.words ++ Lexeme.sign op.sign :: b.words
  | .subscript _ a b => a.words ++ Lexeme.sign .openBracket :: (b.words ++ [Lexeme.sign .closeBracket])
  | .switch _ cases => Lexeme.sign .openSwitch :: (wordsOf cases ++ [Lexeme.sign .closeSwitch])

/-- Expressions with commas between them. -/
def wordsOf : List Expr → List Lexeme
  | [] => []
  | [e] => e.words
  | e :: f :: es => e.words ++ Lexeme.sign .comma :: wordsOf (f :: es)

def wordsOfEntries : List (String × Expr) → List Lexeme
  | [] => []
  | [(k, e)] => ⟨.string, (Text.quote k).toList⟩ :: Lexeme.sign .colon :: e.words
  | (k, e) :: f :: es =>
    ⟨.string, (Text.quote k).toList⟩ :: Lexeme.sign .colon :: (e.words ++ Lexeme.sign .comma :: wordsOfEntries (f :: es))

end

/-- Pieces with commas between them. -/
def Lexeme.separate : List (List Lexeme) → List Lexeme
  | [] => []
  | [ws] => ws
  | ws :: vs :: wss => ws ++ Lexeme.sign .comma :: separate (vs :: wss)

theorem wordsOf_eq : ∀ es : List Expr, wordsOf es = separate (es.map Expr.words)
  | [] | [_] => rfl
  | e :: f :: es => by
    rw [wordsOf, wordsOf_eq (f :: es)]
    rfl

/-- A key, a colon and the words after it. -/
def entryWords (k : String) (ws : List Lexeme) : List Lexeme :=
  ⟨.string, (Text.quote k).toList⟩ :: Lexeme.sign .colon :: ws

theorem wordsOfEntries_eq : ∀ es : List (String × Expr),
    wordsOfEntries es = separate (es.map fun f => entryWords f.1 f.2.words)
  | [] | [(_, _)] => rfl
  | (k, e) :: f :: es => by
    rw [wordsOfEntries, wordsOfEntries_eq (f :: es)]
    rfl

/-! ## Leaves -/

/-- A leaf is read back before everything that may follow it. -/
def Expr.Printable : Expr → Prop
  | .literal _ v => v.lexeme.Firm
  | .var _ name => (⟨.name, name.toList⟩ : Lexeme).Firm
  | _ => True

/-! ## Texts of trees -/

/-- A text that begins a lexeme and falls into words before everything that may follow an expression. -/
structure Writes (text : List Char) (ws : List Lexeme) : Prop where
  opens : ∃ c cs, text = c :: cs ∧ opens c = true
  scans {r : List Char} : Delimits r → Scans (text ++ r) ws r

theorem Lexeme.Firm.writes {l : Lexeme} (h : l.Firm) : Writes l.text [l] := ⟨h.opens, h.scans⟩

theorem gap_space : ∀ c ∈ [' '], isGapSpace c = true := List.forall_mem_singleton.2 rfl

/-- A sequence between two signs, with gaps inside them. -/
theorem writes_enclosed {opening closing : Token.Kind} {text body : List Char} {ws : List Lexeme} (g g' : List Char)
    (htext : text = (Lexeme.sign opening).text ++ (g ++ (body ++ (g' ++ (Lexeme.sign closing).text))))
    (hg : ∀ c ∈ g, isGapSpace c = true) (hg' : ∀ c ∈ g', isGapSpace c = true)
    (hopens : ∃ c cs, (Lexeme.sign opening).text = c :: cs ∧ opens c = true)
    (hopen : ∀ r, Before opening (g ++ r)) (hclose : ∀ {r}, Delimits r → Before closing r)
    (hinner : ∀ r, Delimits (g' ++ r)) (hbody : ∀ {r}, Delimits r → Scans (body ++ r) ws r) :
    Writes text (Lexeme.sign opening :: (ws ++ [Lexeme.sign closing])) := by
  subst htext
  obtain ⟨c, cs, hsign, hc⟩ := hopens
  refine ⟨⟨c, cs ++ _, by rw [hsign]; rfl, hc⟩, fun {r} hr => ?_⟩
  simp only [List.append_assoc]
  have hend : Scans (g' ++ ((Lexeme.sign closing).text ++ r)) [Lexeme.sign closing] r :=
    Scans.gap hg' (by simp) ((hclose hr).scans rfl)
  exact (hopen _).scans (Scans.gap hg (by simp) ((hbody (hinner _)).append hend))

/-- A sequence between two signs, with a space inside each of them. -/
theorem writes_spaced {opening closing : Token.Kind} {text body : List Char} {ws : List Lexeme}
    (htext : text = (Lexeme.sign opening).text ++ ' ' :: (body ++ ' ' :: (Lexeme.sign closing).text))
    (hopens : ∃ c cs, (Lexeme.sign opening).text = c :: cs ∧ opens c = true)
    (hopen : ∀ r, Before opening (' ' :: r)) (hclose : ∀ {r}, Delimits r → Before closing r)
    (hbody : ∀ {r}, Delimits r → Scans (body ++ r) ws r) :
    Writes text (Lexeme.sign opening :: (ws ++ [Lexeme.sign closing])) :=
  writes_enclosed [' '] [' '] htext gap_space gap_space hopens hopen hclose (fun _ => delimits_of_mem (by decide)) hbody

namespace Writes

variable {t u : List Char} {ws vs : List Lexeme}

theorem ne_nil (h : Writes t ws) : ws ≠ [] := by
  rintro rfl
  obtain ⟨c, cs, rfl, _⟩ := h.opens
  have h₀ : c :: cs ++ [] = [] := h.scans (.inl rfl)
  cases h₀

theorem opens_append (h : Writes t ws) (r : List Char) : ∃ c cs, t ++ r = c :: cs ∧ Lexeme.opens c = true := by
  obtain ⟨c, cs, rfl, hc⟩ := h.opens
  exact ⟨c, cs ++ r, rfl, hc⟩

/-- A sign in front of a text whose beginning does not lengthen it. -/
theorem behind {k : Token.Kind} (hk : ∃ c cs, (Lexeme.sign k).text = c :: cs ∧ Lexeme.opens c = true)
    (hbefore : ∀ {c r}, Lexeme.opens c = true → Before k (c :: r)) (h : Writes t ws) :
    Writes ((Lexeme.sign k).text ++ t) (Lexeme.sign k :: ws) := by
  obtain ⟨c, cs, hsign, hc⟩ := hk
  refine ⟨⟨c, cs ++ t, by rw [hsign]; rfl, hc⟩, fun {r} hr => ?_⟩
  obtain ⟨d, ds, hcons, hd⟩ := h.opens_append r
  have hsign : Before k (t ++ r) := by
    rw [hcons]
    exact hbefore hd
  rw [List.append_assoc]
  exact hsign.scans (h.scans hr)

theorem unary (op : UnaryOp) {a : String} (h : Writes a.toList ws) : Writes (op.write a).toList (op.words ws) := by
  cases op with
  | plus =>
    rw [UnaryOp.write, String.toList_append]
    exact h.behind (k := .plus) ⟨'+', [], rfl, rfl⟩ fun _ => before_of_complete (by decide)
  | minus =>
    rw [UnaryOp.write, String.toList_append]
    exact h.behind ⟨'-', [], rfl, rfl⟩ before_minus
  | not =>
    rw [UnaryOp.write, String.toList_append]
    exact h.behind ⟨'!', [], rfl, rfl⟩ before_bang
  | bitNot =>
    rw [UnaryOp.write, String.toList_append]
    exact h.behind (k := .tilde) ⟨'~', [], rfl, rfl⟩ fun _ => before_of_complete (by decide)
  | group =>
    exact writes_spaced (by simp [UnaryOp.write, Lexeme.sign]; rfl) ⟨'(', [], rfl, rfl⟩ (fun _ => rfl) (fun _ => rfl) h.scans
  | startingAt =>
    refine ⟨by simpa [UnaryOp.write] using h.opens_append _, fun {r} hr => ?_⟩
    simp only [UnaryOp.write, String.toList_append, List.append_assoc]
    exact (h.scans delimits_dots).append (.sign (k := .dots) (by decide) rfl)
  | endingAt =>
    rw [UnaryOp.write, String.toList_append]
    exact h.behind (k := .dots) ⟨'.', ['.'], rfl, rfl⟩ fun _ => before_of_complete (by decide)

/-- Every sign but `..` stands between spaces, so it is read whatever the operands are. -/
theorem binary (op : BinaryOp) {a b : String} (ha : Writes a.toList ws) (hb : Writes b.toList vs) :
    Writes (op.write a b).toList (ws ++ Lexeme.sign op.sign :: vs) := by
  have hrange : op = .range ∨ (op.write a b = a ++ " " ++ op.symbol ++ " " ++ b ∧
      op.symbol.toList = (Lexeme.sign op.sign).text ∧ ∀ r, Before op.sign (' ' :: r)) := by
    cases op with
    | range => exact .inl rfl
    | _ => exact .inr ⟨rfl, rfl, fun r => rfl⟩
  rcases hrange with rfl | ⟨hwrite, hsymbol, hbefore⟩
  · refine ⟨by simpa [BinaryOp.write] using ha.opens_append _, fun hr => ?_⟩
    simp only [BinaryOp.write, String.toList_append, List.append_assoc]
    exact (ha.scans delimits_dots).append (.sign (k := .dots) (by decide) (hb.scans hr))
  · refine ⟨by simpa [hwrite] using ha.opens_append _, fun {r} hr => ?_⟩
    simp only [hwrite, hsymbol, String.toList_append, List.append_assoc]
    have hright : Scans (' ' :: (b.toList ++ r)) vs r := Scans.space hb.ne_nil (hb.scans hr)
    have hsign := Scans.space (by simp) ((hbefore _).scans hright)
    exact (ha.scans (delimits_of_mem (c := ' ') (by decide))).append hsign

end Writes

/-! ## Sequences -/

/-- A text that falls into words, maybe after a gap, before everything that may follow an expression. -/
structure Falls (text : List Char) (ws : List Lexeme) : Prop where
  ne_nil : ws ≠ []
  scans {r : List Char} : Delimits r → Scans (text ++ r) ws r

theorem Writes.falls {t : List Char} {ws : List Lexeme} (h : Writes t ws) : Falls t ws := ⟨h.ne_nil, h.scans⟩

theorem Falls.gap {g t : List Char} {ws : List Lexeme} (hg : ∀ c ∈ g, isGapSpace c = true) (h : Falls t ws) :
    Falls (g ++ t) ws := ⟨h.ne_nil, fun hr => by rw [List.append_assoc]; exact Scans.gap hg h.ne_nil (h.scans hr)⟩

theorem Writes.key (k : String) {t : String} {ws : List Lexeme} (h : Writes t.toList ws) :
    Writes (Text.quote k ++ ": " ++ t).toList (entryWords k ws) := by
  refine ⟨⟨'"', Text.escape k.toList ++ '"' :: ':' :: ' ' :: t.toList, by simp [Text.quote], rfl⟩, fun hr => ?_⟩
  simp only [String.toList_append, List.append_assoc]
  exact (h.scans hr).key k h.ne_nil

/-- Pieces with a comma and a gap between them fall into their words with commas between them. -/
theorem scans_intercalate {g : String} (hg : ∀ c ∈ g.toList, isGapSpace c = true) {parts : List String}
    {wss : List (List Lexeme)} (h : List.Forall₂ (fun p ws => Falls p.toList ws) parts wss) {r : List Char}
    (hr : Delimits r) : Scans ((("," ++ g).intercalate parts).toList ++ r) (separate wss) r := by
  induction h with
  | nil => rfl
  | @cons p ws parts wss hp hparts ih =>
    cases hparts with
    | nil =>
      rw [String.intercalate_singleton]
      exact hp.scans hr
    | @cons q vs parts wss hq hparts =>
      have hne : separate (vs :: wss) ≠ [] := by
        cases wss with
        | nil => exact hq.ne_nil
        | cons => simp [separate]
      rw [String.intercalate_cons_cons]
      simp only [String.toList_append, List.append_assoc]
      have hrest := Scans.sign (k := .comma) (by decide) (Scans.gap hg hne ih)
      exact (hp.scans (delimits_of_mem (c := ',') (by decide))).append hrest

theorem Writes.subscripts {a : String} {ws : List Lexeme} {parts : List String} {wss : List (List Lexeme)}
    (ha : Writes a.toList ws) (h : List.Forall₂ (fun p ws => Falls p.toList ws) parts wss) :
    Writes (a ++ "[" ++ ", ".intercalate parts ++ "]").toList
      (ws ++ Lexeme.sign .openBracket :: (separate wss ++ [Lexeme.sign .closeBracket])) := by
  refine ⟨by simpa using ha.opens_append _, fun {r} hr => ?_⟩
  simp only [String.toList_append, List.append_assoc]
  have hclose : Scans (']' :: r) [Lexeme.sign .closeBracket] r := Scans.sign (k := .closeBracket) (by decide) rfl
  have hindices := (scans_intercalate (g := " ") gap_space h (delimits_of_mem (c := ']') (by decide))).append hclose
  exact (ha.scans (delimits_of_mem (c := '[') (by decide))).append (.sign (k := .openBracket) (by decide) hindices)

theorem Writes.subscript {a b : String} {ws vs : List Lexeme} (ha : Writes a.toList ws) (hb : Writes b.toList vs) :
    Writes (a ++ "[" ++ b ++ "]").toList (ws ++ Lexeme.sign .openBracket :: (vs ++ [Lexeme.sign .closeBracket])) := by
  simpa [separate] using ha.subscripts (.cons hb.falls .nil)

/-! ## Whole trees -/

mutual

theorem Expr.writes : ∀ {e : Expr}, e.Each Expr.Printable → Writes e.text.toList e.words
  | .literal _ v, h => (Expr.each_literal.1 h).writes
  | .var _ n, h => (Expr.each_var.1 h).writes
  | .array _ items, h => by
    rw [Expr.words, wordsOf_eq]
    exact writes_spaced (by simp [Expr.text, Lexeme.sign]; rfl) ⟨'[', [], rfl, rfl⟩ (fun _ => rfl) (fun _ => rfl)
      (scans_intercalate (g := " ") gap_space (writes_items (Expr.each_array.1 h).2))
  | .map _ es, h => by
    rw [Expr.words, wordsOfEntries_eq]
    exact writes_spaced (by simp [Expr.text, Lexeme.sign]; rfl) ⟨'\x7b', [], rfl, rfl⟩ (fun _ => rfl) before_closeBrace
      (scans_intercalate (g := " ") gap_space (writes_entries (Expr.each_map.1 h).2))
  | .unary _ op _, h => (Expr.writes (Expr.each_unary.1 h).2).unary op
  | .binary _ op _ _, h => (Expr.writes (Expr.each_binary.1 h).2.1).binary op (Expr.writes (Expr.each_binary.1 h).2.2)
  | .subscript _ _ _, h =>
    (Expr.writes (Expr.each_subscript.1 h).2.1).subscript (Expr.writes (Expr.each_subscript.1 h).2.2)
  | .switch _ cases, h => by
    rw [Expr.words, wordsOf_eq]
    exact writes_spaced (by simp [Expr.text, Lexeme.sign]; rfl) ⟨'\x7b', ['\x7b'], rfl, rfl⟩ (fun _ => rfl) (fun _ => rfl)
      (scans_intercalate (g := " ") gap_space (writes_items (Expr.each_switch.1 h).2))

theorem writes_items : ∀ {es : List Expr}, (∀ e ∈ es, e.Each Expr.Printable) →
    List.Forall₂ (fun p ws => Falls p.toList ws) (exprTexts es) (es.map Expr.words)
  | [], _ => .nil
  | e :: es, h => by
    obtain ⟨he, hes⟩ := List.forall_mem_cons.1 h
    exact .cons (Expr.writes he).falls (writes_items hes)

theorem writes_entries : ∀ {es : List (String × Expr)}, (∀ f ∈ es, f.2.Each Expr.Printable) →
    List.Forall₂ (fun p ws => Falls p.toList ws) (entryTexts es) (es.map fun f => entryWords f.1 f.2.words)
  | [], _ => .nil
  | (k, e) :: es, h => by
    obtain ⟨he, hes⟩ := List.forall_mem_cons.1 h
    exact .cons ((Expr.writes he).key k).falls (writes_entries hes)

end

end ExprLang
