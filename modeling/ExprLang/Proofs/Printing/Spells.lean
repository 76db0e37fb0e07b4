import ExprLang.Proofs.Printing.Operands
import ExprLang.Proofs.Printing.Values

/-!
# Texts that are read as an expression

A text spells an expression if it is read as that, up to locations, in every place where it may stand
(`Spells`). Each way of putting texts together puts expressions together: one lemma for each kind of node.
An index may also be an open range (`SpellsIndex`).
-/

namespace ExprLang

open Lexeme

/-! ## Texts of expressions -/

/-- A text falls into words that show an expression. -/
def Spells (text : List Char) (r : Expr) : Prop := ∃ ws, Writes text ws ∧ Row ws r

/-- A text falls into words off which an index is read. -/
def SpellsIndex (text : List Char) (i : Expr) : Prop :=
  ∃ ws, Writes text ws ∧ ReadOff (.item .index) (fun u i => u.unplaced = i) ws i

/-- A text that is read as an expression from end to end. -/
theorem Expr.parse_of_spells {text : String} {r : Expr} (h : Spells text.toList r) :
    ∃ u, parse text = .ok u ∧ u.unplaced = r := by
  obtain ⟨ws, hwrites, hrow⟩ := h
  have hscans : Scans text.toList ws [] := by simpa using hwrites.scans (.inl rfl : Delimits [])
  exact parse_of_scans hscans hrow.readOff

theorem PhraseOff.spells {ws : List Lexeme} {text : List Char} {r : Expr} (hwrites : Writes text ws)
    (h : PhraseOff .simple ws r) (hr : r.standsApart = true) (hbinary : r.isBinary = false)
    (hswitch : r.isSwitch = false) : Spells text r :=
  ⟨ws, hwrites, .operand hbinary (h.operand (Expr.takesSubscripts_of_standsApart hr) hswitch)⟩

theorem spells_literal {l : Lexeme} {v : Value} (hl : l.Firm) (hk : l.kind ∈ Token.Kind.literals)
    (hv : ∀ t : Token, t.kind = l.kind → t.data = l.data → t.literal = .ok v) : Spells l.text (.literal none v) := by
  refine PhraseOff.spells hl.writes (fun s s' hs => ?_) rfl rfl rfl
  obtain ⟨c, t, rest, rfl, ⟨hkind, hdata⟩, rfl⟩ := Tokens.shows_cons.1 hs
  exact ⟨_, .literal (by rw [hkind]; exact hk) (hv t hkind hdata), rfl⟩

theorem spells_name {cs : List Char} (h : (⟨.name, cs⟩ : Lexeme).Firm) : Spells cs (.var none (String.ofList cs)) := by
  refine PhraseOff.spells h.writes (fun s s' hs => ?_) rfl rfl rfl
  obtain ⟨c, t, rest, rfl, ⟨hkind, hdata⟩, rfl⟩ := Tokens.shows_cons.1 hs
  have hword : t.word = String.ofList cs := by
    rw [Token.word, if_neg (by rw [hkind]; exact Token.Kind.noConfusion), hdata]
    rfl
  exact ⟨_, .name hkind, by rw [hword]; rfl⟩

namespace Spells

variable {a b : String} {r q : Expr}

theorem index (h : Spells a.toList r) : SpellsIndex a.toList r :=
  let ⟨_, hwrites, hrow⟩ := h
  ⟨_, hwrites, hrow.readOff.item⟩

theorem startingAt (h : Spells a.toList r) :
    SpellsIndex (UnaryOp.startingAt.write a).toList (.unary none .startingAt r) := by
  obtain ⟨ws, hwrites, hrow⟩ := h
  refine ⟨_, hwrites.unary .startingAt, fun s s' hs hc => ?_⟩
  obtain ⟨c, t, hk, hs⟩ := Tokens.Shows.sign hs
  have hstop : (Tokens.token c t s').Stops := ⟨t, rfl, .inr ⟨hk, hc.not_term⟩⟩
  obtain ⟨u, hu, rfl⟩ := hrow.reads hs hstop ⟨t, rfl, by simp [hk]⟩
  exact ⟨_, .startingAt hu hk, rfl⟩

theorem endingAt (h : Spells a.toList r) : SpellsIndex (UnaryOp.endingAt.write a).toList (.unary none .endingAt r) := by
  obtain ⟨ws, hwrites, hrow⟩ := h
  refine ⟨_, hwrites.unary .endingAt, fun s s' hs hc => ?_⟩
  obtain ⟨c, t, rest, rfl, ⟨hk, _⟩, hs⟩ := Tokens.shows_cons.1 hs
  obtain ⟨u, hu, rfl⟩ := hrow.reads hs hc.stops hc.ready
  exact ⟨_, .endingAt hk hu, rfl⟩

theorem sign {op : UnaryOp} (hop : op.isSign = true) (h : Spells a.toList r) (hr : r.isBinary = false) :
    Spells (op.write a).toList (.unary none op r) := by
  obtain ⟨ws, hwrites, hrow⟩ := h
  exact ⟨_, hwrites.unary op, .operand rfl ((hrow.operandOff hr).sign hop)⟩

theorem group (h : Spells a.toList r) : Spells (UnaryOp.group.write a).toList (.unary none .group r) := by
  obtain ⟨ws, hwrites, hrow⟩ := h
  refine PhraseOff.spells (hwrites.unary .group) (fun s s' hs => ?_) rfl rfl rfl
  obtain ⟨c, t, rest, rfl, ⟨hk, _⟩, hs⟩ := Tokens.shows_cons.1 hs
  obtain ⟨c', t', hk', hs⟩ := hs.sign
  have hcloses : (Tokens.token c' t' s').Closes := ⟨t', rfl, by simp [hk']⟩
  obtain ⟨u, hu, rfl⟩ := hrow.readOff _ _ hs hcloses
  exact ⟨_, .group hk hu hk', rfl⟩

theorem binary {op : BinaryOp} (ha : Spells a.toList r) (hb : Spells b.toList q) (hr : op.precedence ≤ r.precedence)
    (hq : op.precedence < q.precedence) : Spells (op.write a b).toList (.binary none op r q) := by
  obtain ⟨ws, hwrites, hrow⟩ := ha
  obtain ⟨vs, hwrites', hrow'⟩ := hb
  exact ⟨_, hwrites.binary op hwrites', .binary hr hq hrow hrow'⟩

end Spells

/-! ## Texts of sequences -/

section Sequences

variable {parts : List String} {rs : List Expr} {fs : Entries Expr}

/-- What is related through something, one by one, is related through a list. -/
theorem exists_forall₂_between {α β γ : Type} {R : α → β → Prop} {S : β → γ → Prop} {as : List α} {cs : List γ}
    (h : List.Forall₂ (fun a c => ∃ b, R a b ∧ S b c) as cs) : ∃ bs, List.Forall₂ R as bs ∧ List.Forall₂ S bs cs := by
  induction h with
  | nil => exact ⟨[], .nil, .nil⟩
  | cons hfirst _ ih =>
    obtain ⟨b, hr, hs⟩ := hfirst
    obtain ⟨bs, hrs, hss⟩ := ih
    exact ⟨b :: bs, .cons hr hrs, .cons hs hss⟩

theorem exists_words (h : List.Forall₂ (fun p r => Spells p.toList r) parts rs) :
    ∃ wss, List.Forall₂ (fun p ws => Writes p.toList ws) parts wss ∧
      List.Forall₂ (ReadOff .expression fun u r => u.unplaced = r) wss rs :=
  exists_forall₂_between (h.imp fun _ _ ⟨ws, hwrites, hrow⟩ => ⟨ws, hwrites, hrow.readOff⟩)

/-- A subscript of any number of indices. -/
theorem Spells.subscripts {a : String} {r : Expr} {is : List Expr} (ha : Spells a.toList r)
    (h : List.Forall₂ (fun p i => SpellsIndex p.toList i) parts is) (hr : r.isBinary = false)
    (hswitch : r.isSwitch = false) :
    Spells (a ++ "[" ++ ", ".intercalate parts ++ "]").toList (r.applied (.ofIndices none is)) := by
  obtain ⟨ws, hwrites, hrow⟩ := ha
  obtain ⟨wss, hfalls, hreads⟩ := exists_forall₂_between (h.imp fun _ _ ⟨ws, hwrites, hread⟩ => ⟨ws, hwrites.falls, hread⟩)
  exact ⟨_, hwrites.subscripts hfalls,
    .operand (Expr.applied_not_binary r _) ((hrow.operandOff hr).subscripts hswitch hreads)⟩

theorem Spells.subscript {a b : String} {r q : Expr} (ha : Spells a.toList r) (hb : SpellsIndex b.toList q)
    (hr : r.isBinary = false) (hswitch : r.isSwitch = false) : Spells (a ++ "[" ++ b ++ "]").toList (r.applied q) := by
  simpa [Expr.ofIndices] using ha.subscripts (.cons hb .nil) hr hswitch

/-- A key, a colon and a text. -/
def SpellsEntry (p : String) (f : String × Expr) : Prop := ∃ t : String, p = Text.quote f.1 ++ ": " ++ t ∧ Spells t.toList f.2

theorem exists_entryWords (h : List.Forall₂ SpellsEntry parts fs) :
    ∃ wss, List.Forall₂ (fun p ws => Writes p.toList ws) parts wss ∧
      List.Forall₂ (fun ws f => ∃ vs, ws = entryWords f.1 vs ∧ ReadOff .expression (fun u r => u.unplaced = r) vs f.2)
        wss fs :=
  exists_forall₂_between (h.imp fun _ f ⟨_, htext, ws, hwrites, hrow⟩ =>
    ⟨entryWords f.1 ws, by rw [htext]; exact hwrites.key f.1, ws, rfl, hrow.readOff⟩)

theorem unplacedEntries_of_forall₂ {us : Entries Expr}
    (h : List.Forall₂ (fun f g => f.1 = g.1 ∧ f.2.unplaced = g.2) us fs) : unplacedEntries us = fs := by
  induction h with
  | nil => rfl
  | @cons f g us fs hfirst _ ih =>
    rw [unplacedEntries, hfirst.1, hfirst.2, ih]

/-- Items between brackets are read as an array. -/
theorem arrayOff {wss : List (List Lexeme)} (h : List.Forall₂ (ReadOff .expression fun u r => u.unplaced = r) wss rs) :
    PhraseOff .simple (Lexeme.sign .openBracket :: (separate wss ++ [Lexeme.sign .closeBracket])) (.array none rs) := by
  intro s s' hs
  obtain ⟨c, t, rest, rfl, ⟨hk, _⟩, hs⟩ := Tokens.shows_cons.1 hs
  obtain ⟨us, hus, heq⟩ := list_of_words (k := .element) (h.imp fun _ _ h => h.item) hs
  exact ⟨_, .array hk hus, congrArg (Expr.array none) (unplacedItems_of_forall₂ heq)⟩

theorem mapOff {wss : List (List Lexeme)} (h : List.Forall₂ (fun ws f =>
    ∃ vs, ws = entryWords f.1 vs ∧ ReadOff .expression (fun u r => u.unplaced = r) vs f.2) wss fs)
    (hnodup : Entries.Nodup fs) :
    PhraseOff .simple (Lexeme.sign .openBrace :: (separate wss ++ [Lexeme.sign .closeBrace])) (.map none fs) := by
  intro s s' hs
  obtain ⟨c, t, rest, rfl, ⟨hk, _⟩, hs⟩ := Tokens.shows_cons.1 hs
  obtain ⟨us, hus, heq⟩ := map_of_words h hnodup hs
  exact ⟨_, .mapping hk hus, congrArg (Expr.map none) (unplacedEntries_of_forall₂ heq)⟩

theorem switchOff {wss : List (List Lexeme)} (h : List.Forall₂ (ReadOff .expression fun u r => u.unplaced = r) wss rs) :
    OperandOff (Lexeme.sign .openSwitch :: (separate wss ++ [Lexeme.sign .closeSwitch])) (.switch none rs) := by
  rintro s m s' subs hs ⟨rfl, rfl⟩
  obtain ⟨c, t, rest, rfl, ⟨hk, _⟩, hs⟩ := Tokens.shows_cons.1 hs
  obtain ⟨us, hus, heq⟩ := list_of_words (k := .case) (h.imp fun _ _ h => h.item) hs
  exact ⟨_, .switch hk hus, congrArg (Expr.switch none) (unplacedItems_of_forall₂ heq)⟩

theorem spells_array (h : List.Forall₂ (fun p r => Spells p.toList r) parts rs) :
    Spells (Layout.line.bracket "[" "]" parts).toList (.array none rs) := by
  obtain ⟨wss, hwrites, hreads⟩ := exists_words h
  exact (arrayOff hreads).spells (Layout.line.writes_bracket .openBracket .closeBracket rfl rfl ⟨'[', [], rfl, rfl⟩
    (fun _ => rfl) (fun _ => rfl) hwrites) rfl rfl rfl

theorem spells_emptyArray : Spells "[]".toList (.array none []) := by
  refine (arrayOff .nil).spells ⟨⟨'[', [']'], rfl, rfl⟩, fun _ => ?_⟩ rfl rfl rfl
  exact .sign (k := .openBracket) (by decide) (.sign (k := .closeBracket) (by decide) rfl)

theorem spells_emptyMap : Spells "\x7b\x7d".toList (.map none []) := by
  refine (mapOff .nil .nil).spells ⟨⟨'\x7b', ['\x7d'], rfl, rfl⟩, fun hr => ?_⟩ rfl rfl rfl
  exact Before.scans (k := .openBrace) rfl ((before_closeBrace hr).scans rfl)

/-- Brackets without spaces inside them. -/
theorem Spells.bracketed {a : String} {r : Expr} (h : Spells a.toList r) :
    Spells ("[" ++ a ++ "]").toList (.array none [r]) := by
  obtain ⟨ws, hwrites, hrow⟩ := h
  have hitems : List.Forall₂ (ReadOff .expression fun u r => u.unplaced = r) [ws] [r] := .cons hrow.readOff .nil
  refine (arrayOff hitems).spells ⟨⟨'[', a.toList ++ [']'], by simp, rfl⟩, fun {r} _ => ?_⟩ rfl rfl rfl
  have hclose : Scans (']' :: r) [Lexeme.sign .closeBracket] r := Scans.sign (k := .closeBracket) (by decide) rfl
  have hbody := (hwrites.scans (delimits_of_mem (c := ']') (by decide))).append hclose
  simp only [String.toList_append, List.append_assoc]
  exact .sign (k := .openBracket) (by decide) hbody

theorem spells_map (h : List.Forall₂ SpellsEntry parts fs) (hnodup : Entries.Nodup fs) :
    Spells (Layout.line.bracket "\x7b" "\x7d" parts).toList (.map none fs) := by
  obtain ⟨wss, hwrites, hreads⟩ := exists_entryWords h
  exact (mapOff hreads hnodup).spells (Layout.line.writes_bracket .openBrace .closeBrace rfl rfl ⟨'\x7b', [], rfl, rfl⟩
    before_openBrace before_closeBrace hwrites) rfl rfl rfl

theorem spells_switch (h : List.Forall₂ (fun p r => Spells p.toList r) parts rs) :
    Spells (Layout.line.bracket "\x7b\x7b" "\x7d\x7d" parts).toList (.switch none rs) := by
  obtain ⟨wss, hwrites, hreads⟩ := exists_words h
  exact ⟨_, Layout.line.writes_bracket .openSwitch .closeSwitch rfl rfl ⟨'\x7b', ['\x7b'], rfl, rfl⟩ (fun _ => rfl)
    (fun _ => rfl) hwrites, .operand rfl (switchOff hreads)⟩

end Sequences

end ExprLang
