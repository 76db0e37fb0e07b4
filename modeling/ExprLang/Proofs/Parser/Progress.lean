import ExprLang.Proofs.Cuts
import ExprLang.Proofs.Parser.Taken

/-!
# Who calls whom

The functions of the grammar, and those that read model lists, call each other and themselves; their loops are
recursions, too. `Calls` says who calls whom and what has been read before. A call takes tokens off, or else it leaves
them and goes to a function of lower rank (`Calls.advances`). So the only way back to a function leads past a token
(`advances_of_cycle`), and with it the cursor moves on (`Tokens.offset_lt_of_drops`).
-/

namespace ExprLang

open Relation (ReflTransGen TransGen)

/-! ## Tokens that are taken off -/

namespace Tokens

variable {s s' : Tokens}

theorem length_lt_of_drops (h : TransGen Drops s s') : s'.length < s.length := by
  have hstep : ∀ {u w : Tokens}, u.Drops w → w.length < u.length := by
    rintro _ w ⟨c, t, rfl⟩
    exact Nat.lt_succ_self _
  induction h with
  | single h => exact hstep h
  | tail _ h ih => exact (hstep h).trans ih

/-! ### In a text -/

/-- The stream is what is read from its cursor on. -/
def Sourced (s : Tokens) : Prop := s = read s.cursor

theorem sourced_read (c : Cursor) : (read c).Sourced := by rw [Sourced, cursor_read]

theorem Drops.sourced (h : s.Drops s') (hs : s.Sourced) : s'.Sourced ∧ s.cursor.offset < s'.cursor.offset := by
  obtain ⟨c, t, rfl⟩ := h
  have hread : token c t s' = read c := hs
  cases hfront : Lexeme.front c.skipGap.rest with
  | lexeme l rest =>
    rw [read_lexeme hfront] at hread
    injection hread with _ _ hrest
    rw [hrest, Sourced, cursor_read]
    refine ⟨rfl, ?_⟩
    have hpos := Text.byteSize_pos (Lexeme.front_lexeme hfront).1
    show c.offset < c.offset + Text.byteSize (Lexeme.gap c.rest).1 + Text.byteSize l.text
    omega
  | ended | fault =>
    rw [read_of_not_lexeme (by rw [hfront]; exact fun _ _ => Lexeme.Front.noConfusion)] at hread
    cases hread

theorem sourced_of_drops (h : ReflTransGen Drops s s') (hs : s.Sourced) : s'.Sourced := by
  induction h with
  | refl => exact hs
  | tail _ hstep ih => exact (hstep.sourced ih).1

theorem offset_lt_of_drops (h : TransGen Drops s s') (hs : s.Sourced) : s.cursor.offset < s'.cursor.offset := by
  induction h with
  | single h => exact (h.sourced hs).2
  | tail h hstep ih => exact ih.trans (hstep.sourced (sourced_of_drops h.to_reflTransGen hs)).2

/-- A token takes a byte of the text at least. -/
theorem length_read_le (c : Cursor) : (read c).length ≤ Text.byteSize c.rest := by
  fun_induction read c with
  | case1 c l rest hl _ ih =>
    have hpos := Text.byteSize_pos (Lexeme.front_lexeme hl).1
    have hgap := congrArg Text.byteSize (Lexeme.gap_append c.rest)
    have hlexeme := congrArg Text.byteSize (Lexeme.front_lexeme hl).2
    rw [Text.byteSize_append] at hgap hlexeme
    have hrest : (read (c.skipGap.past l.text rest)).length ≤ Text.byteSize rest := ih
    have hskip : c.skipGap.rest = (Lexeme.gap c.rest).2 := rfl
    rw [hskip] at hlexeme
    rw [length]
    omega
  | case2 => exact Nat.zero_le _

end Tokens

/-! ## What a phrase takes off -/

namespace Reads

variable {p : Phrase} {s s' : Tokens} {e : Expr} {kind : Item}

theorem drops_simple (h : Reads (.simple e) s s') : TransGen Tokens.Drops s s' := by
  cases h with
  | unary _ h | array _ h | mapping _ h => exact .head' (Tokens.drops_token _ _ _) h.drops
  | group _ h => exact .head' (Tokens.drops_token _ _ _) (h.drops.tail (Tokens.drops_token _ _ _))
  | name | literal => exact .single (Tokens.drops_token _ _ _)

theorem drops_term (h : Reads (.term e) s s') : TransGen Tokens.Drops s s' := by
  cases h with
  | switch _ h => exact .head' (Tokens.drops_token _ _ _) h.drops
  | term hb hsubs => exact hb.drops_simple.trans_left hsubs.drops

end Reads

/-! ## Calls -/

namespace Parser

/-- The functions that call each other, whatever they are given besides the tokens. -/
inductive Routine where
  | expression | operators | term | subscripts | simple | list | items | item | map | entries
  /-- The entries of a model list, and the keys of a dynamic one. -/
  | modelEntries | modelKeys
deriving DecidableEq

/-- At most so many calls follow each other before a token is taken off. -/
def Routine.rank : Routine → Nat
  | modelKeys => 0
  | operators | subscripts | simple | entries | modelEntries => 1
  | term | map => 2
  | expression => 3
  | item => 4
  | items => 5
  | list => 6

/-- The calls that a function makes with these tokens, each with the tokens that are left for it. -/
inductive Calls : Routine × Tokens → Routine × Tokens → Prop
  | firstTerm {s : Tokens} : Calls (.expression, s) (.term, s)
  | afterTerm {d : Nat} {s s₁ : Tokens} {e : Expr} : term d s = .ok (e, s₁) → Calls (.expression, s) (.operators, s₁)
  | operand {s : Tokens} {t : Token} {op : BinaryOp} : s.head = .ok t → BinaryOp.ofKind? t.kind = some op →
      Calls (.operators, s) (.term, s.tail)
  | nextOperator {d : Nat} {s s₁ : Tokens} {t : Token} {op : BinaryOp} {e : Expr} : s.head = .ok t →
      BinaryOp.ofKind? t.kind = some op → term d s.tail = .ok (e, s₁) → Calls (.operators, s) (.operators, s₁)
  | cases {s : Tokens} {t : Token} : s.head = .ok t → t.kind = .openSwitch → Calls (.term, s) (.list, s.tail)
  | simple {s : Tokens} : Calls (.term, s) (.simple, s)
  | afterSimple {d : Nat} {s s₁ : Tokens} {e : Expr} : simple d s = .ok (e, s₁) → Calls (.term, s) (.subscripts, s₁)
  | indices {s : Tokens} {t : Token} : s.head = .ok t → t.kind = .openBracket → Calls (.subscripts, s) (.list, s.tail)
  | nextSubscript {d : Nat} {s s₁ : Tokens} {t : Token} {es : List Expr} : s.head = .ok t → t.kind = .openBracket →
      list d .index s.tail = .ok (es, s₁) → Calls (.subscripts, s) (.subscripts, s₁)
  | unary {s : Tokens} {t : Token} {op : UnaryOp} : s.head = .ok t → UnaryOp.ofKind? t.kind = some op →
      Calls (.simple, s) (.term, s.tail)
  | group {s : Tokens} {t : Token} : s.head = .ok t → t.kind = .openParen → Calls (.simple, s) (.expression, s.tail)
  | array {s : Tokens} {t : Token} : s.head = .ok t → t.kind = .openBracket → Calls (.simple, s) (.list, s.tail)
  | mapping {s : Tokens} {t : Token} : s.head = .ok t → t.kind = .openBrace → Calls (.simple, s) (.map, s.tail)
  | items {s : Tokens} : Calls (.list, s) (.items, s)
  | item {s : Tokens} : Calls (.items, s) (.item, s)
  | nextItem {d : Nat} {kind : Item} {s s₁ : Tokens} {t : Token} {e : Expr} : Parser.item d kind s = .ok (e, s₁) →
      s₁.head = .ok t → t.kind = .comma → Calls (.items, s) (.items, s₁.tail)
  | content {s : Tokens} : Calls (.item, s) (.expression, s)
  | endingAt {s : Tokens} {t : Token} : s.head = .ok t → t.kind = .dots → Calls (.item, s) (.expression, s.tail)
  | rangeEnd {d : Nat} {s s₁ : Tokens} {t : Token} {e : Expr} : expression d s = .ok (e, s₁) → s₁.head = .ok t →
      t.kind = .dots → Calls (.item, s) (.expression, s₁.tail)
  | entries {s : Tokens} : Calls (.map, s) (.entries, s)
  | entryValue {s : Tokens} {key colon : Token} : s.head = .ok key → key.kind ∈ [Token.Kind.string, .name] →
      s.tail.head = .ok colon → colon.kind = .colon → Calls (.entries, s) (.expression, s.tail.tail)
  | nextEntry {d : Nat} {s s₁ : Tokens} {key colon t : Token} {e : Expr} : s.head = .ok key →
      key.kind ∈ [Token.Kind.string, .name] → s.tail.head = .ok colon → colon.kind = .colon →
      expression d s.tail.tail = .ok (e, s₁) → s₁.head = .ok t → t.kind = .comma → Calls (.entries, s) (.entries, s₁.tail)
  | modelKeys {s : Tokens} : Calls (.modelEntries, s) (.modelKeys, s)
  | nextStatic {s s₁ : Tokens} {t : Token} {e : Expr} : ModelList.staticEntry s = .ok (e, s₁) → s₁.head = .ok t →
      t.kind = .comma → Calls (.modelEntries, s) (.modelEntries, s₁.tail)
  | nextDynamic {d : Nat} {s s₁ : Tokens} {t : Token} {e : Expr} : ModelList.dynamicEntry d s = .ok (e, s₁) →
      s₁.head = .ok t → t.kind = .comma → Calls (.modelEntries, s) (.modelEntries, s₁.tail)
  | nextKey {s : Tokens} {key sign name : Token} : s.head = .ok key → key.kind = .name → s.tail.head = .ok sign →
      sign.kind = .assign → s.tail.tail.head = .ok name → name.kind = .string →
      Calls (.modelKeys, s) (.modelKeys, s.tail.tail.tail)

/-- Of the tokens a call leaves some less, or all to a function of lower rank. -/
theorem Calls.advances {f g : Routine} {s s' : Tokens} (h : Calls (f, s) (g, s')) (hs : s.Wf) :
    TransGen Tokens.Drops s s' ∨ s' = s ∧ g.rank < f.rank := by
  -- behind a comma or another sign that is not the end of the input
  have hcomma : ∀ {s₁ : Tokens} {t : Token}, ReflTransGen Tokens.Drops s s₁ → s₁.head = .ok t → t.kind = .comma →
      TransGen Tokens.Drops s s₁.tail := fun hfirst ht hk =>
    .tail' hfirst ((Tokens.wf_of_drops hfirst hs).drops ht (by simp [hk]))
  have hsign : ∀ {t : Token} {k : Token.Kind}, s.head = .ok t → t.kind = k → k ≠ .endOfInput → s.Drops s.tail :=
    fun ht hk hne => hs.drops ht (by rwa [hk])
  cases h with
  | firstTerm | simple | items | item | content | entries | modelKeys => exact .inr ⟨rfl, by decide⟩
  | afterTerm ht => exact .inl ((sound _).term hs ht).drops_term
  | operand ht hop => exact .inl (.single (hs.drops ht fun he => by simp [he, BinaryOp.ofKind?] at hop))
  | nextOperator ht hop hterm =>
    have hfirst := hs.drops ht fun he => by simp [he, BinaryOp.ofKind?] at hop
    exact .inl (.head' hfirst ((sound _).term (hfirst.wf hs) hterm).drops)
  | cases ht hk | indices ht hk | group ht hk | array ht hk | mapping ht hk | endingAt ht hk =>
    exact .inl (.single (hsign ht hk (by decide)))
  | afterSimple h => exact .inl ((sound _).simple hs h).drops_simple
  | nextSubscript ht hk hlist =>
    have hfirst := hsign ht hk (by decide)
    exact .inl (.head' hfirst ((sound _).list (hfirst.wf hs) hlist).drops)
  | unary ht hop => exact .inl (.single (hs.drops ht fun he => by simp [he, UnaryOp.ofKind?] at hop))
  | nextItem hitem ht hk => exact .inl (hcomma ((sound _).item hs hitem).drops ht hk)
  | rangeEnd he ht hk =>
    have hread := (sound _).expression hs he
    exact .inl (.tail' hread.drops ((hread.wf hs).drops ht (by simp [hk])))
  | entryValue hkey hkk hcolon hck =>
    have hfirst := hs.drops hkey fun he => by simp [he] at hkk
    exact .inl (.tail (.single hfirst) ((hfirst.wf hs).drops hcolon (by simp [hck])))
  | nextEntry hkey hkk hcolon hck he ht hk =>
    have hfirst := hs.drops hkey fun he => by simp [he] at hkk
    have hsecond := (hfirst.wf hs).drops hcolon (by simp [hck])
    have hread := (sound _).expression (hsecond.wf (hfirst.wf hs)) he
    exact .inl (hcomma (.head hfirst (.head hsecond hread.drops)) ht hk)
  | nextStatic he ht hk => exact .inl (hcomma (ModelList.staticEntry_drops _ _ _ hs he) ht hk)
  | nextDynamic he ht hk => exact .inl (hcomma (ModelList.dynamicEntry_drops _ _ _ _ hs he) ht hk)
  | nextKey hkey hkk hsign hsk hname hnk =>
    have hfirst := hs.drops hkey (by simp [hkk])
    have hsecond := (hfirst.wf hs).drops hsign (by simp [hsk])
    have hthird := (hsecond.wf (hfirst.wf hs)).drops hname (by simp [hnk])
    exact .inl (.head' hfirst (.head hsecond (.single hthird)))

/-! ## Paths -/

section Paths

variable {f g : Routine} {s s' : Tokens}

theorem Calls.drops (h : Calls (f, s) (g, s')) (hs : s.Wf) : ReflTransGen Tokens.Drops s s' := by
  rcases h.advances hs with hdrops | ⟨rfl, -⟩
  · exact hdrops.to_reflTransGen
  · exact .refl

/-- A path of calls takes tokens off, or it goes down. -/
theorem advances_of_path {x y : Routine × Tokens} (h : TransGen Calls x y) (hs : x.2.Wf) :
    TransGen Tokens.Drops x.2 y.2 ∨ y.2 = x.2 ∧ y.1.rank < x.1.rank := by
  induction h with
  | single h => exact h.advances hs
  | tail _ hlast ih =>
    rcases ih with hfirst | ⟨htokens, hrank⟩
    · exact .inl (hfirst.trans_left (hlast.drops (Tokens.wf_of_drops hfirst.to_reflTransGen hs)))
    · rw [← htokens] at hs ⊢
      exact (hlast.advances hs).imp_right fun ⟨hnext, hlower⟩ => ⟨hnext, hlower.trans hrank⟩

theorem drops_of_path {x y : Routine × Tokens} (h : ReflTransGen Calls x y) (hs : x.2.Wf) :
    ReflTransGen Tokens.Drops x.2 y.2 := by
  rcases Relation.reflTransGen_iff_eq_or_transGen.1 h with rfl | h
  · exact .refl
  · rcases advances_of_path h hs with hdrops | ⟨htokens, -⟩
    · exact hdrops.to_reflTransGen
    · rw [htokens]

/-- There is no way back to a function but past a token. -/
theorem advances_of_cycle (h : TransGen Calls (f, s) (f, s')) (hs : s.Wf) : TransGen Tokens.Drops s s' :=
  (advances_of_path h hs).resolve_right fun ⟨_, hrank⟩ => Nat.lt_irrefl _ hrank

end Paths

end Parser

end ExprLang
