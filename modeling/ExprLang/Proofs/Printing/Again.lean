import ExprLang.Proofs.Entries
import ExprLang.Proofs.Parser.Each
import ExprLang.Proofs.Printing.Words

/-!
# Reading the words of a tree again

What a reader has built from a source, it builds again from the words of the tree, in places where
nothing that follows can be taken in.

* `Expr.equals_join`: joining equal operands by the same operator gives equal trees.
* `Phrase.Again`: what it means for a phrase that its words are read again.
* `Reads.again`: they are, phrase by phrase.
-/

namespace ExprLang

/-! ## Equal trees -/

namespace Expr

theorem equals_binary {u a b : Expr} {l : Option Location} {op : BinaryOp} :
    u.equals (binary l op a b) = true ↔
      ∃ l' a' b', u = binary l' op a' b' ∧ a'.equals a = true ∧ b'.equals b = true := by
  constructor
  · intro h
    cases u with
    | binary l' p a' b' =>
      simp only [equals, Bool.and_eq_true, beq_iff_eq] at h
      obtain ⟨⟨rfl, ha⟩, hb⟩ := h
      exact ⟨l', a', b', rfl, ha, hb⟩
    | _ => simp [equals] at h
  · rintro ⟨l', a', b', rfl, ha, hb⟩
    simp [equals, ha, hb]

theorem precedence_of_equals {u e : Expr} (h : u.equals e = true) : u.precedence = e.precedence := by
  cases e with
  | binary l op a b =>
    obtain ⟨l', a', b', rfl, _⟩ := equals_binary.1 h
    rfl
  | _ => cases u <;> first | rfl | simp [equals] at h

theorem precedence_of_ne_binary {e : Expr} (h : ∀ l op a b, e = binary l op a b → False) :
    e.precedence = BinaryOp.maxPrecedence := by
  cases e with
  | binary l op a b => exact absurd rfl (h l op a b)
  | _ => rfl

theorem equals_join {l l' : Option Location} {op : BinaryOp} {a b a' b' : Expr} (ha : a'.equals a = true)
    (hb : b'.equals b = true) : (a'.join l' op b').equals (a.join l op b) = true := by
  fun_induction join l op a b generalizing a' b' with
  | case1 a b h =>
    rw [← precedence_of_equals ha, ← precedence_of_equals hb] at h
    rw [join.eq_def, if_pos h]
    exact equals_binary.2 ⟨_, _, _, rfl, ha, hb⟩
  | case2 b here above a₁ a₂ h h' ih =>
    have h₁ := h
    have h₂ := h'
    rw [← precedence_of_equals ha, ← precedence_of_equals hb] at h₁ h₂
    obtain ⟨here', x, y, rfl, hx, hy⟩ := equals_binary.1 ha
    rw [join.eq_def, if_neg h₁, if_pos h₂]
    exact equals_binary.2 ⟨_, _, _, rfl, hx, ih hy hb⟩
  | case3 a b h h' hne =>
    rw [precedence_of_ne_binary hne] at h'
    exact absurd h' (Nat.not_lt.2 (precedence_le_max b))
  | case4 a here above b₁ b₂ h h' ih =>
    have h₁ := h
    have h₂ := h'
    rw [← precedence_of_equals ha, ← precedence_of_equals hb] at h₁ h₂
    obtain ⟨here', x, y, rfl, hx, hy⟩ := equals_binary.1 hb
    rw [join.eq_def, if_neg h₁, if_neg h₂]
    exact equals_binary.2 ⟨_, _, _, rfl, ih ha hx, hy⟩
  | case5 a b h h' hne =>
    have hop := op.precedence_lt
    rw [precedence_of_ne_binary hne] at h h'
    omega

end Expr

/-! ## Words in a stream -/

/-- From `s` up to `s'` stand tokens with the kinds and the data of the lexemes. -/
def Tokens.Shows (ws : List Lexeme) (s s' : Tokens) : Prop :=
  Spans (fun t => (t.kind, t.data)) (ws.map fun l => (l.kind, l.data)) s s'

namespace Tokens

variable {ws vs : List Lexeme} {l : Lexeme} {s s' : Tokens}

theorem shows_append : Shows (ws ++ vs) s s' ↔ ∃ m, Shows ws s m ∧ Shows vs m s' := by
  rw [Shows, List.map_append, spans_append]
  rfl

theorem shows_cons : Shows (l :: ws) s s' ↔
    ∃ c t rest, s = .token c t rest ∧ (t.kind = l.kind ∧ t.data = l.data) ∧ Shows ws rest s' := by
  simp only [Shows, List.map_cons, Spans, Prod.mk.injEq]

/-- A sign at the end of some words. -/
theorem Shows.sign {k : Token.Kind} (h : Shows (ws ++ [Lexeme.sign k]) s s') :
    ∃ c t, t.kind = k ∧ Shows ws s (.token c t s') := by
  obtain ⟨_, hws, hm⟩ := shows_append.1 h
  obtain ⟨c, t, _, rfl, ⟨hk, _⟩, rfl⟩ := shows_cons.1 hm
  exact ⟨c, t, hk, hws⟩

end Tokens

/-! ## Words of sequences -/

def Joint.words (js : List Joint) : List Lexeme := js.flatMap fun j => Lexeme.sign j.op.sign :: j.right.words

/-- A list of several indices is written as an array. -/
def subscriptWords (subs : List (Location × List Expr)) : List Lexeme := subs.flatMap fun i =>
  Lexeme.sign .openBracket :: ((Expr.ofIndices i.1 i.2).words ++ [Lexeme.sign .closeBracket])

namespace Expr

theorem words_join (l : Option Location) (op : BinaryOp) (a b : Expr) :
    (a.join l op b).words = a.words ++ Lexeme.sign op.sign :: b.words := by
  fun_induction join l op a b with
  | case1 a b h => rfl
  | case2 b here above a₁ a₂ h h' ih => simp [words, ih]
  | case3 a b h h' hb => rfl
  | case4 a here above b₁ b₂ h h' ih => simp [words, ih]
  | case5 a b h h' hb => rfl

theorem words_joinAll {js : List Joint} {t : Expr} : (t.joinAll js).words = t.words ++ Joint.words js := by
  induction js generalizing t with
  | nil => simp [Joint.words]
  | cons j js ih =>
    rw [joinAll_cons, ih, words_join]
    simp [Joint.words]

theorem words_subscriptAll {subs : List (Location × List Expr)} {b : Expr} :
    (b.subscriptAll subs).words = b.words ++ subscriptWords subs := by
  induction subs generalizing b with
  | nil => simp [subscriptWords]
  | cons i subs ih =>
    rw [subscriptAll_cons, ih]
    simp [subscriptWords, words]

end Expr

/-! ## Phrases read again -/

/-- A token that shows a value is read as an equal one. -/
def Value.Legible (v : Value) : Prop := ∀ t : Token, t.kind = v.lexeme.kind → t.data = v.lexeme.data →
  ∃ w, t.literal = .ok w ∧ w.equals v = true

namespace Expr

def isOpenRange : Expr → Bool
  | unary _ .startingAt _ | unary _ .endingAt _ => true
  | _ => false

def isSwitch : Expr → Bool
  | switch _ _ => true
  | _ => false

/-- Whether a subscript written after a simple term is one of the whole term. -/
def standsApart : Expr → Bool
  | unary _ op a => op == .group || a.isSwitch
  | _ => true

/-- Literals are legible, and open ranges stand in subscripts only. -/
def Faithful : Expr → Prop
  | literal _ v => v.Legible
  | array _ items => ∀ e ∈ items, e.isOpenRange = false
  | _ => True

/-- The words of an expression are read as an equal one. -/
def Again (e : Expr) : Prop := e.Each Faithful → ∀ s s', Tokens.Shows e.words s s' → s'.Stops → s'.Ready →
  ∃ u, Reads (.expression u) s s' ∧ u.equals e = true

/-- The same of an item. One that is not an open range can stand in any list. -/
def ItemAgain (kind : Item) (e : Expr) : Prop := e.Each Faithful → ∀ kind' s s',
  kind' = kind ∨ e.isOpenRange = false → Tokens.Shows e.words s s' → s'.Closes →
    ∃ u, Reads (.item kind' u) s s' ∧ u.equals e = true

end Expr

/-- The words of a phrase are read as an equal phrase, before what takes nothing in. -/
def Phrase.Again : Phrase → Prop
  | expression e => e.Again
  | operators js => (∀ j ∈ js, j.right.Each Expr.Faithful) → ∀ s s', Tokens.Shows (Joint.words js) s s' → s'.Stops →
      s'.Ready → s.Ready ∧ ∃ ks, Reads (.operators ks) s s' ∧
        ∀ u t : Expr, u.equals t = true → (u.joinAll ks).equals (t.joinAll js) = true
  | term e => e.Each Expr.Faithful → ∀ s s', Tokens.Shows e.words s s' → s'.Ready ∨ e.isSwitch = true →
      ∃ u, Reads (.term u) s s' ∧ u.equals e = true
  | subscripts subs => (∀ i ∈ subs, (Expr.ofIndices i.1 i.2).Each Expr.Faithful) → ∀ s s',
      Tokens.Shows (subscriptWords subs) s s' → s'.Ready → ∃ ks, Reads (.subscripts ks) s s' ∧
        ∀ u b : Expr, u.equals b = true → (u.subscriptAll ks).equals (b.subscriptAll subs) = true
  | simple e => e.Each Expr.Faithful → ∀ s s', Tokens.Shows e.words s s' → s'.Ready ∨ e.standsApart = true →
      ∃ u, Reads (.simple u) s s' ∧ u.equals e = true
  | list kind es | items kind es => ∀ e ∈ es, e.ItemAgain kind
  | item kind e => e.ItemAgain kind
  | map es => Entries.Nodup es ∧ ∀ f ∈ es, f.2.Again
  | entries es => ∀ f ∈ es, f.2.Again

/-! ## Lists and maps read again -/

section Sequences

variable {kind k : Item} {s s' : Tokens} {c : Cursor} {t : Token} {α : Type} {R : Expr → α → Prop}

/-- From words that stand before what takes nothing in, a phrase is read that is related to `a`. -/
def ReadOff (phrase : Expr → Phrase) (R : Expr → α → Prop) (ws : List Lexeme) (a : α) : Prop :=
  ∀ s s', Tokens.Shows ws s s' → s'.Closes → ∃ u, Reads (phrase u) s s' ∧ R u a

/-- Items are read off their words with commas between them, if each is read off its own words. -/
theorem items_of_words {wss : List (List Lexeme)} {as : List α} (h : List.Forall₂ (ReadOff (.item k) R) wss as)
    (hne : as ≠ []) (hk : t.kind = k.close) (hs : Tokens.Shows (Lexeme.separate wss) s (.token c t s')) :
    ∃ us, Reads (.items k us) s s' ∧ List.Forall₂ R us as := by
  induction h generalizing s with
  | nil => exact absurd rfl hne
  | cons ha has ih =>
    cases has with
    | nil =>
      obtain ⟨u, hu, he⟩ := ha s _ hs (Tokens.closes_of_close hk)
      exact ⟨[u], .lastItem hu hk, .cons he .nil⟩
    | cons hb has =>
      obtain ⟨_, hfirst, hm⟩ := Tokens.shows_append.1 hs
      obtain ⟨c', t', rest, rfl, ⟨hcomma, _⟩, hrest⟩ := Tokens.shows_cons.1 hm
      have hcloses : (Tokens.token c' t' rest).Closes := ⟨t', rfl, by rw [hcomma]; exact List.mem_cons_self⟩
      obtain ⟨u, hu, he⟩ := ha s _ hfirst hcloses
      obtain ⟨us, hus, hes⟩ := ih (by simp) hrest
      exact ⟨u :: us, .items hu hcomma hus, .cons he hes⟩

theorem list_of_words {wss : List (List Lexeme)} {as : List α} (h : List.Forall₂ (ReadOff (.item k) R) wss as)
    (hs : Tokens.Shows (Lexeme.separate wss ++ [Lexeme.sign k.close]) s s') :
    ∃ us, Reads (.list k us) s s' ∧ List.Forall₂ R us as := by
  obtain ⟨c, t, hk, hs⟩ := hs.sign
  cases as with
  | nil =>
    cases h
    obtain rfl : s = .token c t s' := hs
    exact ⟨[], .emptyList hk, .nil⟩
  | cons a as =>
    obtain ⟨us, hus, heq⟩ := items_of_words h (by simp) hk hs
    exact ⟨us, .list hus, heq⟩

theorem equalExprs_of_forall₂ {us es : List Expr} (h : List.Forall₂ (fun u e => u.equals e = true) us es) :
    equalExprs us es = true := by
  induction h with
  | nil => rfl
  | cons he _ ih => simp [equalExprs, he, ih]

/-- Items are read again by the same list, and by any other if there is no open range among them. -/
theorem list_again {es : List Expr} (hagain : ∀ e ∈ es, e.ItemAgain kind) (heach : ∀ e ∈ es, e.Each Expr.Faithful)
    (hopen : k = kind ∨ ∀ e ∈ es, e.isOpenRange = false)
    (hs : Tokens.Shows (wordsOf es ++ [Lexeme.sign k.close]) s s') :
    ∃ us, Reads (.list k us) s s' ∧ equalExprs us es = true := by
  rw [wordsOf_eq] at hs
  have hwords : List.Forall₂ (ReadOff (.item k) fun u e => u.equals e = true) (es.map Expr.words) es :=
    List.forall₂_map_left_iff.2 (List.forall₂_same.2 fun e he s s' =>
      hagain e he (heach e he) k s s' (hopen.imp_right fun h => h e he))
  obtain ⟨us, hus, heq⟩ := list_of_words hwords hs
  exact ⟨us, hus, equalExprs_of_forall₂ heq⟩

/-- A simple term may be all of an expression. -/
theorem Reads.whole {b : Expr} (h : Reads (.simple b) s s') (hc : s'.Closes) : Reads (.expression b) s s' :=
  .expression (e := b) (.term h hc.ready.reads) (.noOperator hc.stops)

/-- Several indices are read again as an array. -/
theorem array_again {l : Option Location} {es : List Expr} (hagain : ∀ e ∈ es, e.ItemAgain kind)
    (heach : (Expr.array l es).Each Expr.Faithful) (hs : Tokens.Shows (Expr.array l es).words s s') :
    ∃ l' us, Reads (.simple (.array l' us)) s s' ∧ equalExprs us es = true := by
  obtain ⟨c, t, rest, rfl, ⟨hk, _⟩, hrest⟩ := Tokens.shows_cons.1 hs
  obtain ⟨hopen, heach⟩ := Expr.each_array.1 heach
  obtain ⟨us, hus, heq⟩ := list_again (k := .element) hagain heach (.inr hopen) hrest
  exact ⟨t.location, us, .array hk hus, heq⟩

/-- A list of indices is read again as it is or, unless it has exactly one, as an array. -/
theorem indices_again {l : Option Location} {es : List Expr} (hagain : ∀ e ∈ es, e.ItemAgain .index)
    (heach : (Expr.ofIndices l es).Each Expr.Faithful)
    (hs : Tokens.Shows ((Expr.ofIndices l es).words ++ [Lexeme.sign .closeBracket]) s s') :
    ∃ us, Reads (.list .index us) s s' ∧ ∀ l', (Expr.ofIndices l' us).equals (Expr.ofIndices l es) = true := by
  obtain ⟨c, t, hk, hs⟩ := hs.sign
  have hcloses : (Tokens.token c t s').Closes := ⟨t, rfl, by simp [hk]⟩
  have hdots : t.kind ≠ .dots := by simp [hk]
  have several : Expr.ofIndices l es = .array l es → ∃ us, Reads (.list .index us) s s' ∧
      ∀ l', (Expr.ofIndices l' us).equals (Expr.ofIndices l es) = true := by
    intro he
    rw [he] at heach hs ⊢
    obtain ⟨l', us, hus, heq⟩ := array_again hagain heach hs
    exact ⟨[.array l' us], .list (.lastItem (.item (hus.whole hcloses) rfl fun _ => hdots) hk), fun _ => heq⟩
  match es with
  | [e] =>
    obtain ⟨u, hu, he⟩ := hagain e (by simp) heach .index s _ (.inl rfl) hs hcloses
    exact ⟨[u], .list (.lastItem hu hk), fun _ => he⟩
  | [] => exact several rfl
  | e :: f :: es => exact several rfl

theorem Entries.keys_of_forall₂ {α β : Type} {R : α → β → Prop} {us : Entries α} {es : Entries β}
    (h : List.Forall₂ (fun f g => f.1 = g.1 ∧ R f.2 g.2) us es) : Entries.keys us = Entries.keys es := by
  induction h with
  | nil => rfl
  | cons hfirst _ ih =>
    rw [Entries.keys, Entries.keys, List.map_cons, List.map_cons, hfirst.1]
    exact congrArg _ ih

/-- Entries in order with the same keys and equal values. -/
def EntriesAlike (us es : Entries Expr) : Prop :=
  List.Forall₂ (fun f g => f.1 = g.1 ∧ f.2.equals g.2 = true) us es

theorem equalExprEntries_iff : ∀ {us es : Entries Expr}, equalExprEntries us es = true ↔
    ∀ f ∈ us, ∃ g, Entries.find? es f.1 = some g ∧ f.2.equals g = true
  | [], _ => by simp [equalExprEntries]
  | (k, u) :: us, es => by
    rw [equalExprEntries, Bool.and_eq_true, equalExprEntries_iff, List.forall_mem_cons]
    refine and_congr_left fun _ => ?_
    cases Entries.find? es k with
    | none => simp
    | some e => simp

theorem EntriesAlike.exists_mem {us es : Entries Expr} (h : EntriesAlike us es) :
    ∀ f ∈ us, ∃ g, (f.1, g) ∈ es ∧ f.2.equals g = true := by
  induction h with
  | nil => exact fun _ hf => absurd hf List.not_mem_nil
  | @cons f g us es hfirst _ ih =>
    refine List.forall_mem_cons.2 ⟨⟨g.2, by rw [hfirst.1]; exact List.mem_cons_self, hfirst.2⟩, fun f' hf' => ?_⟩
    obtain ⟨g', hg', heq⟩ := ih f' hf'
    exact ⟨g', List.mem_cons_of_mem _ hg', heq⟩

/-- Among keys that do not repeat, the one at a place is found there. -/
theorem EntriesAlike.find? {us es : Entries Expr} (h : EntriesAlike us es) (hnodup : Entries.Nodup es) :
    ∀ f ∈ us, ∃ g, Entries.find? es f.1 = some g ∧ f.2.equals g = true := fun f hf => by
  obtain ⟨g, hg, heq⟩ := h.exists_mem f hf
  exact ⟨g, (Entries.find?_eq_some_iff hnodup).2 hg, heq⟩

theorem Token.word_of_quote {k : String} (hk : t.kind = .string)
    (hd : t.data = (⟨.string, (Text.quote k).toList⟩ : Lexeme).data) : t.word = k := by
  have hescape : t.data = Text.escape k.toList := by simp [hd, Lexeme.data, Text.quote]
  rw [Token.word, if_pos hk, hescape, Text.unescape_escape, String.ofList_toList]

/-- The beginning of an entry: the key, the colon, and the words behind them. -/
theorem entry_again {k : String} {ws : List Lexeme} {m : Tokens}
    (hs : Tokens.Shows (⟨.string, (Text.quote k).toList⟩ :: Lexeme.sign .colon :: ws) s m) :
    ∃ c₁ c₂ key colon rest, s = .token c₁ key (.token c₂ colon rest) ∧ key.kind ∈ [Token.Kind.string, .name] ∧
      key.word = k ∧ colon.kind = .colon ∧ Tokens.Shows ws rest m := by
  obtain ⟨c₁, key, _, rfl, ⟨hkey, hdata⟩, hs⟩ := Tokens.shows_cons.1 hs
  obtain ⟨c₂, colon, rest, rfl, ⟨hcolon, _⟩, hs⟩ := Tokens.shows_cons.1 hs
  exact ⟨c₁, c₂, key, colon, rest, rfl, by rw [hkey]; exact List.mem_cons_self, Token.word_of_quote hkey hdata,
    hcolon, hs⟩

/-- Entries are read off their words, if each value is read off its own words. -/
theorem entries_of_words {wss : List (List Lexeme)} {as : Entries α} (h : List.Forall₂ (fun ws f =>
    ∃ vs, ws = entryWords f.1 vs ∧ ReadOff .expression R vs f.2) wss as) (hne : as ≠ []) (hk : t.kind = .closeBrace)
    (hs : Tokens.Shows (Lexeme.separate wss) s (.token c t s')) :
    ∃ us, Reads (.entries us) s s' ∧ List.Forall₂ (fun f g => f.1 = g.1 ∧ R f.2 g.2) us as := by
  induction h generalizing s with
  | nil => exact absurd rfl hne
  | cons ha has ih =>
    obtain ⟨vs, rfl, ha⟩ := ha
    cases has with
    | nil =>
      obtain ⟨c₁, c₂, key, colon, rest, rfl, hkey, hword, hcolon, hs⟩ := entry_again hs
      have hcloses : (Tokens.token c t s').Closes := ⟨t, rfl, by simp [hk]⟩
      obtain ⟨u, hu, he⟩ := ha _ _ hs hcloses
      exact ⟨[(key.word, u)], .lastEntry hkey hcolon hu hk, .cons ⟨hword, he⟩ .nil⟩
    | cons hb has =>
      obtain ⟨c₁, c₂, key, colon, rest, rfl, hkey, hword, hcolon, hs⟩ := entry_again hs
      obtain ⟨_, hfirst, hm⟩ := Tokens.shows_append.1 hs
      obtain ⟨c', t', rest', rfl, ⟨hcomma, _⟩, hrest⟩ := Tokens.shows_cons.1 hm
      have hcloses : (Tokens.token c' t' rest').Closes := ⟨t', rfl, by rw [hcomma]; exact List.mem_cons_self⟩
      obtain ⟨u, hu, he⟩ := ha _ _ hfirst hcloses
      obtain ⟨us, hus, hes⟩ := ih (by simp) hrest
      exact ⟨(key.word, u) :: us, .entries hkey hcolon hu hcomma hus, .cons ⟨hword, he⟩ hes⟩

theorem Entries.insertAll_of_nodup {α : Type} : ∀ {fs es : Entries α}, Entries.Nodup (es ++ fs) →
    Entries.insertAll es fs = es ++ fs
  | [], es, _ => by simp [Entries.insertAll]
  | (k, v) :: fs, es, h => by
    have hnew : Entries.contains es k = false := by
      rw [Bool.eq_false_iff, ne_eq, Entries.contains_iff]
      unfold Entries.Nodup Entries.keys at h
      rw [List.map_append, List.nodup_append] at h
      exact fun hk => h.2.2 k hk k (by simp) rfl
    have hstep : Entries.insertAll es ((k, v) :: fs) = Entries.insertAll (es ++ [(k, v)]) fs := by
      simp [Entries.insertAll, Entries.insertNew, hnew]
    rw [hstep, insertAll_of_nodup (by simpa using h)]
    simp

theorem map_of_words {wss : List (List Lexeme)} {as : Entries α} (h : List.Forall₂ (fun ws f =>
    ∃ vs, ws = entryWords f.1 vs ∧ ReadOff .expression R vs f.2) wss as) (hnodup : Entries.Nodup as)
    (hs : Tokens.Shows (Lexeme.separate wss ++ [Lexeme.sign .closeBrace]) s s') :
    ∃ us, Reads (.map us) s s' ∧ List.Forall₂ (fun f g => f.1 = g.1 ∧ R f.2 g.2) us as := by
  obtain ⟨c, t, hk, hs⟩ := hs.sign
  cases as with
  | nil =>
    cases h
    obtain rfl : s = .token c t s' := hs
    exact ⟨[], .emptyMap hk, .nil⟩
  | cons f as =>
    obtain ⟨us, hus, heq⟩ := entries_of_words h (by simp) hk hs
    have hkeys : Entries.Nodup us := by rwa [Entries.Nodup, Entries.keys_of_forall₂ heq]
    have hmap : Reads (.map (Entries.insertAll [] us)) s s' := .map hus
    rw [@Entries.insertAll_of_nodup _ us [] hkeys, List.nil_append] at hmap
    exact ⟨us, hmap, heq⟩

theorem map_again {l : Option Location} {es : Entries Expr} (hnodup : Entries.Nodup es)
    (hagain : ∀ f ∈ es, f.2.Again) (heach : ∀ f ∈ es, f.2.Each Expr.Faithful)
    (hs : Tokens.Shows (wordsOfEntries es ++ [Lexeme.sign .closeBrace]) s s') :
    ∃ us, Reads (.map us) s s' ∧ ∀ l', (Expr.map l' us).equals (.map l es) = true := by
  rw [wordsOfEntries_eq] at hs
  have hwords : List.Forall₂ (fun ws f => ∃ vs, ws = entryWords f.1 vs ∧
      ReadOff .expression (fun u e => u.equals e = true) vs f.2) (es.map fun f => entryWords f.1 f.2.words) es :=
    List.forall₂_map_left_iff.2 (List.forall₂_same.2 fun f hf => ⟨_, rfl, fun s s' hs hc =>
      hagain f hf (heach f hf) s s' hs hc.stops hc.ready⟩)
  obtain ⟨us, hus, heq⟩ := map_of_words hwords hnodup hs
  refine ⟨us, hus, fun _ => ?_⟩
  rw [Expr.equals, Bool.and_eq_true, beq_iff_eq]
  exact ⟨heq.length_eq, equalExprEntries_iff.2 (EntriesAlike.find? heq hnodup)⟩

end Sequences

/-! ## Phrase by phrase -/

theorem Entries.nodup_insertAll {α : Type} : ∀ {fs es : Entries α}, Entries.Nodup es →
    Entries.Nodup (Entries.insertAll es fs)
  | [], _, h => h
  | (k, v) :: fs, es, h => by
    show Entries.Nodup (Entries.insertAll (Entries.insertNew es k v) fs)
    exact nodup_insertAll (Entries.nodup_insertNew h k v)

theorem UnaryOp.words_of_ofKind? {k : Token.Kind} {op : UnaryOp} (h : UnaryOp.ofKind? k = some op) (ws : List Lexeme) :
    op.words ws = Lexeme.sign k :: ws := by
  cases k <;> cases h <;> rfl

/-- A subscript follows a term with a sign only if the operand is a switch, which takes none. -/
theorem Reads.apart {b : Expr} {subs : List (Location × List Expr)} {s s₁ s' : Tokens} (hb : Reads (.simple b) s s₁)
    (hsubs : Reads (.subscripts subs) s₁ s') : subs = [] ∨ b.standsApart = true := by
  cases hsubs with
  | noSubscript => exact .inl rfl
  | subscript hk =>
    refine .inr ?_
    cases hb with
    | unary _ ha =>
      cases ha with
      | switch => simp [Expr.standsApart, Expr.isSwitch]
      | term _ h =>
        obtain ⟨t, ht, hne⟩ := h.ready_of_subscripts
        cases ht
        exact absurd hk hne
    | _ => rfl

theorem Expr.subscriptAll_not_switch {subs : List (Location × List Expr)} {b : Expr} (h : b.isSwitch = false) :
    (b.subscriptAll subs).isSwitch = false := by
  induction subs generalizing b with
  | nil => exact h
  | cons i subs ih => exact ih rfl

theorem Reads.not_switch {b : Expr} {s s' : Tokens} (hb : Reads (.simple b) s s') : b.isSwitch = false := by
  cases hb <;> rfl

theorem Reads.again {p : Phrase} {s s' : Tokens} (h : Reads p s s') : p.Again := by
  induction h with
  | @expression e js _ _ _ rt rjs iht ihjs =>
    intro heach w w' hw hstop hready
    obtain ⟨heach, heachs⟩ := (Expr.each_joinAll_of_binary fun _ _ _ _ => trivial).1 heach
    rw [Expr.words_joinAll] at hw
    obtain ⟨m, hwt, hwjs⟩ := Tokens.shows_append.1 hw
    obtain ⟨hm, ks, hks, heqs⟩ := ihjs heachs m w' hwjs hstop hready
    obtain ⟨u, hu, heq⟩ := iht heach w m hwt (.inl hm)
    exact ⟨_, .expression hu hks, heqs u e heq⟩
  | noOperator _ =>
    intro _ w w' hw hstop hready
    obtain rfl : w = w' := hw
    exact ⟨hready, [], .noOperator hstop, fun _ _ h => h⟩
  | @operator _ _ op r js _ _ _ hk rr rjs ihr ihjs =>
    intro heach w w' hw hstop hready
    obtain ⟨heachr, heachs⟩ := List.forall_mem_cons.1 heach
    obtain ⟨c, t, rest, rfl, ⟨ht, _⟩, hw⟩ := Tokens.shows_cons.1 hw
    obtain ⟨m, hwr, hwjs⟩ := Tokens.shows_append.1 hw
    obtain ⟨hm, ks, hks, heqs⟩ := ihjs heachs m w' hwjs hstop hready
    obtain ⟨u, hu, heq⟩ := ihr heachr rest m hwr (.inl hm)
    have hop : BinaryOp.ofKind? t.kind = some op := by rw [ht]; exact op.ofKind?_sign
    have hne : t.kind ≠ .openBracket := fun hb => by rw [hb] at hop; cases hop
    exact ⟨⟨t, rfl, hne⟩, _, .operator hop hu hks, fun u' t' h => heqs _ _ (Expr.equals_join h heq)⟩
  | switch hk rl ihl =>
    intro heach w w' hw _
    obtain ⟨c, t, rest, rfl, ⟨ht, _⟩, hw⟩ := Tokens.shows_cons.1 hw
    obtain ⟨us, hus, heq⟩ := list_again (k := .case) ihl (Expr.each_switch.1 heach).2 (.inl rfl) hw
    exact ⟨_, .switch ht hus, heq⟩
  | @term b subs _ _ _ rb rsubs ihb ihsubs =>
    intro heach w w' hw hready
    obtain ⟨heach, heachs⟩ := (Expr.each_subscriptAll fun _ _ _ => trivial).1 heach
    have hafter : w'.Ready := hready.resolve_right (by rw [Expr.subscriptAll_not_switch rb.not_switch]; exact Bool.false_ne_true)
    rw [Expr.words_subscriptAll] at hw
    obtain ⟨m, hwb, hwsubs⟩ := Tokens.shows_append.1 hw
    obtain ⟨ks, hks, heqs⟩ := ihsubs heachs m w' hwsubs hafter
    have hm : m.Ready ∨ b.standsApart = true := by
      refine (rb.apart rsubs).imp_left fun hnil => ?_
      subst hnil
      obtain rfl : m = w' := hwsubs
      exact hafter
    obtain ⟨u, hu, heq⟩ := ihb heach w m hwb hm
    exact ⟨_, .term hu hks, heqs u b heq⟩
  | noSubscript _ _ =>
    intro _ w w' hw hready
    obtain rfl : w = w' := hw
    exact ⟨[], hready.reads, fun _ _ h => h⟩
  | subscript hk rl rsubs ihl ihsubs =>
    intro heach w w' hw hready
    obtain ⟨heachl, heachs⟩ := List.forall_mem_cons.1 heach
    obtain ⟨c, t, rest, rfl, ⟨ht, _⟩, hw⟩ := Tokens.shows_cons.1 hw
    obtain ⟨m, hwl, hwsubs⟩ := Tokens.shows_append.1 hw
    obtain ⟨us, hus, heq⟩ := indices_again ihl heachl hwl
    obtain ⟨ks, hks, heqs⟩ := ihsubs heachs m w' hwsubs hready
    refine ⟨_, .subscript ht hus hks, fun u b h => heqs _ _ ?_⟩
    rw [Expr.equals, h, heq]
    rfl
  | @unary _ t op a _ _ hk ra iha =>
    intro heach w w' hw hready
    rw [Expr.words, UnaryOp.words_of_ofKind? hk] at hw
    obtain ⟨c, t', rest, rfl, ⟨ht, _⟩, hw⟩ := Tokens.shows_cons.1 hw
    have hop : UnaryOp.ofKind? t'.kind = some op := by rw [ht]; exact hk
    have hgroup : op ≠ .group := by rintro rfl; revert hk; cases t.kind <;> simp [UnaryOp.ofKind?]
    have hready : w'.Ready ∨ a.isSwitch = true := by simpa [Expr.standsApart, hgroup] using hready
    obtain ⟨u, hu, heq⟩ := iha (Expr.each_unary.1 heach).2 rest w' hw hready
    exact ⟨_, .unary hop hu, by simp [Expr.equals, heq]⟩
  | group _ ra _ iha =>
    intro heach w w' hw _
    obtain ⟨c, t, rest, rfl, ⟨ht, _⟩, hw⟩ := Tokens.shows_cons.1 hw
    obtain ⟨c', t', ht', hw⟩ := hw.sign
    have hcloses : (Tokens.token c' t' w').Closes := ⟨t', rfl, by simp [ht']⟩
    obtain ⟨u, hu, heq⟩ := iha (Expr.each_unary.1 heach).2 _ _ hw hcloses.stops hcloses.ready
    exact ⟨_, .group ht hu ht', by simp [Expr.equals, heq]⟩
  | @name _ t _ hk =>
    intro _ w w' hw _
    obtain ⟨c, t', rest, rfl, ⟨ht, hd⟩, hw⟩ := Tokens.shows_cons.1 hw
    obtain rfl : rest = w' := hw
    have hword : t'.word = t.word := by
      rw [Token.word, if_neg (by rw [ht]; exact Token.Kind.noConfusion), hd]
      exact String.ofList_toList
    exact ⟨_, .name ht, by simp [Expr.equals, hword]⟩
  | array hk rl ihl =>
    intro heach w w' hw _
    obtain ⟨l, us, hus, heq⟩ := array_again ihl heach hw
    exact ⟨_, hus, heq⟩
  | mapping hk rm ihm =>
    intro heach w w' hw _
    obtain ⟨c, t, rest, rfl, ⟨ht, _⟩, hw⟩ := Tokens.shows_cons.1 hw
    obtain ⟨us, hus, heq⟩ := map_again ihm.1 ihm.2 (Expr.each_map.1 heach).2 hw
    exact ⟨_, .mapping ht hus, heq _⟩
  | @literal _ _ v _ hk hv =>
    intro heach w w' hw _
    obtain ⟨c, t, rest, rfl, ⟨ht, hd⟩, hw⟩ := Tokens.shows_cons.1 hw
    obtain rfl : rest = w' := hw
    obtain ⟨u, hu, heq⟩ := Expr.each_literal.1 heach t ht hd
    exact ⟨_, .literal (by rw [ht]; exact v.lexeme_kind) hu, heq⟩
  | emptyList _ => exact fun _ h => absurd h List.not_mem_nil
  | list _ ih => exact ih
  | lastItem _ _ ih => exact List.forall_mem_singleton.2 ih
  | items _ _ _ ih ihs => exact List.forall_mem_cons.2 ⟨ih, ihs⟩
  | item _ _ _ ih =>
    intro heach k w w' _ hw hc
    obtain ⟨u, hu, heq⟩ := ih heach w w' hw hc.stops hc.ready
    obtain ⟨t, ht, hne⟩ := hc.ne_dots
    exact ⟨u, .item hu ht fun _ => hne, heq⟩
  | startingAt _ _ ih =>
    intro heach k w w' hkind hw hc
    obtain rfl : k = .index := hkind.resolve_right (by simp [Expr.isOpenRange])
    obtain ⟨c, t, ht, hw⟩ := hw.sign
    have hstop : (Tokens.token c t w').Stops := ⟨t, rfl, .inr ⟨ht, hc.not_term⟩⟩
    obtain ⟨u, hu, heq⟩ := ih (Expr.each_unary.1 heach).2 _ _ hw hstop ⟨t, rfl, by simp [ht]⟩
    exact ⟨_, .startingAt hu ht, by simp [Expr.equals, heq]⟩
  | endingAt _ _ ih =>
    intro heach k w w' hkind hw hc
    obtain rfl : k = .index := hkind.resolve_right (by simp [Expr.isOpenRange])
    obtain ⟨c, t, rest, rfl, ⟨ht, _⟩, hw⟩ := Tokens.shows_cons.1 hw
    obtain ⟨u, hu, heq⟩ := ih (Expr.each_unary.1 heach).2 _ _ hw hc.stops hc.ready
    exact ⟨_, .endingAt ht hu, by simp [Expr.equals, heq]⟩
  | emptyMap _ => exact ⟨List.nodup_nil, fun _ h => absurd h List.not_mem_nil⟩
  | map _ ih =>
    exact ⟨Entries.nodup_insertAll List.nodup_nil,
      fun f hf => ih f ((Entries.mem_insertAll hf).resolve_left List.not_mem_nil)⟩
  | lastEntry _ _ _ _ ih => exact List.forall_mem_singleton.2 ih
  | entries _ _ _ _ _ ih ihs => exact List.forall_mem_cons.2 ⟨ih, ihs⟩

end ExprLang
