import ExprLang.Proofs.Printing.Spells

/-!
# What a printed expression is read as

Printing a value does not keep it apart from the expression that means it: a negative number becomes a
sign and a numeral, a range an array of one operation, and infinity a name. So the text of an expression
is read as a tree that may differ from the one that was printed.

* `Value.source`, `Expr.reread`: the expression that is read off the text of a value, of an expression.
* `Value.spelled`, `Expr.spelled`: texts are read so, unless there is an open range in an array.
-/

namespace ExprLang

open Lexeme

/-! ## Sources -/

namespace Number

/-- A numeral or a name. -/
def unsigned (cs : List Char) : Expr :=
  match Numeral.value? cs with
  | some y => .literal none (.number y)
  | none => .var none (String.ofList cs)

/-- The text of a number as an expression. -/
def sourceOf : List Char → Expr
  | '-' :: cs => .unary none .minus (unsigned cs)
  | cs => unsigned cs

end Number

mutual

/-- What the text of a value is read as. For an open range, of which no expression has the text, it has no meaning. -/
def Value.source : Value → Expr
  | ⟨_, .number x⟩ => Number.sourceOf (Number.text x).toList
  | ⟨_, .array items⟩ => .array none (sourceItems items)
  | ⟨_, .map entries⟩ => .map none (sourceEntries entries)
  | ⟨_, .range (.between first last)⟩ => .array none
      [.binary none .range (Number.sourceOf (toString first).toList) (Number.sourceOf (toString last).toList)]
  | ⟨_, .undefined⟩ => .var none "undefined"
  | ⟨_, c⟩ => .literal none (.new c)

def sourceItems : List Value → List Expr
  | [] => []
  | v :: vs => v.source :: sourceItems vs

def sourceEntries : List (String × Value) → List (String × Expr)
  | [] => []
  | (k, v) :: es => (k, v.source) :: sourceEntries es

end

mutual

/-- What the text of an expression is read as, without locations. -/
def Expr.reread : Expr → Expr
  | .literal _ v => v.source
  | .var _ name => .var none name
  | .array _ items => .array none (rereadItems items)
  | .map _ entries => .map none (rereadEntries entries)
  | .unary _ op a => .unary none op a.reread
  | .binary _ op a b => .binary none op a.reread b.reread
  | .subscript _ a b => a.reread.applied b.reread
  | .switch _ cases => .switch none (rereadItems cases)

def rereadItems : List Expr → List Expr
  | [] => []
  | e :: es => e.reread :: rereadItems es

def rereadEntries : List (String × Expr) → List (String × Expr)
  | [] => []
  | (k, e) :: es => (k, e.reread) :: rereadEntries es

end

/-! ## Texts of numbers -/

namespace Number

theorem isBinary_unsigned (cs : List Char) : (unsigned cs).isBinary = false ∧ (unsigned cs).isSwitch = false := by
  unfold unsigned
  split <;> exact ⟨rfl, rfl⟩

theorem isBinary_sourceOf (cs : List Char) : (sourceOf cs).isBinary = false ∧ (sourceOf cs).isSwitch = false := by
  unfold sourceOf
  split
  · exact ⟨rfl, rfl⟩
  · exact isBinary_unsigned _

theorem firm_name : ∀ cs ∈ "undefined".toList :: names, (⟨.name, cs⟩ : Lexeme).Firm := by
  have hword : ∀ cs ∈ "undefined".toList :: names, wordKind cs = .name ∧ cs.all isWordPart = true ∧
      cs.head?.any isWordStart = true := by decide
  intro cs hcs
  obtain ⟨hkind, hpart, hstart⟩ := hword cs hcs
  cases cs with
  | nil => cases hstart
  | cons c cs =>
    rw [← hkind]
    exact firm_word hstart (List.all_eq_true.1 hpart)

variable {body : List Char} (h : IsPlainNumeral body ∨ body ∈ names)

include h

theorem spells_unsigned : Spells body (unsigned body) := by
  rcases h with h | h
  · obtain ⟨y, hy⟩ := h.value
    rw [unsigned, hy]
    exact spells_literal (firm_number h.front) (.tail _ (.head _)) fun t hk hd => Token.literal_number hk (hd ▸ hy)
  · have hnone : ∀ cs ∈ names, Numeral.value? cs = none := by decide
    rw [unsigned, hnone body h]
    exact spells_name (firm_name body (List.mem_cons_of_mem _ h))

/-- What stands behind a sign does not begin with one. -/
theorem sourceOf_positive : sourceOf ((signText .positive).toList ++ body) = unsigned body := by
  show sourceOf body = _
  unfold sourceOf
  split
  · rcases h with h | h
    · obtain ⟨c, r, hcons, hdigit⟩ := h.head
      cases hcons
      cases hdigit
    · simp [names] at h
  · rfl

/-- A sign is read apart from what stands behind it. -/
theorem spells_sourceOf (s : Float.Model.UnpackedFloat.Sign) :
    Spells ((signText s).toList ++ body) (sourceOf ((signText s).toList ++ body)) := by
  have hspells := spells_unsigned h
  cases s with
  | positive =>
    rw [sourceOf_positive h]
    exact hspells
  | negative =>
    rw [← String.toList_ofList (l := body)] at hspells
    have hsign : Spells (UnaryOp.minus.write (String.ofList body)).toList (.unary none .minus _) :=
      hspells.sign rfl (by rw [String.toList_ofList]; exact (isBinary_unsigned body).1)
    simpa [UnaryOp.write, signText, sourceOf] using hsign

end Number

theorem Number.spells_text (x : Float) : Spells (Number.text x).toList (sourceOf (Number.text x).toList) := by
  obtain ⟨s, body, htext, hbody⟩ := text_parts x
  rw [htext]
  exact spells_sourceOf hbody s

/-- The text of an integer is that of a sign and then digits. -/
theorem Number.integer_parts (i : Int) : ∃ s, (toString i).toList = (signText s).toList ++ (toString i.natAbs).toList ∧
    (s = .positive ∧ i = i.natAbs ∨ s = .negative ∧ i < 0) := by
  cases i with
  | ofNat n => exact ⟨.positive, rfl, .inl ⟨rfl, rfl⟩⟩
  | negSucc n => exact ⟨.negative, String.toList_append .., .inr ⟨rfl, Int.negSucc_lt_zero n⟩⟩

theorem Number.isPlainNumeral_natural (n : Nat) : IsPlainNumeral (toString n).toList := by
  rw [Nat.toString_eq_repr, Nat.toList_repr]
  exact ⟨_, [], isDigits_toDigits n, .inl rfl, (List.append_nil _).symm⟩

theorem Number.spells_integer (i : Int) : Spells (toString i).toList (sourceOf (toString i).toList) := by
  obtain ⟨s, htext, _⟩ := integer_parts i
  rw [htext]
  exact spells_sourceOf (.inl (isPlainNumeral_natural i.natAbs)) s

/-! ## Texts of values -/

/-- No open range. -/
def Value.ClosedPart : Value → Prop
  | ⟨_, .range (.startingAt _)⟩ | ⟨_, .range (.endingAt _)⟩ => False
  | _ => True

instance : DecidablePred Value.ClosedPart
  | ⟨_, .range (.startingAt _)⟩ | ⟨_, .range (.endingAt _)⟩ => isFalse id
  | ⟨_, .range (.between _ _)⟩ | ⟨_, .boolean _⟩ | ⟨_, .string _⟩ | ⟨_, .number _⟩ | ⟨_, .array _⟩ | ⟨_, .map _⟩
  | ⟨_, .null⟩ | ⟨_, .undefined⟩ => isTrue trivial

/-- No open range anywhere. -/
def Value.Closed (v : Value) : Prop := v.Each ClosedPart

instance (v : Value) : Decidable v.Closed := inferInstanceAs (Decidable (v.Each Value.ClosedPart))

theorem Value.precedence_source (v : Value) : v.source.isBinary = false ∧ v.source.isSwitch = false := by
  obtain ⟨m, c⟩ := v
  cases c with
  | number x => rw [source]; exact Number.isBinary_sourceOf _
  | range r => cases r <;> exact ⟨rfl, rfl⟩
  | _ => exact ⟨rfl, rfl⟩

theorem keys_sourceEntries (es : List (String × Value)) : Entries.keys (sourceEntries es) = Entries.keys es := by
  induction es with
  | nil => rfl
  | cons f es ih => exact congrArg (f.1 :: ·) ih

mutual

/-- The text of a value is read as its source. -/
theorem Value.spelled : ∀ {v : Value}, v.Closed → v.Keyed → Spells v.text.toList v.source
  | ⟨_, .boolean b⟩, _, _ => spells_literal (Value.boolean_readsBack b).1 (Value.lexeme_kind (.boolean b))
      fun _ hk hd => Token.literal_boolean hk hd
  | ⟨_, .string s⟩, _, _ => spells_literal (Value.string_readsBack s).1 (Value.lexeme_kind (.string s))
      fun _ hk hd => Token.literal_string hk hd
  | ⟨_, .null⟩, _, _ => spells_literal Value.null_readsBack.1 (Value.lexeme_kind .null)
      fun _ hk _ => Token.literal_null hk
  | ⟨_, .number x⟩, _, _ => Number.spells_text x
  | ⟨_, .undefined⟩, _, _ => spells_name (Number.firm_name _ List.mem_cons_self)
  | ⟨_, .range (.between first last)⟩, _, _ => by
    have hfirst := Number.isBinary_sourceOf (toString first).toList
    have hlast := Number.isBinary_sourceOf (toString last).toList
    have hrange : Spells (BinaryOp.range.write _ _).toList (.binary none .range _ _) :=
      (Number.spells_integer first).binary (Number.spells_integer last)
        (by rw [Expr.precedence_of_not_binary hfirst.1]; decide) (by rw [Expr.precedence_of_not_binary hlast.1]; decide)
    simpa [Value.text, Value.render, Range.text, BinaryOp.write, String.append_assoc, Value.source] using hrange.bracketed
  | ⟨_, .range (.startingAt _)⟩, h, _ | ⟨_, .range (.endingAt _)⟩, h, _ => h.elim
  | ⟨_, .array []⟩, _, _ => by
    rw [Value.text, Value.render]
    exact spells_emptyArray
  | ⟨_, .map []⟩, _, _ => by
    rw [Value.text, Value.render]
    exact spells_emptyMap
  | ⟨_, .array (v :: vs)⟩, h, hkeyed => by
    rw [Value.text, Value.render]
    exact spells_array (items_spelled (Value.each_array.1 h).2 (Value.each_array.1 hkeyed).2)
  | ⟨_, .map (e :: es)⟩, h, hkeyed => by
    obtain ⟨hnodup, hkeyed⟩ := Value.each_map.1 hkeyed
    rw [Value.text, Value.render]
    exact spells_map (entries_spelled (Value.each_map.1 h).2 hkeyed)
      (by rw [Entries.Nodup, keys_sourceEntries]; exact hnodup)

theorem items_spelled : ∀ {vs : List Value}, (∀ v ∈ vs, v.Closed) → (∀ v ∈ vs, v.Keyed) →
    List.Forall₂ (fun p r => Spells p.toList r) (renderItems .line vs) (sourceItems vs)
  | [], _, _ => .nil
  | _ :: _, h, hkeyed =>
    .cons (Value.spelled (List.forall_mem_cons.1 h).1 (List.forall_mem_cons.1 hkeyed).1)
      (items_spelled (List.forall_mem_cons.1 h).2 (List.forall_mem_cons.1 hkeyed).2)

theorem entries_spelled : ∀ {es : List (String × Value)}, (∀ f ∈ es, f.2.Closed) → (∀ f ∈ es, f.2.Keyed) →
    List.Forall₂ SpellsEntry (renderEntries .line es) (sourceEntries es)
  | [], _, _ => .nil
  | (_, _) :: _, h, hkeyed =>
    .cons ⟨_, rfl, Value.spelled (List.forall_mem_cons.1 h).1 (List.forall_mem_cons.1 hkeyed).1⟩
      (entries_spelled (List.forall_mem_cons.1 h).2 (List.forall_mem_cons.1 hkeyed).2)

end

/-! ## Texts of trees -/

namespace Expr

/-- A node over parts that may stand where they do. In an array all kinds of items count. -/
def Shaped : Expr → Prop
  | var _ name => (⟨.name, name.toList⟩ : Lexeme).Firm
  | map _ entries => ∀ f ∈ entries, f.2.isOpenRange = false
  | unary _ op a => a.isOpenRange = false ∧ (op.isSign = true → a.isBinary = false)
  | binary _ op a b => (a.isOpenRange = false ∧ b.isOpenRange = false) ∧
      op.precedence ≤ a.precedence ∧ op.precedence < b.precedence
  | subscript _ a _ => a.isOpenRange = false ∧ a.isBinary = false ∧ a.isSwitch = false
  | switch _ cases => ∀ e ∈ cases, e.isOpenRange = false
  | _ => True

/-- No open range in an array or in a value. -/
def Closed : Expr → Prop
  | literal _ v => v.Closed
  | array _ items => ∀ e ∈ items, e.isOpenRange = false
  | _ => True

instance : DecidablePred Closed
  | literal _ v => inferInstanceAs (Decidable v.Closed)
  | array _ items => inferInstanceAs (Decidable (∀ e ∈ items, e.isOpenRange = false))
  | var .. | map .. | unary .. | binary .. | subscript .. | switch .. => isTrue trivial

/-- A node that is read again where it is printed. -/
def Respelled (n : Expr) : Prop := n.Shaped ∧ n.DistinctKeys ∧ n.Closed

theorem isBinary_reread (e : Expr) : e.reread.isBinary = e.isBinary := by
  cases e with
  | literal l v => exact v.precedence_source.1
  | subscript l a b => exact applied_not_binary _ _
  | _ => rfl

theorem isSwitch_reread (e : Expr) : e.reread.isSwitch = e.isSwitch := by
  cases e with
  | literal l v => exact v.precedence_source.2
  | subscript l a b => exact isSwitch_applied _ _
  | _ => rfl

theorem precedence_reread (e : Expr) : e.reread.precedence = e.precedence := by
  cases he : e.isBinary with
  | false =>
    rw [precedence_of_not_binary he, precedence_of_not_binary (by rw [isBinary_reread, he])]
  | true =>
    cases e with
    | binary => rfl
    | _ => cases he

end Expr

theorem keys_rereadEntries (es : List (String × Expr)) : Entries.keys (rereadEntries es) = Entries.keys es := by
  induction es with
  | nil => rfl
  | cons f es ih => exact congrArg (f.1 :: ·) ih

/-- The text of an expression is read as it is reread, that of an open range only as an index. -/
def Expr.Spelled (e : Expr) : Prop :=
  (e.isOpenRange = false → Spells e.text.toList e.reread) ∧ SpellsIndex e.text.toList e.reread

theorem Spells.spelled {e : Expr} (h : Spells e.text.toList e.reread) : e.Spelled := ⟨fun _ => h, h.index⟩

mutual

theorem Expr.spelled : ∀ {e : Expr}, e.Each Expr.Respelled → e.Spelled
  | .literal _ v, h => by
    obtain ⟨_, hkeyed, hclosed⟩ := Expr.each_literal.1 h
    exact Spells.spelled (Value.spelled hclosed hkeyed)
  | .var _ name, h => by
    have hname := spells_name (Expr.each_var.1 h).1
    rw [String.ofList_toList] at hname
    exact Spells.spelled hname
  | .array _ items, h => by
    obtain ⟨⟨_, _, hopen⟩, hitems⟩ := Expr.each_array.1 h
    have htext : (Expr.array none items).text = Layout.line.bracket "[" "]" (exprTexts items) := by
      simp [Expr.text, Layout.bracket, ← String.toList_inj]
    exact Spells.spelled (htext ▸ spells_array (exprs_spelled hitems hopen))
  | .map _ es, h => by
    obtain ⟨⟨hopen, hnodup, _⟩, hes⟩ := Expr.each_map.1 h
    have htext : (Expr.map none es).text = Layout.line.bracket "\x7b" "\x7d" (entryTexts es) := by
      simp [Expr.text, Layout.bracket, ← String.toList_inj]
    exact Spells.spelled (htext ▸ spells_map (exprEntries_spelled hes hopen)
      (by rw [Entries.Nodup, keys_rereadEntries]; exact hnodup))
  | .unary _ op a, h => by
    obtain ⟨⟨⟨hopen, hbinary⟩, _⟩, ha⟩ := Expr.each_unary.1 h
    have ha := (Expr.spelled ha).1 hopen
    cases op with
    | group => exact Spells.spelled ha.group
    | startingAt => exact ⟨fun h => (nomatch h), ha.startingAt⟩
    | endingAt => exact ⟨fun h => (nomatch h), ha.endingAt⟩
    | _ => exact Spells.spelled (ha.sign rfl (by rw [Expr.isBinary_reread]; exact hbinary rfl))
  | .binary _ op a b, h => by
    obtain ⟨⟨⟨⟨hleft, hright⟩, hle, hlt⟩, _⟩, ha, hb⟩ := Expr.each_binary.1 h
    rw [← Expr.precedence_reread] at hle hlt
    exact Spells.spelled (((Expr.spelled ha).1 hleft).binary ((Expr.spelled hb).1 hright) hle hlt)
  | .subscript _ a b, h => by
    obtain ⟨⟨⟨hopen, hbinary, hswitch⟩, _⟩, ha, hb⟩ := Expr.each_subscript.1 h
    exact Spells.spelled (((Expr.spelled ha).1 hopen).subscript (Expr.spelled hb).2
      (by rw [Expr.isBinary_reread, hbinary]) (by rw [Expr.isSwitch_reread, hswitch]))
  | .switch _ cases, h => by
    obtain ⟨⟨hopen, _⟩, hcases⟩ := Expr.each_switch.1 h
    have htext : (Expr.switch none cases).text = Layout.line.bracket "\x7b\x7b" "\x7d\x7d" (exprTexts cases) := by
      simp [Expr.text, Layout.bracket, ← String.toList_inj]
    exact Spells.spelled (htext ▸ spells_switch (exprs_spelled hcases hopen))

theorem exprs_spelled : ∀ {es : List Expr}, (∀ e ∈ es, e.Each Expr.Respelled) →
    (∀ e ∈ es, e.isOpenRange = false) → List.Forall₂ (fun p r => Spells p.toList r) (exprTexts es) (rereadItems es)
  | [], _, _ => .nil
  | e :: es, h, hopen => by
    obtain ⟨he, hes⟩ := List.forall_mem_cons.1 h
    obtain ⟨ho, hos⟩ := List.forall_mem_cons.1 hopen
    exact .cons ((Expr.spelled he).1 ho) (exprs_spelled hes hos)

theorem exprEntries_spelled : ∀ {es : List (String × Expr)}, (∀ f ∈ es, f.2.Each Expr.Respelled) →
    (∀ f ∈ es, f.2.isOpenRange = false) → List.Forall₂ SpellsEntry (entryTexts es) (rereadEntries es)
  | [], _, _ => .nil
  | (k, e) :: es, h, hopen => by
    obtain ⟨he, hes⟩ := List.forall_mem_cons.1 h
    obtain ⟨ho, hos⟩ := List.forall_mem_cons.1 hopen
    exact .cons ⟨_, rfl, (Expr.spelled he).1 ho⟩ (exprEntries_spelled hes hos)

end

end ExprLang
