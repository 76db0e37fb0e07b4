import ExprLang.Proofs.Lexemes
import ExprLang.Proofs.Parser.Reads
import ExprLang.Scanner

/-!
# Where a scanner is

Whatever is done with a scanner, and whether it succeeds or fails, the cursor stands between two
characters of the source, at the place that reading the text before it leads to. Each operation only
reads on from the cursor (`Cursor.Reaches`), going back only to a cursor that was saved; so all
cursors of a run are reached from the first one, and so are the places of all tokens.

* `Reading.Keeps`: no reading of tokens leaves the cursors of its stream, failing ones included.
* `Scanner.perform_reaches`: one operation.
* `Scanner.run_placed`: all operations, for the cursor and for the tokens that are returned.
-/

namespace ExprLang

/-! ## Reading on -/

/-- The second cursor is where reading some text from the first one on leads to. -/
def Cursor.Reaches (c d : Cursor) : Prop := ∃ text, c.rest = text ++ d.rest ∧ d = c.past text d.rest

namespace Cursor

variable {b c d : Cursor}

theorem Reaches.refl (c : Cursor) : c.Reaches c := ⟨[], rfl, rfl⟩

theorem Reaches.trans (h : b.Reaches c) (h' : c.Reaches d) : b.Reaches d := by
  obtain ⟨s, hs, hc⟩ := h
  obtain ⟨t, ht, hd⟩ := h'
  refine ⟨s ++ t, by rw [hs, ht, List.append_assoc], ?_⟩
  rw [hd, hc, past_past]
  rfl

theorem reaches_past {text rest : List Char} (h : c.rest = text ++ rest) : c.Reaches (c.past text rest) := ⟨text, h, rfl⟩

theorem reaches_skipGap (c : Cursor) : c.Reaches c.skipGap := reaches_past (Lexeme.gap_append c.rest).symm

theorem reaches_next (c : Cursor) : c.Reaches c.next.2 := by
  unfold next
  split
  · exact c.reaches_skipGap
  · next hl => exact c.reaches_skipGap.trans (reaches_past (Lexeme.front_lexeme hl).2.symm)
  · exact c.reaches_skipGap.trans (reaches_past (List.append_nil _).symm)
  · exact c.reaches_skipGap

theorem reaches_expectByte (byte : UInt8) (c : Cursor) : c.Reaches (c.expectByte byte).2 := by
  unfold expectByte
  split
  · next x hx =>
    obtain ⟨r, hr⟩ := List.head?_eq_some_iff.1 (Option.filter_eq_some_iff.1 hx).1
    have hrest : c.skipGap.rest = [x] ++ c.skipGap.rest.tail := by rw [hr]; rfl
    exact c.reaches_skipGap.trans (reaches_past hrest)
  · exact c.reaches_skipGap

end Cursor

/-! ## Expecting a byte -/

theorem Char.toNat_toUInt8 {x : Char} (hx : x.toNat < 128) : x.toUInt8.toNat = x.toNat := by
  show x.toNat % 256 = x.toNat
  omega

/-- No other character begins with the byte of a character of one byte. -/
theorem Char.head?_utf8EncodeChar {x y : Char} (hx : x.toNat < 128) :
    (String.utf8EncodeChar y).head? = some x.toUInt8 ↔ y = x := by
  rw [String.utf8EncodeChar]
  constructor
  · intro h
    have hvalue : y.val.toNat = x.toNat := by
      split at h
      · have h := congrArg UInt8.toNat (Option.some.inj h)
        rw [toNat_toUInt8 hx, UInt8.toNat_ofNat'] at h
        omega
      · -- the first of several bytes is at least 192
        exfalso
        repeat' split at h
        all_goals
          have h := congrArg UInt8.toNat (Option.some.inj h)
          rw [toNat_toUInt8 hx, UInt8.toNat_ofNat'] at h
          omega
    exact Char.ext (UInt32.toNat_inj.1 hvalue)
  · rintro rfl
    have hy : y.val.toNat ≤ 127 := Nat.le_of_lt_succ hx
    rw [if_pos hy]
    rfl

/-- A sign of one byte may be expected as that byte. -/
theorem Cursor.expectByte_toUInt8 {x : Char} (hx : x.toNat < 128) (c : Cursor) :
    c.expectByte x.toUInt8 = c.expectCharacter x := by
  have hchar : Char.ofNat x.toUInt8.toNat = x := by rw [Char.toNat_toUInt8 hx, Char.ofNat_toNat]
  unfold expectByte expectCharacter
  rw [hchar]
  cases hrest : c.skipGap.rest with
  | nil => rfl
  | cons y r =>
    rw [List.head?_cons, Option.filter_some]
    simp only [beq_iff_eq, Char.head?_utf8EncodeChar hx, Option.some.injEq]
    by_cases hy : y = x <;> simp [hy]

/-! ## Streams and readings -/

/-- All cursors of a stream have a property. -/
def Tokens.Within (P : Cursor → Prop) : Tokens → Prop
  | token here _ rest => P here ∧ rest.Within P
  | ending here _ stop => P here ∧ P stop

namespace Tokens

variable {P : Cursor → Prop} {s : Tokens}

theorem Within.cursor (h : s.Within P) : P s.cursor := by
  cases s <;> exact h.1

theorem Within.tail (h : s.Within P) : s.tail.Within P := by
  cases s with
  | token here t rest => exact h.2
  | ending here result stop => exact ⟨h.2, h.2⟩

theorem within_read (c : Cursor) : (read c).Within c.Reaches := by
  suffices h : ∀ b : Cursor, b.Reaches c → (read c).Within b.Reaches from h c (.refl c)
  fun_induction read c with
  | case1 c l rest hl _ ih =>
    intro b hb
    have hpast : c.skipGap.Reaches (c.skipGap.past l.text rest) :=
      Cursor.reaches_past (Lexeme.front_lexeme hl).2.symm
    exact ⟨hb, ih b (hb.trans (c.reaches_skipGap.trans hpast))⟩
  | case2 c _ => exact fun b hb => ⟨hb, hb.trans c.reaches_next⟩

end Tokens

namespace Reading

variable {P : Cursor → Prop} {α β : Type}

/-- The cursors that an outcome leaves have a property. -/
def LeavesIn (P : Cursor → Prop) : Except Stop (α × Tokens) → Prop
  | .ok (_, s) => s.Within P
  | .error (.refused _ stop) => P stop
  | .error .outOfDepth => True

/-- A reading leaves no other cursors than those of its stream, also where it fails. -/
def Keeps (P : Cursor → Prop) (r : Reading α) : Prop := ∀ s : Tokens, s.Within P → LeavesIn P (r s)

namespace Keeps

theorem pure (a : α) : Keeps P (Pure.pure a : Reading α) := fun _ h => h

theorem outOfDepth : Keeps P (Reading.outOfDepth : Reading α) := fun _ _ => trivial

theorem bind {x : Reading α} {f : α → Reading β} (hx : Keeps P x) (hf : ∀ a, Keeps P (f a)) : Keeps P (x >>= f) := by
  intro s hs
  have hleaves := hx s hs
  show LeavesIn P (x s >>= fun p => f p.1 p.2)
  cases hx : x s with
  | ok p =>
    rw [hx] at hleaves
    exact hf p.1 p.2 hleaves
  | error stop =>
    rw [hx] at hleaves
    cases stop <;> exact hleaves

theorem look (f : Tokens → Except Error α) : Keeps P (Reading.look f) := by
  intro s hs
  unfold Reading.look
  cases f s with
  | ok a => exact hs
  | error e => exact hs.cursor

theorem peek : Keeps P Reading.peek := look _

theorem peekExpected (ks : List Token.Kind) : Keeps P (Reading.peekExpected ks) := look _

theorem ahead (k : Token.Kind) : Keeps P (Reading.ahead k) := peek.bind fun _ => pure _

theorem next : Keeps P Reading.next := by
  intro s hs
  unfold Reading.next
  cases s.head with
  | ok t => exact hs.tail
  | error e => exact hs.tail.cursor

theorem expect (ks : List Token.Kind) : Keeps P (Reading.expect ks) := by
  intro s hs
  unfold Reading.expect
  cases s.head >>= Cursor.check ks with
  | ok t => exact hs.tail
  | error e => exact hs.tail.cursor

end Keeps

end Reading

/-! ## The grammar -/

namespace Parser

open Reading (Keeps)

variable {P : Cursor → Prop} {d : Nat}

/-- Every function of the grammar keeps to its stream, up to a depth. -/
structure KeepsAt (P : Cursor → Prop) (d : Nat) : Prop where
  expression : Keeps P (expression d)
  operators (left : Expr) : Keeps P (operators d left)
  term : Keeps P (term d)
  subscripts (base : Expr) : Keeps P (subscripts d base)
  simple : Keeps P (simple d)
  list (kind : Item) : Keeps P (list d kind)
  items (kind : Item) : Keeps P (items d kind)
  item (kind : Item) : Keeps P (item d kind)
  map : Keeps P (map d)
  entries (before : Entries Expr) : Keeps P (entries d before)

namespace KeepsAt

theorem zero : KeepsAt P 0 where
  expression := .outOfDepth
  operators _ := .outOfDepth
  term := .outOfDepth
  subscripts _ := .outOfDepth
  simple := .outOfDepth
  list _ := .outOfDepth
  items _ := .outOfDepth
  item _ := .outOfDepth
  map := .outOfDepth
  entries _ := .outOfDepth

variable (h : KeepsAt P d)

include h

theorem succ_expression : Keeps P (Parser.expression (d + 1)) := by
  simp only [Parser.expression]
  exact (Keeps.peekExpected _).bind fun _ => h.term.bind h.operators

theorem succ_operators (left : Expr) : Keeps P (Parser.operators (d + 1) left) := by
  have hoperand (join : Expr → Expr) :
      Keeps P (Reading.next >>= fun _ => Parser.term d >>= fun e => Parser.operators d (join e)) :=
    Keeps.next.bind fun _ => h.term.bind fun e => h.operators (join e)
  simp only [Parser.operators]
  refine Keeps.peek.bind fun t => ?_
  split
  · exact .pure left
  · refine (Keeps.look _).bind fun u => ?_
    split
    · exact hoperand fun e => left.join t.location .range e
    · exact .pure left
  · next op _ _ => exact hoperand fun e => left.join t.location op e

theorem succ_term : Keeps P (Parser.term (d + 1)) := by
  simp only [Parser.term]
  refine (Keeps.peekExpected _).bind fun t => ?_
  split
  · exact (Keeps.expect _).bind fun _ => (Keeps.peekExpected _).bind fun _ => (h.list _).bind fun _ => .pure _
  · exact h.simple.bind h.subscripts

theorem succ_subscripts (base : Expr) : Keeps P (Parser.subscripts (d + 1) base) := by
  simp only [Parser.subscripts]
  refine Keeps.peek.bind fun t => ?_
  split
  · exact Keeps.next.bind fun _ => (h.list _).bind fun _ => h.subscripts _
  · exact .pure base

theorem succ_simple : Keeps P (Parser.simple (d + 1)) := by
  simp only [Parser.simple]
  refine (Keeps.peekExpected _).bind fun t => ?_
  split
  · exact Keeps.next.bind fun _ => h.term.bind fun _ => .pure _
  · exact Keeps.next.bind fun _ => h.expression.bind fun _ => (Keeps.expect _).bind fun _ => .pure _
  · exact Keeps.next.bind fun _ => .pure _
  · exact Keeps.next.bind fun _ => (h.list _).bind fun _ => .pure _
  · exact Keeps.next.bind fun _ => h.map.bind fun _ => .pure _
  · exact (Keeps.look _).bind fun _ => Keeps.next.bind fun _ => .pure _

theorem succ_list (kind : Item) : Keeps P (Parser.list (d + 1) kind) := by
  simp only [Parser.list]
  refine (Keeps.ahead _).bind fun closed => ?_
  split
  · exact Keeps.next.bind fun _ => .pure _
  · exact h.items kind

theorem succ_items (kind : Item) : Keeps P (Parser.items (d + 1) kind) := by
  simp only [Parser.items]
  refine (h.item kind).bind fun e => (Keeps.expect _).bind fun t => ?_
  split
  · exact (h.items kind).bind fun _ => .pure _
  · exact .pure _

theorem succ_item (kind : Item) : Keeps P (Parser.item (d + 1) kind) := by
  cases kind with
  | case =>
    simp only [Parser.item]
    exact h.expression
  | element =>
    simp only [Parser.item]
    refine h.expression.bind fun e => Keeps.peek.bind fun t => ?_
    split
    · exact Keeps.next.bind fun _ => h.expression.bind fun _ => .pure _
    · exact .pure e
  | index =>
    simp only [Parser.item]
    refine Keeps.peek.bind fun t => ?_
    split
    · exact Keeps.next.bind fun _ => h.expression.bind fun _ => .pure _
    · refine h.expression.bind fun e => Keeps.peek.bind fun u => ?_
      split
      · refine Keeps.next.bind fun _ => Keeps.peek.bind fun v => ?_
        split
        · exact h.expression.bind fun _ => .pure _
        · exact .pure _
      · exact .pure e

theorem succ_map : Keeps P (Parser.map (d + 1)) := by
  simp only [Parser.map]
  refine (Keeps.ahead _).bind fun closed => ?_
  split
  · exact Keeps.next.bind fun _ => .pure _
  · exact h.entries []

theorem succ_entries (before : Entries Expr) : Keeps P (Parser.entries (d + 1) before) := by
  simp only [Parser.entries]
  refine (Keeps.expect _).bind fun key => (Keeps.expect _).bind fun _ => h.expression.bind fun e =>
    (Keeps.expect _).bind fun t => ?_
  split
  · exact h.entries _
  · exact .pure _

theorem succ : KeepsAt P (d + 1) where
  expression := h.succ_expression
  operators := h.succ_operators
  term := h.succ_term
  subscripts := h.succ_subscripts
  simple := h.succ_simple
  list := h.succ_list
  items := h.succ_items
  item := h.succ_item
  map := h.succ_map
  entries := h.succ_entries

end KeepsAt

theorem keepsAt (P : Cursor → Prop) : ∀ d, KeepsAt P d
  | 0 => .zero
  | d + 1 => (keepsAt P d).succ

end Parser

/-! ## Operations -/

namespace Cursor

variable {c : Cursor}

/-- A reading that keeps to its stream stops where reading on leads to. -/
theorem reaches_read {α : Type} {r : Tokens → Reading α} (hr : ∀ s, (r s).Keeps c.Reaches) : c.Reaches (c.read r).2 := by
  have hleaves := hr (Tokens.read c) (Tokens.read c) (Tokens.within_read c)
  unfold read
  split
  · next hread =>
    rw [hread] at hleaves
    exact hleaves.cursor
  · next hread =>
    rw [hread] at hleaves
    exact hleaves
  · exact .refl c

theorem reaches_parse (mode : ParseMode) (c : Cursor) : c.Reaches (Expr.read mode c).2 := by
  refine reaches_read fun s => (Parser.keepsAt c.Reaches _).expression.bind fun e => ?_
  cases mode with
  | strict => exact (Reading.Keeps.peekExpected _).bind fun _ => .pure e
  | lenient => exact .pure e

end Cursor

theorem Template.host_append (cs : List Char) : (host cs).read ++ (host cs).span.getD [] = cs := by
  fun_induction host cs <;> simp_all [Host.cons]

theorem Cursor.reaches_hostText (c : Cursor) : c.Reaches c.hostText.2.2 :=
  reaches_past (Template.host_append c.rest).symm

/-! ## Tokens -/

/-- A token that begins at a cursor, behind any gap. -/
def Token.BeginsAt (d : Cursor) (t : Token) : Prop :=
  (∃ l rest, Lexeme.front d.rest = .lexeme l rest ∧ t = d.token l) ∨ d.rest = [] ∧ t = d.endToken

namespace Cursor

variable {c : Cursor} {t : Token} {ks : List Token.Kind}

theorem next_beginsAt (h : c.next.1 = .ok t) : ∃ d, c.Reaches d ∧ t.BeginsAt d := by
  refine ⟨c.skipGap, c.reaches_skipGap, ?_⟩
  unfold next at h
  split at h
  · next hended =>
    cases h
    exact .inr ⟨Lexeme.eq_nil_of_front hended, rfl⟩
  · next l rest hl =>
    cases h
    exact .inl ⟨l, rest, hl, rfl⟩
  · cases h
  · cases h

theorem peekSecond_beginsAt (h : c.peekSecond = .ok t) : ∃ d, c.Reaches d ∧ t.BeginsAt d := by
  have hafter := c.reaches_next
  unfold peekSecond at h
  split at h
  · next u after hnext =>
    rw [hnext] at hafter
    obtain ⟨d, hd, ht⟩ := next_beginsAt h
    exact ⟨d, hafter.trans hd, ht⟩
  · cases h

theorem check_beginsAt (h : (c.next.1 >>= check ks) = .ok t) : ∃ d, c.Reaches d ∧ t.BeginsAt d :=
  next_beginsAt (Reading.check_ok.1 h).1

end Cursor

namespace Lexeme

/-- The text of a string is its data between two quotes; any other lexeme is its data. -/
theorem front_text {cs rest : List Char} {l : Lexeme} (h : front cs = .lexeme l rest) :
    if l.kind = .string then ∃ q, (q = '"' ∨ q = '\x27') ∧ l.text = q :: (l.data ++ [q]) else l.text = l.data := by
  by_cases hk : l.kind = .string
  · rw [if_pos hk]
    obtain ⟨c, r, rfl, ⟨hc, body, hq, rfl⟩ | ⟨_, _, _, hn⟩ | ⟨_, rfl, _⟩ | ⟨hs, _⟩⟩ := front_cases h
    · obtain ⟨data, rfl⟩ := quoted_closed hq
      exact ⟨c, hc, by simp [Lexeme.data]⟩
    · rw [hn] at hk
      cases hk
    · exact absurd hk (wordKind_ne (by decide) _)
    · have hsigns : ∀ x ∈ signs, x.2 ≠ .string := by decide
      exact absurd hk (hsigns _ (sign?_kind hs))
  · rw [if_neg hk, data, if_neg hk]

/-- What stands before the data of a lexeme: the quote of a string, and nothing otherwise. -/
def IsOpening (kind : Token.Kind) (opening : List Char) : Prop :=
  if kind = .string then opening = ['"'] ∨ opening = ['\x27'] else opening = []

theorem front_data {cs rest : List Char} {l : Lexeme} (h : front cs = .lexeme l rest) :
    ∃ opening closing, IsOpening l.kind opening ∧ l.text = opening ++ l.data ++ closing := by
  have htext := front_text h
  by_cases hk : l.kind = .string
  · rw [if_pos hk] at htext
    obtain ⟨q, hq, htext⟩ := htext
    refine ⟨[q], [q], ?_, by rw [htext]; simp⟩
    rw [IsOpening, if_pos hk]
    exact hq.imp (congrArg (List.cons · [])) (congrArg (List.cons · []))
  · rw [if_neg hk] at htext
    exact ⟨[], [], by simp [IsOpening, hk], by rw [htext]; simp⟩

end Lexeme

/-! ## Places in a text -/

theorem Text.byteSize_eq (cs : List Char) : byteSize cs = (String.ofList cs).utf8ByteSize := by
  induction cs with
  | nil => rfl
  | cons c cs ih => rw [byteSize, ih, String.ofList_cons, String.utf8ByteSize_append, String.utf8ByteSize_singleton]

/-- The number of bytes before a place between two characters is a valid position. -/
theorem Text.isValid_byteSize {text : String} {before after : List Char} (h : text.toList = before ++ after) :
    (⟨byteSize before⟩ : String.Pos.Raw).IsValid text := by
  refine String.Pos.Raw.isValid_iff_exists_append.2 ⟨String.ofList before, String.ofList after, ?_, ?_⟩
  · rw [← String.ofList_append, ← h, String.ofList_toList]
  · rw [byteSize_eq]
    rfl

/-- A cursor between two characters of a text, at the place that the text before it leads to. -/
structure Cursor.PlacedIn (text : String) (origin : Location) (c : Cursor) : Prop where
  valid : (⟨c.offset⟩ : String.Pos.Raw).IsValid text
  place : ∃ before, text.toList = before ++ c.rest ∧ c.offset = Text.byteSize before ∧ c.location = origin.after before

/-- A token whose data stand in a text between its two offsets, at the place of its first character. -/
structure Token.PlacedIn (text : String) (origin : Location) (t : Token) : Prop where
  start_le_stop : t.start ≤ t.stop
  start_valid : (⟨t.start⟩ : String.Pos.Raw).IsValid text
  stop_valid : (⟨t.stop⟩ : String.Pos.Raw).IsValid text
  place : ∃ before opening after, Lexeme.IsOpening t.kind opening ∧
    text.toList = before ++ opening ++ t.data ++ after ∧ t.start = Text.byteSize (before ++ opening) ∧
    t.location = origin.after before

theorem Cursor.Reaches.placedIn {text : String} {origin : Location} {c : Cursor}
    (h : (Cursor.start text origin).Reaches c) : c.PlacedIn text origin := by
  obtain ⟨before, htext, hc⟩ := h
  have hoffset : c.offset = Text.byteSize before := by rw [hc]; exact Nat.zero_add _
  refine ⟨?_, before, htext, hoffset, by rw [hc]; rfl⟩
  rw [hoffset]
  exact Text.isValid_byteSize htext

theorem Token.BeginsAt.placedIn {text : String} {origin : Location} {c : Cursor} {t : Token}
    (hc : c.PlacedIn text origin) (ht : t.BeginsAt c) : t.PlacedIn text origin := by
  obtain ⟨before, htext, hoffset, hlocation⟩ := hc.place
  -- the data of a lexeme are a part of its text, and that is in front of what follows the cursor
  have hplace : ∃ opening after, Lexeme.IsOpening t.kind opening ∧ text.toList = before ++ opening ++ t.data ++ after ∧
      t.start = Text.byteSize (before ++ opening) ∧ t.location = origin.after before := by
    rcases ht with ⟨l, rest, hl, rfl⟩ | ⟨hrest, rfl⟩
    · obtain ⟨opening, closing, hopening, hdata⟩ := Lexeme.front_data hl
      refine ⟨opening, closing ++ rest, hopening, ?_, ?_, hlocation⟩
      · rw [htext, ← (Lexeme.front_lexeme hl).2, hdata]
        simp [Cursor.token]
      · rw [Text.byteSize_append, ← hoffset]
        unfold Lexeme.IsOpening at hopening
        by_cases hk : l.kind = .string
        · rw [if_pos hk] at hopening
          rcases hopening with rfl | rfl <;> exact if_pos hk
        · rw [if_neg hk] at hopening
          rw [hopening]
          exact if_neg hk
    · refine ⟨[], [], rfl, ?_, ?_, hlocation⟩
      · simp [htext, hrest, Cursor.endToken]
      · rw [List.append_nil, ← hoffset]
        rfl
  obtain ⟨opening, after, hopening, hsplit, hstart, hloc⟩ := hplace
  have hstop : t.stop = Text.byteSize (before ++ opening ++ t.data) := by rw [stop, hstart, ← Text.byteSize_append]
  refine ⟨Nat.le_add_right _ _, ?_, ?_, before, opening, after, hopening, hsplit, hstart, hloc⟩
  · rw [hstart]
    exact Text.isValid_byteSize (by rw [hsplit, List.append_assoc])
  · rw [hstop]
    exact Text.isValid_byteSize hsplit

/-! ## Scanners -/

namespace Scanner

/-- All cursors of a scanner are reached from the given one. -/
def ReachedFrom (c : Cursor) (s : Scanner) : Prop := c.Reaches s.cursor ∧ ∀ d ∈ s.saved, c.Reaches d

theorem reachedFrom_start (text : String) (origin : Location) :
    (start text origin).ReachedFrom (Cursor.start text origin) := ⟨.refl _, by simp [start]⟩

/-- An operation leaves the scanner where its cursors lead to. -/
theorem perform_reaches {c : Cursor} {s : Scanner} (o : Operation) (h : s.ReachedFrom c) :
    (s.perform o).2.ReachedFrom c := by
  obtain ⟨hcursor, hsaved⟩ := h
  cases o with
  | next | expect => exact ⟨hcursor.trans s.cursor.reaches_next, hsaved⟩
  | peek | peekSecond | peekExpected => exact ⟨hcursor, hsaved⟩
  | expectByte byte => exact ⟨hcursor.trans (s.cursor.reaches_expectByte byte), hsaved⟩
  | hostText => exact ⟨hcursor.trans s.cursor.reaches_hostText, hsaved⟩
  | parse mode => exact ⟨hcursor.trans (s.cursor.reaches_parse mode), hsaved⟩
  | snapshot =>
    refine ⟨hcursor, fun d hd => ?_⟩
    rcases List.mem_append.1 hd with hd | hd
    · exact hsaved d hd
    · rw [List.mem_singleton.1 hd]
      exact hcursor
  | restore index =>
    refine ⟨?_, hsaved⟩
    show c.Reaches (s.saved[index]?.getD s.cursor)
    cases hd : s.saved[index]? with
    | none => exact hcursor
    | some d => exact hsaved d (List.mem_of_getElem? hd)

/-- A token that an operation gives begins where the cursor leads to. -/
theorem perform_beginsAt {s : Scanner} {o : Operation} {t : Token} (h : (s.perform o).1 = .token (.ok t)) :
    ∃ d, s.cursor.Reaches d ∧ t.BeginsAt d := by
  cases o with
  | next | peek => exact Cursor.next_beginsAt (Outcome.token.inj h)
  | peekSecond => exact Cursor.peekSecond_beginsAt (Outcome.token.inj h)
  | expect | peekExpected => exact Cursor.check_beginsAt (Outcome.token.inj h)
  | _ => cases h

theorem run_reaches {c : Cursor} {s : Scanner} (os : List Operation) (h : s.ReachedFrom c) :
    (s.run os).2.ReachedFrom c ∧ ∀ t, .token (.ok t) ∈ (s.run os).1 → ∃ d, c.Reaches d ∧ t.BeginsAt d := by
  induction os generalizing s with
  | nil => exact ⟨h, by simp [run]⟩
  | cons o os ih =>
    obtain ⟨hscanner, htokens⟩ := ih (perform_reaches o h)
    refine ⟨hscanner, fun t ht => ?_⟩
    rcases List.mem_cons.1 ht with ht | ht
    · obtain ⟨d, hd, hbegins⟩ := perform_beginsAt ht.symm
      exact ⟨d, h.1.trans hd, hbegins⟩
    · exact htokens t ht

/-- After any operations on a text, whether they succeed or fail, the cursor stands between two characters of the text at
the place that the text before it leads to, and so do the first characters of all tokens that were returned. -/
theorem run_placed (text : String) (origin : Location) (os : List Operation) :
    ((start text origin).run os).2.cursor.PlacedIn text origin ∧
      ∀ t, .token (.ok t) ∈ ((start text origin).run os).1 → t.PlacedIn text origin := by
  obtain ⟨⟨hcursor, _⟩, htokens⟩ := run_reaches os (reachedFrom_start text origin)
  refine ⟨hcursor.placedIn, fun t ht => ?_⟩
  obtain ⟨d, hd, hbegins⟩ := htokens t ht
  exact hbegins.placedIn hd.placedIn

/-- A character of two bytes and a new line in a string; then a character of one byte, read as a byte. -/
example : let s := ((start "'é\n' x" ⟨3, 9⟩).run [.next, .snapshot, .next, .restore 0, .expectByte 0x78]).2
    s.cursor.offset = 7 ∧ s.cursor.location = ⟨4, 4⟩ := by decide +kernel

end Scanner

end ExprLang
