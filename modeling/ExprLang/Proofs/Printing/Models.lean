import ExprLang.Proofs.Cuts
import ExprLang.Proofs.Fallback
import ExprLang.Proofs.Precedence
import ExprLang.Proofs.Printing.RoundTrip
import ExprLang.Proofs.Unplaced

/-!
# Model lists, written and read

The entries of a model list as data: a path, its numbers and its condition. Their text is read as the list of the trees
that they stand for, whatever of them is there.

* `ModelList.StaticEntry.falls`: the pieces of an entry are read one by one.
* `ModelList.staticEntry_reads`: an entry, up to a comma or the end.
* `ModelList.read_text`: a whole list.
-/

namespace ExprLang

open Lexeme

/-! ## Literals -/

/-- The text of one lexeme of a kind. -/
structure LexemeOf (k : Token.Kind) where
  chars : List Char
  whole : Whole ⟨k, chars⟩

namespace LexemeOf

variable {k : Token.Kind}

def text (x : LexemeOf k) : String := String.ofList x.chars

def word (x : LexemeOf k) : Lexeme := ⟨k, x.chars⟩

/-- The number of a number lexeme. -/
def value (n : LexemeOf .number) : Float := (Numeral.value? n.chars).getD 0

theorem value?_chars (n : LexemeOf .number) : Numeral.value? n.chars = some n.value := by
  obtain ⟨x, hx⟩ := front_number n.whole rfl
  have hx : Numeral.value? n.chars = some x := hx
  rw [value, hx, Option.getD_some]

end LexemeOf

inductive ScalarLiteral where
  | string (s : String)
  | number (n : LexemeOf .number)

namespace ScalarLiteral

def text : ScalarLiteral → String
  | string s => Text.quote s
  | number n => n.text

def word : ScalarLiteral → Lexeme
  | string s => ⟨.string, (Text.quote s).toList⟩
  | number n => n.word

def value : ScalarLiteral → Value
  | string s => .string s
  | number n => .number n.value

end ScalarLiteral

/-! ## Entries -/

namespace ModelList

/-- A variable and the literal that it has to equal. -/
structure Condition where
  key : LexemeOf .name
  literal : ScalarLiteral

/-- A path, maybe a skin number and after it a frame number, and maybe a condition. -/
structure StaticEntry where
  path : String
  numbers : Option (LexemeOf .number × Option (LexemeOf .number))
  condition : Option Condition

namespace Condition

def pieces (d : Condition) : List String := [d.key.text, "=", d.literal.text]

def words (d : Condition) : List Lexeme := [d.key.word, Lexeme.sign .assign, d.literal.word]

def node (d : Condition) : Expr := .binary none .equal (.var none d.key.text) (.literal none d.literal.value)

end Condition

/-- A tree with a condition, if there is one. -/
def guardedBy (d : Option Condition) (e : Expr) : Expr := d.elim e fun d => .binary none .guarded d.node e

namespace StaticEntry

/-- The path without one colon before it. -/
def file (e : StaticEntry) : String :=
  if e.path.toList.head? = some ':' then String.ofList e.path.toList.tail else e.path

/-- The literals of the numbers. -/
def literals (e : StaticEntry) : List (LexemeOf .number) :=
  e.numbers.toList.flatMap fun n => n.1 :: n.2.toList

def skin (e : StaticEntry) : Float := (e.literals[0]?.map LexemeOf.value).getD 0

def frame (e : StaticEntry) : Float := (e.literals[1]?.map LexemeOf.value).getD 0

/-- The model that the entry describes; a number that is missing is zero. -/
def model (e : StaticEntry) : Value :=
  .map [("path", .string e.file), ("skin", .number e.skin), ("frame", .number e.frame)]

def pieces (e : StaticEntry) : List String :=
  Text.quote e.path :: (e.literals.map LexemeOf.text ++ e.condition.toList.flatMap Condition.pieces)

def words (e : StaticEntry) : List Lexeme :=
  ⟨.string, (Text.quote e.path).toList⟩ :: (e.literals.map LexemeOf.word ++ e.condition.toList.flatMap Condition.words)

/-- The pieces with spaces between them. -/
def text (e : StaticEntry) : String := " ".intercalate e.pieces

/-- The tree of the entry. -/
def node (e : StaticEntry) : Expr := guardedBy e.condition (.literal none e.model)

end StaticEntry

/-- The entries with commas between them. -/
def text (es : List StaticEntry) : String := ", ".intercalate (es.map StaticEntry.text)

/-! ## The text in words -/

/-- A piece that is one lexeme before everything that may follow. -/
def Piece (p : String) (l : Lexeme) : Prop := ∀ {r : List Char}, Delimits r → Scans (p.toList ++ r) [l] r

theorem piece_quote (s : String) : Piece (Text.quote s) ⟨.string, (Text.quote s).toList⟩ := (firm_quote s).scans

theorem piece_of_firm {k : Token.Kind} (x : LexemeOf k) (h : x.word.Firm) : Piece x.text x.word := by
  intro r hr
  rw [LexemeOf.text, String.toList_ofList]
  exact h.scans hr

theorem piece_number (n : LexemeOf .number) : Piece n.text n.word := piece_of_firm n (firm_number n.whole)

theorem piece_name (x : LexemeOf .name) : Piece x.text x.word := piece_of_firm x (firm_of_front x.whole rfl)

theorem piece_assign : Piece "=" (Lexeme.sign .assign) := by
  intro r hr
  refine Before.scans (k := .assign) ?_ rfl
  rcases hr with rfl | ⟨c, s, rfl, hc⟩ | ⟨s, rfl⟩
  · rfl
  · simp only [List.mem_cons, List.not_mem_nil, or_false] at hc
    rcases hc with rfl | rfl | rfl | rfl | rfl <;> rfl
  · rfl

theorem piece_literal (l : ScalarLiteral) : Piece l.text l.word := by
  cases l with
  | string s => exact piece_quote s
  | number n => exact piece_number n

/-- Pieces with spaces between them. -/
theorem falls_pieces {p : String} {l : Lexeme} {ps : List String} {ls : List Lexeme} (hp : Piece p l)
    (h : List.Forall₂ Piece ps ls) : Falls (" ".intercalate (p :: ps)).toList (l :: ls) := by
  induction h generalizing p l with
  | nil =>
    rw [String.intercalate_singleton]
    exact ⟨by simp, hp⟩
  | @cons q k ps ls hq _ ih =>
    refine ⟨by simp, fun {r} hr => ?_⟩
    rw [String.intercalate_cons_cons]
    simp only [String.toList_append, List.append_assoc]
    exact (hp (delimits_of_mem (c := ' ') (by decide))).append (Scans.space (by simp) ((ih hq).scans hr))

theorem StaticEntry.falls (e : StaticEntry) : Falls e.text.toList e.words := by
  refine falls_pieces (piece_quote e.path) (List.rel_append ?_ ?_)
  · exact List.forall₂_map_left_iff.2 (List.forall₂_map_right_iff.2 (List.forall₂_same.2 fun n _ => piece_number n))
  · cases e.condition with
    | none => exact .nil
    | some d => exact .cons (piece_name d.key) (.cons piece_assign (.cons (piece_literal d.literal) .nil))

theorem scans_text (es : List StaticEntry) : Scans (text es).toList (separate (es.map StaticEntry.words)) [] := by
  have hfalls : List.Forall₂ (fun p ws => Falls p.toList ws) (es.map StaticEntry.text) (es.map StaticEntry.words) :=
    List.forall₂_map_left_iff.2 (List.forall₂_map_right_iff.2 (List.forall₂_same.2 fun e _ => e.falls))
  simpa [text] using scans_intercalate (g := " ") gap_space hfalls (.inl rfl : Delimits [])

/-! ## Entries read -/

section

open Reading

variable {s s' rest : Tokens} {c : Cursor} {t : Token}

theorem number_reads (n : LexemeOf .number) (hdata : t.data = n.chars) (s : Tokens) :
    number t s = .ok (n.value, s) := by
  refine look_ok.2 ⟨?_, rfl⟩
  rw [Token.number, hdata, n.value?_chars]

theorem index_number (n : LexemeOf .number) (hkind : t.kind = .number) (hdata : t.data = n.chars) :
    index (.token c t rest) = .ok ((n.value, true), rest) := by
  refine bind_ok.2 ⟨t, .token c t rest, peek_ok.2 ⟨rfl, rfl⟩, ?_⟩
  rw [if_pos hkind]
  refine bind_ok.2 ⟨t, rest, next_ok.2 ⟨rfl, rfl⟩, ?_⟩
  exact bind_ok.2 ⟨n.value, rest, number_reads n hdata rest, pure_ok.2 ⟨rfl, rfl⟩⟩

theorem index_none (ht : s.head = .ok t) (hkind : t.kind ≠ .number) : index s = .ok ((0, false), s) := by
  refine bind_ok.2 ⟨t, s, peek_ok.2 ⟨ht, rfl⟩, ?_⟩
  rw [if_neg hkind]
  exact pure_ok.2 ⟨rfl, rfl⟩

theorem conditionAhead_none (ht : s.head = .ok t) (hkind : t.kind ≠ .name) : conditionAhead s = .ok (false, s) := by
  refine bind_ok.2 ⟨false, s, ahead_ok.2 ⟨⟨t, ht, (beq_false_of_ne hkind).symm⟩, rfl⟩, ?_⟩
  exact pure_ok.2 ⟨rfl, rfl⟩

theorem conditionAhead_some {c' : Cursor} {t' : Token} (hkind : t.kind = .name) (hkind' : t'.kind = .assign) :
    conditionAhead (.token c t (.token c' t' rest)) = .ok (true, .token c t (.token c' t' rest)) := by
  refine bind_ok.2 ⟨true, _, ahead_ok.2 ⟨⟨t, rfl, by rw [hkind]; rfl⟩, rfl⟩, ?_⟩
  exact bind_ok.2 ⟨t', _, peekSecond_ok.2 ⟨⟨⟨t, rfl⟩, rfl⟩, rfl⟩, pure_ok.2 ⟨by rw [hkind']; rfl, rfl⟩⟩

theorem condition_reads (d : Condition) (hs : Tokens.Shows d.words s s') :
    ∃ e, condition s = .ok (e, s') ∧ e.unplaced = d.node := by
  obtain ⟨c, key, _, rfl, ⟨hkey, hname⟩, hs⟩ := Tokens.shows_cons.1 hs
  obtain ⟨c', sign, rest, rfl, ⟨hsign, -⟩, hs⟩ := Tokens.shows_cons.1 hs
  have hkey : key.kind = .name := hkey
  have hsign : sign.kind = .assign := hsign
  have hword : key.word = d.key.text := by
    have hname : key.data = d.key.chars := hname
    rw [Token.word, if_neg (by rw [hkey]; decide), hname, LexemeOf.text]
  obtain ⟨c'', t, _, rfl, ⟨hkind, hdata⟩, rfl⟩ := Tokens.shows_cons.1 hs
  refine ⟨(Expr.var key.location key.word).join sign.location .equal (.literal sign.location d.literal.value), ?_, ?_⟩
  · refine bind_ok.2 ⟨key, _, expect_ok.2 ⟨⟨rfl, by rw [hkey]; decide⟩, rfl⟩, ?_⟩
    refine bind_ok.2 ⟨sign, _, expect_ok.2 ⟨⟨rfl, by rw [hsign]; decide⟩, rfl⟩, ?_⟩
    cases hliteral : d.literal with
    | string v =>
      rw [hliteral] at hkind hdata
      have hkind : t.kind = .string := hkind
      refine bind_ok.2 ⟨t, _, expect_ok.2 ⟨⟨rfl, by rw [hkind]; decide⟩, rfl⟩, ?_⟩
      dsimp only
      rw [if_pos hkind, Token.word_of_quote hkind hdata]
      exact pure_ok.2 ⟨rfl, rfl⟩
    | number n =>
      rw [hliteral] at hkind hdata
      have hkind : t.kind = .number := hkind
      have hdata : t.data = n.chars := hdata
      refine bind_ok.2 ⟨t, _, expect_ok.2 ⟨⟨rfl, by rw [hkind]; decide⟩, rfl⟩, ?_⟩
      dsimp only
      rw [if_neg (by rw [hkind]; decide), map_eq_pure_bind]
      exact bind_ok.2 ⟨_, _, bind_ok.2 ⟨n.value, _, number_reads n hdata _, pure_ok.2 ⟨rfl, rfl⟩⟩, pure_ok.2 ⟨rfl, rfl⟩⟩
  · rw [Expr.join_of_le (Nat.le_of_lt BinaryOp.equal.precedence_lt) rfl, hword]
    rfl

/-- Where an entry ends, nothing is read on. -/
def Ends (s : Tokens) : Prop := s.StartsIn [.comma, .endOfInput]

theorem guard_reads {l : Option Location} {v : Value} (d : Option Condition)
    (hs : Tokens.Shows (d.toList.flatMap Condition.words) s s') (hend : Ends s') :
    (∃ t, s.head = .ok t ∧ t.kind ≠ .number) ∧
    ∃ e, (do
      if ← conditionAhead then return (← condition).join l .guarded (.literal l v) else return .literal l v :
        Reading Expr) s = .ok (e, s') ∧ e.unplaced = guardedBy d (.literal none v) := by
  cases d with
  | none =>
    obtain rfl : s = s' := hs
    obtain ⟨t, ht, hkind⟩ := hend
    have hne : t.kind ≠ .number ∧ t.kind ≠ .name := by
      simp only [List.mem_cons, List.not_mem_nil, or_false] at hkind
      rcases hkind with h | h <;> rw [h] <;> decide
    refine ⟨⟨t, ht, hne.1⟩, .literal l v, bind_ok.2 ⟨false, s, conditionAhead_none ht hne.2, pure_ok.2 ⟨rfl, rfl⟩⟩, rfl⟩
  | some d =>
    have hs : Tokens.Shows d.words s s' := by simpa using hs
    obtain ⟨e, he, hnode⟩ := condition_reads d hs
    obtain ⟨c, key, _, rfl, ⟨hkey, -⟩, hs⟩ := Tokens.shows_cons.1 hs
    obtain ⟨c', sign, rest, rfl, ⟨hsign, -⟩, -⟩ := Tokens.shows_cons.1 hs
    have hkey : key.kind = .name := hkey
    refine ⟨⟨key, rfl, by rw [hkey]; decide⟩, e.join l .guarded (.literal l v), ?_, ?_⟩
    · refine bind_ok.2 ⟨true, _, conditionAhead_some hkey hsign, ?_⟩
      exact bind_ok.2 ⟨e, s', he, pure_ok.2 ⟨rfl, rfl⟩⟩
    · rw [Expr.unplaced_join, hnode]
      exact Expr.join_of_le (show BinaryOp.guarded.precedence ≤ BinaryOp.equal.precedence by decide) rfl

/-- Numbers are read as long as they are there. -/
theorem numbers_read (e : StaticEntry) {k : Float → Float → Reading Expr} {x : Expr} {m : Tokens}
    (hs : Tokens.Shows (e.literals.map LexemeOf.word) s m) (hend : ∃ t, m.head = .ok t ∧ t.kind ≠ .number)
    (hk : k e.skin e.frame m = .ok (x, s')) :
    (do
      let (skin, found) ← index
      let (frame, _) ← if found then index else pure (0, false)
      k skin frame) s = .ok (x, s') := by
  obtain ⟨path, numbers, condition⟩ := e
  obtain ⟨t, ht, hkind⟩ := hend
  cases numbers with
  | none =>
    obtain rfl : s = m := hs
    exact bind_ok.2 ⟨(0, false), s, index_none ht hkind, hk⟩
  | some n =>
    obtain ⟨skin, frame⟩ := n
    obtain ⟨c, t₁, _, rfl, ⟨hkind₁, hdata₁⟩, hs⟩ := Tokens.shows_cons.1 hs
    refine bind_ok.2 ⟨(skin.value, true), _, index_number skin hkind₁ hdata₁, ?_⟩
    cases frame with
    | none =>
      obtain rfl : _ = m := hs
      exact bind_ok.2 ⟨(0, false), _, index_none ht hkind, hk⟩
    | some frame =>
      obtain ⟨c, t₂, _, rfl, ⟨hkind₂, hdata₂⟩, hs⟩ := Tokens.shows_cons.1 hs
      obtain rfl : _ = m := hs
      exact bind_ok.2 ⟨(frame.value, true), _, index_number frame hkind₂ hdata₂, hk⟩

theorem StaticEntry.file_eq (e : StaticEntry) : String.ofList (withoutColon e.path.toList) = e.file := by
  unfold file
  split
  · next hcolon =>
    obtain ⟨r, hr⟩ := List.head?_eq_some_iff.1 hcolon
    rw [hr]
    rfl
  · next hcolon =>
    have hpath : withoutColon e.path.toList = e.path.toList := by
      cases h : e.path.toList with
      | nil => rfl
      | cons c r =>
        have hc : c ≠ ':' := fun hc => hcolon (by rw [h, hc]; rfl)
        unfold withoutColon
        split
        · next heq => exact absurd (List.cons.inj heq).1 hc
        · rfl
    rw [hpath, String.ofList_toList]

theorem staticEntry_reads (e : StaticEntry) (hs : Tokens.Shows e.words s s') (hend : Ends s') :
    ∃ x, staticEntry s = .ok (x, s') ∧ x.unplaced = e.node := by
  obtain ⟨c, path, m, rfl, ⟨hkind, hdata⟩, hs⟩ := Tokens.shows_cons.1 hs
  obtain ⟨m', hnumbers, hcondition⟩ := Tokens.shows_append.1 hs
  have hkind : path.kind = .string := hkind
  have hunescape : Text.unescape path.data = e.path.toList := by
    rw [← Token.word_of_quote hkind hdata, Token.word, if_pos hkind, String.toList_ofList]
  obtain ⟨hhead, x, hx, hnode⟩ := guard_reads (l := path.location) (v := e.model) e.condition hcondition hend
  refine ⟨x, bind_ok.2 ⟨path, m, expect_ok.2 ⟨⟨rfl, by rw [hkind]; decide⟩, rfl⟩, ?_⟩, hnode⟩
  let entry (skin frame : Float) : Reading Expr := do
    let text := String.ofList (withoutColon (Text.unescape path.data))
    let model := Expr.literal path.location (modelValue text skin frame)
    if ← conditionAhead then return (← condition).join path.location .guarded model else return model
  have hentry : entry e.skin e.frame m' = .ok (x, s') := by
    dsimp only [entry]
    rw [hunescape, e.file_eq]
    exact hx
  exact numbers_read (k := entry) e hnumbers hhead hentry

/-! ## Lists -/

/-- An entry begins with a string, and the token after it decides whether another one follows. -/
theorem entries_succ (closing : List Token.Kind) (n : Nat) {e : StaticEntry} {x : Expr} {m : Tokens}
    (hs : Tokens.Shows e.words s m) (hx : staticEntry s = .ok (x, m)) (ht : m.head = .ok t)
    (hkind : t.kind ∈ .comma :: closing) : entries closing (n + 1) s = (do
      if t.kind = .comma then
        let _ ← next
        return x :: (← entries closing n)
      else return [x] : Reading (List Expr)) m := by
  obtain ⟨c, path, rest, rfl, ⟨hpath, -⟩, -⟩ := Tokens.shows_cons.1 hs
  have hpath : path.kind = .string := hpath
  have hpeek : peekExpected [.string, .name] (.token c path rest) = .ok (path, .token c path rest) :=
    peekExpected_ok.2 ⟨⟨rfl, by rw [hpath]; decide⟩, rfl⟩
  rw [entries, bind_of_ok hpeek]
  dsimp only
  rw [if_pos hpath, bind_of_ok hx, bind_of_ok (peekExpected_ok.2 ⟨⟨ht, hkind⟩, rfl⟩)]

/-- Entries with commas between them, before the end. -/
theorem entries_read : ∀ {es : List StaticEntry} {n : Nat} {s : Tokens}, es ≠ [] → es.length ≤ n →
    Tokens.Shows (separate (es.map StaticEntry.words)) s s' → s'.StartsIn [.endOfInput] →
    ∃ xs, entries [.endOfInput] n s = .ok (xs, s') ∧ xs.map Expr.unplaced = es.map StaticEntry.node
  | [], _, _, hne, _, _, _ => absurd rfl hne
  | _ :: _, 0, _, _, hn, _, _ => absurd hn (Nat.not_succ_le_zero _)
  | [e], n + 1, s, _, _, hs, hend => by
    obtain ⟨u, hu, hkind⟩ := hend
    obtain ⟨x, hx, hnode⟩ := staticEntry_reads e hs ⟨u, hu, List.mem_cons_of_mem _ hkind⟩
    have hne : u.kind ≠ .comma := by
      rw [List.mem_singleton.1 hkind]
      decide
    refine ⟨[x], ?_, congrArg (· :: []) hnode⟩
    rw [entries_succ [.endOfInput] n hs hx hu (List.mem_cons_of_mem _ hkind), if_neg hne]
    exact pure_ok.2 ⟨rfl, rfl⟩
  | e :: f :: es, n + 1, s, _, hn, hs, hend => by
    -- The comma ends the first entry and says that another one follows.
    obtain ⟨m, he, hs⟩ := Tokens.shows_append.1 hs
    obtain ⟨c, comma, rest, rfl, ⟨hcomma, -⟩, hs⟩ := Tokens.shows_cons.1 hs
    have hcomma : comma.kind = .comma := hcomma
    have hends : Ends (.token c comma rest) := ⟨comma, rfl, by rw [hcomma]; exact List.mem_cons_self⟩
    obtain ⟨x, hx, hnode⟩ := staticEntry_reads e he hends
    obtain ⟨xs, hxs, hnodes⟩ := entries_read (List.cons_ne_nil f es) (Nat.le_of_succ_le_succ hn) hs hend
    refine ⟨x :: xs, ?_, congrArg₂ List.cons hnode hnodes⟩
    rw [entries_succ [.endOfInput] n he hx rfl (by rw [hcomma]; exact List.mem_cons_self), if_pos hcomma]
    exact bind_ok.2 ⟨comma, rest, next_ok.2 ⟨rfl, rfl⟩, bind_ok.2 ⟨xs, s', hxs, pure_ok.2 ⟨rfl, rfl⟩⟩⟩

end

theorem length_of_shows : ∀ {ws : List Lexeme} {s s' : Tokens}, Tokens.Shows ws s s' →
    s.length = ws.length + s'.length
  | [], s, s', h => by
    obtain rfl : s = s' := h
    exact (Nat.zero_add _).symm
  | w :: ws, _, s', h => by
    obtain ⟨c, t, rest, rfl, -, h⟩ := Tokens.shows_cons.1 h
    rw [Tokens.length, length_of_shows h, List.length_cons]
    omega

/-- Every entry takes a word at least. -/
theorem length_le_separate : ∀ es : List StaticEntry, es.length ≤ (separate (es.map StaticEntry.words)).length
  | [] => Nat.le_refl _
  | [e] => Nat.succ_le_succ (Nat.zero_le _)
  | e :: f :: es => by
    have ih := length_le_separate (f :: es)
    have hlength : (separate ((e :: f :: es).map StaticEntry.words)).length =
        e.words.length + ((separate ((f :: es).map StaticEntry.words)).length + 1) := by simp [separate]
    rw [hlength, List.length_cons]
    omega

/-- The text of entries is read as the switch of their trees in reverse. -/
theorem read_text {es : List StaticEntry} (hes : es ≠ []) (origin : Location) : ∃ l xs k,
    read [.endOfInput] (Cursor.start (text es) origin) = (.ok (.switch l xs), k) ∧
      xs.map Expr.unplaced = (es.map StaticEntry.node).reverse := by
  obtain ⟨c, hc, hshows⟩ := @Tokens.shows_of_scans _ (Cursor.start (text es) origin) _ (scans_text es)
  have hend : Tokens.read c = .ending c (.ok c.skipGap.endToken) c.skipGap := Tokens.read_gap (by rw [hc]; rfl)
  have hstarts : (Tokens.read c).StartsIn [.endOfInput] := ⟨_, by rw [hend]; rfl, by simp [Cursor.endToken]⟩
  -- The depth is bounded by the tokens that are left, and these are at least as many as the entries.
  have hdepth : es.length ≤ depthFor (Tokens.read (Cursor.start (text es) origin)) := by
    have hlength := length_of_shows hshows
    have hcount := length_le_separate es
    unfold depthFor
    omega
  obtain ⟨xs, hxs, hnodes⟩ := entries_read hes hdepth hshows hstarts
  refine ⟨(Cursor.start (text es) origin).location, xs.reverse, (Tokens.read c).cursor, ?_, ?_⟩
  · exact Cursor.read_eq_ok.2 ⟨_, Reading.bind_ok.2 ⟨xs, _, hxs, Reading.pure_ok.2 ⟨rfl, rfl⟩⟩, rfl⟩
  · rw [List.map_reverse, hnodes]

end ModelList

end ExprLang
