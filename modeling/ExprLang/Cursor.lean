import ExprLang.Token.Lexeme

/-!
# Cursors and tokens

A cursor is what remains of a source and where that is: its byte offset and its location. It moves
only over text that it takes off the front, so both stay those of the text read so far
(`past_past`). A token is a lexeme at its place. Reading a token either succeeds and leaves the
cursor after it, or fails and leaves the cursor at the character that no token begins with; only a
string without an end is read through.
-/

namespace ExprLang

structure Token where
  kind : Token.Kind
  data : List Char
  /-- Byte offset of the data; the data of a string begins after its quote. -/
  start : Nat
  location : Location

def Text.byteSize : List Char → Nat
  | [] => 0
  | c :: cs => c.utf8Size + byteSize cs

theorem Text.byteSize_append (cs ds : List Char) : byteSize (cs ++ ds) = byteSize cs + byteSize ds := by
  induction cs with
  | nil => simp [byteSize]
  | cons c cs ih => simp [byteSize, ih, Nat.add_assoc]

/-- Byte offset of the end of the data. -/
def Token.stop (t : Token) : Nat := t.start + Text.byteSize t.data

def Token.isA (t : Token) (ks : List Token.Kind) : Bool := ks.contains t.kind

structure Cursor where
  rest : List Char
  offset : Nat
  location : Location

namespace Cursor

def start (text : String) (location : Location) : Cursor := ⟨text.toList, 0, location⟩

def atEnd (c : Cursor) : Bool := c.rest.isEmpty

/-! ## Moving -/

/-- The cursor after a text, at what follows it. -/
def past (c : Cursor) (text rest : List Char) : Cursor :=
  ⟨rest, c.offset + Text.byteSize text, c.location.after text⟩

theorem past_past (c : Cursor) (s t r r' : List Char) : (c.past s r').past t r = c.past (s ++ t) r := by
  simp [past, Text.byteSize_append, Nat.add_assoc]

def skipGap (c : Cursor) : Cursor := c.past (Lexeme.gap c.rest).1 (Lexeme.gap c.rest).2

theorem skipGap_length (c : Cursor) : c.skipGap.rest.length ≤ c.rest.length := by
  have h := congrArg List.length (Lexeme.gap_append c.rest)
  simp only [List.length_append] at h
  simp only [skipGap, past]
  omega

/-! ## Tokens -/

/-- The token of a lexeme at a cursor. -/
def token (c : Cursor) (l : Lexeme) : Token where
  kind := l.kind
  data := l.data
  start := if l.kind = .string then c.offset + 1 else c.offset
  location := c.location

def endToken (c : Cursor) : Token := ⟨.endOfInput, [], c.offset, c.location⟩

/-- Reads the token after a gap. -/
def next (c : Cursor) : Except Error Token × Cursor :=
  match Lexeme.front c.skipGap.rest with
  | .ended => (.ok c.skipGap.endToken, c.skipGap)
  | .lexeme l rest => (.ok (c.skipGap.token l), c.skipGap.past l.text rest)
  | .fault .unterminatedString =>
    (.error (.parse c.skipGap.location .unterminatedString), c.skipGap.past c.skipGap.rest [])
  | .fault f => (.error (.parse c.skipGap.location f), c.skipGap)

def peek (c : Cursor) : Except Error Token := c.next.1

/-- The token after the next one. -/
def peekSecond (c : Cursor) : Except Error Token :=
  match c.next with
  | (.ok _, after) => after.peek
  | (.error e, _) => .error e

/-- Refuses a token of any other kind. -/
def check (expected : List Token.Kind) (t : Token) : Except Error Token :=
  if t.isA expected then .ok t else .error (.parse t.location (.unexpectedToken expected t.kind t.data))

/-- Reads a token of one of the given kinds; any other is read too, but refused. -/
def expect (expected : List Token.Kind) (c : Cursor) : Except Error Token × Cursor :=
  (c.next.1 >>= check expected, c.next.2)

def peekExpected (expected : List Token.Kind) (c : Cursor) : Except Error Token := c.peek >>= check expected

/-- Reads one character after a gap, even where it begins a longer token; anything else is left where it is. -/
def expectCharacter (expected : Char) (c : Cursor) : Except Error Unit × Cursor :=
  if c.skipGap.rest.head? = some expected then
    (.ok (), c.skipGap.past [expected] c.skipGap.rest.tail)
  else
    (do
      let t ← c.skipGap.peek
      .error (.parse t.location (.missingCharacter expected t.kind t.data)), c.skipGap)

/-- Reads one character after a gap if it begins with the given byte, all its bytes then; a message names the byte as
the character of that number. -/
def expectByte (expected : UInt8) (c : Cursor) : Except Error Unit × Cursor :=
  match c.skipGap.rest.head?.filter fun x => (String.utf8EncodeChar x).head? == some expected with
  | some x => (.ok (), c.skipGap.past [x] c.skipGap.rest.tail)
  | none =>
    (do
      let t ← c.skipGap.peek
      .error (.parse t.location (.missingCharacter (Char.ofNat expected.toNat) t.kind t.data)), c.skipGap)

theorem next_lexeme_length {c : Cursor} {l : Lexeme} {rest : List Char}
    (h : Lexeme.front c.skipGap.rest = .lexeme l rest) : rest.length < c.rest.length := by
  obtain ⟨hne, happ⟩ := Lexeme.front_lexeme h
  have hlen := congrArg List.length happ
  have hgap := c.skipGap_length
  have hpos : 0 < l.text.length := List.length_pos_iff.2 hne
  simp only [List.length_append] at hlen
  omega

end Cursor

end ExprLang
