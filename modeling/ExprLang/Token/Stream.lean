import ExprLang.Cursor

/-!
# Token streams

A source read to its end: tokens one after the other, each with the cursor before it, and then
either the end of the input or the first place where no token can be read.
-/

namespace ExprLang

inductive Tokens where
  | token (here : Cursor) (t : Token) (rest : Tokens)
  /-- The end of the input, as a token, or the error there; and where reading it leaves the cursor. -/
  | ending (here : Cursor) (result : Except Error Token) (stop : Cursor)

namespace Tokens

/-- The tokens from a cursor on. -/
def read (c : Cursor) : Tokens :=
  match h : Lexeme.front c.skipGap.rest with
  | .lexeme l rest =>
    have := Cursor.next_lexeme_length h
    .token c (c.skipGap.token l) (read (c.skipGap.past l.text rest))
  | _ => .ending c c.next.1 c.next.2
termination_by c.rest.length

/-- The cursor before the first token. -/
def cursor : Tokens → Cursor
  | token here _ _ => here
  | ending here _ _ => here

def length : Tokens → Nat
  | token _ _ rest => rest.length + 1
  | ending _ _ _ => 0

/-- The first token or the error there. -/
def head : Tokens → Except Error Token
  | token _ t _ => .ok t
  | ending _ result _ => result

/-- What remains when the first token is read; the end of the input can be read again and again. -/
def tail : Tokens → Tokens
  | token _ _ rest => rest
  | ending _ result stop => .ending stop result stop

def second (s : Tokens) : Except Error Token := s.head >>= fun _ => s.tail.head

/-- The tokens and, unless the input ends, the error after them. -/
def toList : Tokens → List Token × Option Error
  | token _ t rest => (t :: rest.toList.1, rest.toList.2)
  | ending _ (.ok t) _ => ([t], none)
  | ending _ (.error e) _ => ([], some e)

theorem cursor_read (c : Cursor) : (read c).cursor = c := by
  unfold read
  split <;> rfl

theorem head_read (c : Cursor) : (read c).head = c.next.1 := by
  unfold read Cursor.next
  split <;> simp_all [head]

end Tokens

end ExprLang
