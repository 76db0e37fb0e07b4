import ExprLang.Token.Stream

/-!
# Reading tokens

A reading takes tokens off a stream. It may be refused, with an error and the cursor where it stops,
and it may run out of the depth that it was given, which is no fault of the source. Looking at a
token never moves the cursor; reading one that is not expected moves past it.
-/

namespace ExprLang

/-- Why a reading gives nothing. -/
inductive Stop where
  | refused (e : Error) (stop : Cursor)
  | outOfDepth

abbrev Reading := StateT Tokens (Except Stop)

namespace Reading

def refuse {α : Type} (e : Error) (stop : Cursor) : Reading α := fun _ => .error (.refused e stop)

def outOfDepth {α : Type} : Reading α := fun _ => .error .outOfDepth

/-- The result of looking ahead; an error leaves the cursor where it is. -/
def look {α : Type} (f : Tokens → Except Error α) : Reading α := fun s =>
  match f s with
  | .ok a => .ok (a, s)
  | .error e => .error (.refused e s.cursor)

def peek : Reading Token := look Tokens.head

def peekSecond : Reading Token := look Tokens.second

def peekExpected (expected : List Token.Kind) : Reading Token := look fun s => s.head >>= Cursor.check expected

def next : Reading Token := fun s =>
  match s.head with
  | .ok t => .ok (t, s.tail)
  | .error e => .error (.refused e s.tail.cursor)

def expect (expected : List Token.Kind) : Reading Token := fun s =>
  match s.head >>= Cursor.check expected with
  | .ok t => .ok (t, s.tail)
  | .error e => .error (.refused e s.tail.cursor)

/-- Whether the next token is of a kind. -/
def ahead (k : Token.Kind) : Reading Bool := do return (← peek).kind == k

end Reading

/-- The outcome of a reading from a cursor on, and the cursor where it stops. -/
def Cursor.read {α : Type} (c : Cursor) (r : Tokens → Reading α) : Except Error α × Cursor :=
  match r (Tokens.read c) (Tokens.read c) with
  | .ok (a, rest) => (.ok a, rest.cursor)
  | .error (.refused e stop) => (.error e, stop)
  | .error .outOfDepth => (.error (.parse c.location .nestedTooDeeply), c)

end ExprLang
