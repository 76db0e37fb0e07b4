import ExprLang.Expr.Join
import ExprLang.Text.Quoted
import ExprLang.Token.Reading

/-!
# Reading expressions

```
expression  := term { operator term }
term        := switch | simple { "[" [ index { "," index } ] "]" }
simple      := unary-operator term | "(" expression ")" | name | literal | array | map
array       := "[" [ element { "," element } ] "]"
map         := "{" [ (string | name) ":" expression { "," … } ] "}"
switch      := "{{" [ expression { "," expression } ] "}}"
element     := expression [ ".." expression ]
index       := expression | expression ".." | ".." expression | expression ".." expression
```

Operators are read in one loop from left to right, and `Expr.join` puts each where its precedence
belongs. The sign `..` is an operator only if a term follows; in an index it may also leave the
range open. Of two entries of a map under one key the first counts.

Every function takes the depth to which it may call another. `depthFor` is enough for a source, and
linear in its tokens.
-/

namespace ExprLang

/-! ## Operators and items -/

def UnaryOp.ofKind? : Token.Kind → Option UnaryOp
  | .plus => some .plus
  | .minus => some .minus
  | .bang => some .not
  | .tilde => some .bitNot
  | _ => none

def BinaryOp.ofKind? : Token.Kind → Option BinaryOp
  | .plus => some .add
  | .minus => some .subtract
  | .times => some .multiply
  | .divide => some .divide
  | .modulo => some .modulo
  | .and => some .and
  | .or => some .or
  | .ampersand => some .bitAnd
  | .caret => some .bitXor
  | .bar => some .bitOr
  | .shiftLeft => some .shiftLeft
  | .shiftRight => some .shiftRight
  | .less => some .less
  | .lessOrEqual => some .lessOrEqual
  | .greater => some .greater
  | .greaterOrEqual => some .greaterOrEqual
  | .equal => some .equal
  | .notEqual => some .notEqual
  | .dots => some .range
  | .arrow => some .guarded
  | _ => none

/-- What a list between brackets is made of. -/
inductive Item where
  | element | index | case
deriving DecidableEq

def Item.close : Item → Token.Kind
  | element | index => .closeBracket
  | case => .closeSwitch

/-- The key or the name that a token stands for. -/
def Token.word (t : Token) : String := String.ofList (if t.kind = .string then Text.unescape t.data else t.data)

/-- The number of a number token. -/
def Token.number (t : Token) : Except Error Float :=
  match Numeral.value? t.data with
  | some x => .ok x
  | none => .error (.parse t.location (.invalidNumber t.data))

/-- The value of a literal token. -/
def Token.literal (t : Token) : Except Error Value :=
  match t.kind with
  | .string => .ok (.string t.word)
  | .number => Value.number <$> t.number
  | .boolean => .ok (.boolean (t.data == "true".toList))
  | _ => .ok .null

/-- An index list of one entry is that entry, any other is an array. -/
def Expr.ofIndices (location : Option Location) : List Expr → Expr
  | [e] => e
  | es => .array location es

/-! ## The grammar -/

namespace Parser

open Reading

mutual

def expression : Nat → Reading Expr
  | 0 => outOfDepth
  | d + 1 => do
    let _ ← peekExpected Token.Kind.terms
    operators d (← term d)

/-- Joins the operators that follow, each with its term, to what has been read. -/
def operators : Nat → Expr → Reading Expr
  | 0, _ => outOfDepth
  | d + 1, left => do
    let t ← peek
    match BinaryOp.ofKind? t.kind with
    | none => return left
    | some .range =>
      if (← peekSecond).isA Token.Kind.terms then
        let _ ← next
        operators d (left.join t.location .range (← term d))
      else return left
    | some op =>
      let _ ← next
      operators d (left.join t.location op (← term d))

def term : Nat → Reading Expr
  | 0 => outOfDepth
  | d + 1 => do
    let t ← peekExpected Token.Kind.terms
    if t.kind = .openSwitch then
      let _ ← expect [.openSwitch]
      let _ ← peekExpected (Token.Kind.terms ++ [.closeSwitch])
      return .switch t.location (← list d .case)
    else subscripts d (← simple d)

/-- Applies the subscripts that follow. -/
def subscripts : Nat → Expr → Reading Expr
  | 0, _ => outOfDepth
  | d + 1, base => do
    let t ← peek
    if t.kind = .openBracket then
      let _ ← next
      let indices ← list d .index
      subscripts d (.subscript t.location base (Expr.ofIndices t.location indices))
    else return base

def simple : Nat → Reading Expr
  | 0 => outOfDepth
  | d + 1 => do
    let t ← peekExpected Token.Kind.simpleTerms
    match UnaryOp.ofKind? t.kind, t.kind with
    | some op, _ =>
      let _ ← next
      return .unary t.location op (← term d)
    | none, .openParen =>
      let _ ← next
      let e ← expression d
      let _ ← expect [.closeParen]
      return .unary t.location .group e
    | none, .name =>
      let _ ← next
      return .var t.location t.word
    | none, .openBracket =>
      let _ ← next
      return .array t.location (← list d .element)
    | none, .openBrace =>
      let _ ← next
      return .map t.location (← map d)
    | none, _ =>
      let v ← look fun _ => t.literal
      let _ ← next
      return .literal t.location v

/-- Items separated by commas up to the closing sign, which is read too; there may be none. -/
def list : Nat → Item → Reading (List Expr)
  | 0, _ => outOfDepth
  | d + 1, kind => do
    if ← ahead kind.close then
      let _ ← next
      return []
    else items d kind

/-- At least one item. -/
def items : Nat → Item → Reading (List Expr)
  | 0, _ => outOfDepth
  | d + 1, kind => do
    let e ← item d kind
    let t ← expect [.comma, kind.close]
    if t.kind = .comma then return e :: (← items d kind) else return [e]

def item : Nat → Item → Reading Expr
  | 0, _ => outOfDepth
  | d + 1, .case => expression d
  | d + 1, .element => do
    let e ← expression d
    let t ← peek
    if t.kind = .dots then
      let _ ← next
      return e.join t.location .range (← expression d)
    else return e
  | d + 1, .index => do
    let t ← peek
    if t.kind = .dots then
      let _ ← next
      return .unary t.location .endingAt (← expression d)
    else
      let e ← expression d
      let t ← peek
      if t.kind = .dots then
        let _ ← next
        if (← peek).isA Token.Kind.simpleTerms then return e.join t.location .range (← expression d)
        else return .unary t.location .startingAt e
      else return e

def map : Nat → Reading (Entries Expr)
  | 0 => outOfDepth
  | d + 1 => do
    if ← ahead .closeBrace then
      let _ ← next
      return []
    else entries d []

/-- At least one more entry, after those that have been read. -/
def entries : Nat → Entries Expr → Reading (Entries Expr)
  | 0, _ => outOfDepth
  | d + 1, before => do
    let key ← expect [.string, .name]
    let _ ← expect [.colon]
    let e ← expression d
    let es := Entries.insertNew before key.word e
    let t ← expect [.comma, .closeBrace]
    if t.kind = .comma then entries d es else return es

end

/-- A depth that no source exceeds: between two tokens that are read there are at most six calls. -/
def depthFor (s : Tokens) : Nat := 8 * (s.length + 2)

end Parser

/-! ## Whole sources -/

/-- What may follow an expression. -/
inductive ParseMode where
  /-- Nothing. -/
  | strict
  /-- Anything: reading ends after the first complete expression. -/
  | lenient
deriving DecidableEq

namespace Expr

def reading (mode : ParseMode) (depth : Nat) : Reading Expr := do
  let e ← Parser.expression depth
  match mode with
  | .strict =>
    let _ ← Reading.peekExpected [.endOfInput]
    return e
  | .lenient => return e

/-- Reads an expression from a cursor on; the cursor of the result stands where reading stopped. -/
def read (mode : ParseMode) (c : Cursor) : Except Error Expr × Cursor :=
  c.read fun s => reading mode (Parser.depthFor s)

/-- The expression that is the whole text. -/
def parse (text : String) : Except Error Expr := (read .strict (Cursor.start text .start)).1

/-- The first expression of a text that begins somewhere in a larger one. -/
def parseFirst (text : String) (location : Location) : Except Error Expr :=
  (read .lenient (Cursor.start text location)).1

end Expr

end ExprLang
