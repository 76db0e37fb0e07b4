import ExprLang.Expr.Parser

/-!
# Model lists

Older definition files describe models by a list of entries instead of an expression. A static entry
is a path, with skin and frame numbers and a condition `key = value` that may be missing; a dynamic
entry names the variables that hold path, skin and frame. A list stands for the switch of its
entries in reverse, so that the last entry that applies counts. A source may hold either form; where
it is neither, the error of the expression is the one that is reported.
-/

namespace ExprLang.ModelList

open Reading

/-- The cursor of the next token, before its gap. -/
def here : Reading Cursor := fun s => .ok (s.cursor, s)

/-! ## Static entries -/

def number (t : Token) : Reading Float := look fun _ => t.number

/-- The next token as a number, or zero if it is none; the flag tells which. -/
def index : Reading (Float × Bool) := do
  let t ← peek
  if t.kind = .number then
    let _ ← next
    return (← number t, true)
  else return (0, false)

/-- A path without the colon that may stand before it. -/
def withoutColon : List Char → List Char
  | ':' :: r => r
  | r => r

def modelValue (path : String) (skin frame : Float) : Value :=
  .map [("path", .string path), ("skin", .number skin), ("frame", .number frame)]

/-- Whether a condition follows. -/
def conditionAhead : Reading Bool := do
  if ← ahead .name then return (← peekSecond).kind == .assign else return false

def condition : Reading Expr := do
  let key ← expect [.name]
  let sign ← expect [.assign]
  let t ← expect [.string, .number]
  let v ← if t.kind = .string then pure (Value.string t.word) else Value.number <$> number t
  return (Expr.var key.location key.word).join sign.location .equal (.literal sign.location v)

def staticEntry : Reading Expr := do
  let path ← expect [.string]
  let (skin, found) ← index
  let (frame, _) ← if found then index else pure (0, false)
  let text := String.ofList (withoutColon (Text.unescape path.data))
  let model := Expr.literal path.location (modelValue text skin frame)
  if ← conditionAhead then return (← condition).join path.location .guarded model else return model

/-! ## Dynamic entries -/

/-- The variables of a dynamic entry as far as they are known. -/
structure Dynamic where
  path : Option Expr
  skin : Option Expr
  frame : Option Expr

/-- Takes in the variable of a key; a repeated key replaces the earlier one. -/
def Dynamic.set (d : Dynamic) (key : String) (e : Expr) : Option Dynamic :=
  match key with
  | "pathKey" => some { d with path := some e }
  | "skinKey" => some { d with skin := some e }
  | "frameKey" => some { d with frame := some e }
  | _ => none

def isDynamicKey (key : String) : Bool := key ∈ ["pathKey", "skinKey", "frameKey"]

/-- Reads `key = "variable"` as long as names follow. -/
def dynamicKeys : Nat → Dynamic → Reading Dynamic
  | 0, _ => outOfDepth
  | n + 1, d => do
    if ← ahead .name then
      let key ← next
      if !isDynamicKey key.word then
        refuse (.parse key.location (.unknownModelKey key.word)) (← here)
      else
        let _ ← expect [.assign]
        let name ← expect [.string]
        dynamicKeys n ((d.set key.word (.var name.location name.word)).getD d)
    else return d

def dynamicEntry (depth : Nat) : Reading Expr := do
  let place := (← here).location
  let d ← dynamicKeys depth ⟨none, none, none⟩
  match d.path with
  | none => refuse (.parse place .missingModelPath) (← here)
  | some path =>
    let entry (key : String) (e : Option Expr) := e.toList.map fun e => (key, e)
    return .map place (("path", path) :: entry "skin" d.skin ++ entry "frame" d.frame)

/-! ## Lists -/

/-- At least one entry, up to one of the closing kinds, which is not read. -/
def entries (closing : List Token.Kind) : Nat → Reading (List Expr)
  | 0 => outOfDepth
  | n + 1 => do
    let t ← peekExpected [.string, .name]
    let e ← if t.kind = .string then staticEntry else dynamicEntry n
    let t ← peekExpected (.comma :: closing)
    if t.kind = .comma then
      let _ ← next
      return e :: (← entries closing n)
    else return [e]

/-- Entries and keys each take a token at least. -/
def depthFor (s : Tokens) : Nat := s.length + 2

def read (closing : List Token.Kind) (c : Cursor) : Except Error Expr × Cursor :=
  c.read fun s => do return .switch c.location (← entries closing (depthFor s)).reverse

end ModelList

namespace Expr

/-- Reads an expression or else a model list, either followed by a token of a closing kind. A failure
leaves the cursor where it was. -/
def readModel (closing : List Token.Kind) (c : Cursor) : Except Error Expr × Cursor :=
  let expression := c.read fun s => do
    let e ← reading .lenient (Parser.depthFor s)
    let _ ← Reading.peekExpected closing
    return e
  match expression, ModelList.read closing c with
  | (.ok e, after), _ => (.ok e, after)
  | (.error _, _), (.ok e, after) => (.ok e, after)
  | (.error err, _), (.error _, _) => (.error err, c)

/-- The expression that is the whole text, in either form. -/
def parseModel (text : String) : Except Error Expr := (readModel [.endOfInput] (Cursor.start text .start)).1

end Expr

end ExprLang
