import ExprLang.Evaluation
import ExprLang.Expr.Parser

/-!
# Templates

Host text in which each span `${…}` stands for the text of an expression. The expression ends where
no operator follows, and the span ends with the next closing brace after a gap; host text goes on
right behind it. A backslash before a dollar sign makes it plain text. All spans are evaluated in
one context, from left to right, and the first error ends the expansion.
-/

namespace ExprLang

namespace Template

/-- Host text up to the next span: what it says, the characters read, and what follows the opening of
the span, if any. -/
structure Host where
  text : List Char
  read : List Char
  span : Option (List Char)

def Host.cons (c : Char) (read : List Char) (h : Host) : Host := ⟨c :: h.text, read ++ h.read, h.span⟩

def host : List Char → Host
  | [] => ⟨[], [], none⟩
  | '\\' :: '$' :: r => (host r).cons '$' ['\\', '$']
  | '$' :: '\x7b' :: r => ⟨[], ['$', '\x7b'], some r⟩
  | c :: r => (host r).cons c [c]

end Template

/-- Reads host text; tells whether a span follows. -/
def Cursor.hostText (c : Cursor) : Bool × List Char × Cursor :=
  let h := Template.host c.rest
  (h.span.isSome, h.text, c.past h.read (h.span.getD []))

namespace Template

/-- The text of one span, whose opening has been read, and the cursor behind it. -/
def span (c : Cursor) : Evaluation (List Char × Cursor) := do
  let (e, c) := Expr.read .lenient c
  let e ← Evaluation.result e
  let (closed, c) := c.expectCharacter '\x7d'
  Evaluation.result closed
  let e ← fun (ctx : Context) => let (e, ctx) := ctx.adopt e; (.ok e, ctx)
  let v ← e.run .strict
  let text ← Evaluation.result v.toText
  return (text.toList, c)

/-- Expands the text from a cursor on, with at most so many spans. -/
def expandFrom : Nat → Cursor → Evaluation (List Char)
  | 0, _ => return []
  | n + 1, c => do
    let (opened, text, c) := c.hostText
    if opened then
      let (value, c) ← span c
      return text ++ value ++ (← expandFrom n c)
    else return text

/-- A template has fewer spans than characters. -/
def expand (template : String) (c : Context) : Except Error String × Context :=
  let start := Cursor.start template .start
  let (text, c) := expandFrom (start.rest.length + 1) start c
  (String.ofList <$> text, c)

end Template

end ExprLang
