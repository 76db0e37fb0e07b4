import ExprLang.Number.Text
import ExprLang.Text.Quoted
import ExprLang.Value.Basic

/-!
# The text of a value

Canonical text, on one line or with every part of an array or a map on a line of its own, indented
by tabs. Strings are quoted, and an array or a map without parts is a pair of brackets in either
layout.
-/

namespace ExprLang

inductive Layout where
  | line
  | block (depth : Nat)

namespace Layout

/-- The layout of the parts of a container. -/
def inner : Layout → Layout
  | line => line
  | block depth => block (depth + 1)

def tabs (n : Nat) : String := String.ofList (List.replicate n '\t')

/-- Parts between brackets. -/
def bracket (opening closing : String) (parts : List String) : Layout → String
  | line => opening ++ " " ++ ", ".intercalate parts ++ " " ++ closing
  | block depth =>
    opening ++ "\n" ++ ",\n".intercalate (parts.map (tabs (depth + 1) ++ ·)) ++ "\n" ++ tabs depth ++ closing

end Layout

def Range.text : Range → String
  | startingAt first => "[" ++ toString first ++ "..]"
  | endingAt last => "[.." ++ toString last ++ "]"
  | between first last => "[" ++ toString first ++ ".." ++ toString last ++ "]"

mutual

def Value.render (layout : Layout) : Value → String
  | ⟨_, .boolean b⟩ => if b then "true" else "false"
  | ⟨_, .string s⟩ => Text.quote s
  | ⟨_, .number x⟩ => Number.text x
  | ⟨_, .array []⟩ => "[]"
  | ⟨_, .array (v :: vs)⟩ => layout.bracket "[" "]" (renderItems layout.inner (v :: vs))
  | ⟨_, .map []⟩ => "\x7b\x7d"
  | ⟨_, .map (e :: es)⟩ => layout.bracket "\x7b" "\x7d" (renderEntries layout.inner (e :: es))
  | ⟨_, .range r⟩ => r.text
  | ⟨_, .null⟩ => "null"
  | ⟨_, .undefined⟩ => "undefined"

def renderItems (layout : Layout) : List Value → List String
  | [] => []
  | v :: vs => v.render layout :: renderItems layout vs

def renderEntries (layout : Layout) : List (String × Value) → List String
  | [] => []
  | (k, v) :: es => (Text.quote k ++ ": " ++ v.render layout) :: renderEntries layout es

end

/-- The text of a value on one line. -/
def Value.text (v : Value) : String := v.render .line

end ExprLang
