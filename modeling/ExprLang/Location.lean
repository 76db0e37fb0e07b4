/-!
# Places in a source

A place is a line and a column, both counted from one. A column is one character wide, whatever its
encoding, and only a line feed starts a new line. The place after a text is found by reading the
text: `Location.after_append` says that it can be read in pieces.
-/

namespace ExprLang

structure Location where
  line : Nat
  column : Nat
deriving DecidableEq

namespace Location

/-- The first character of a source. -/
def start : Location := ⟨1, 1⟩

/-- The place after one character. -/
def next (l : Location) (c : Char) : Location :=
  if c = '\n' then ⟨l.line + 1, 1⟩ else ⟨l.line, l.column + 1⟩

/-- The place after a run of characters. -/
def after (l : Location) (cs : List Char) : Location := cs.foldl next l

@[simp] theorem after_nil (l : Location) : l.after [] = l := rfl

@[simp] theorem after_cons (l : Location) (c : Char) (cs : List Char) : l.after (c :: cs) = (l.next c).after cs := rfl

@[simp] theorem after_append (l : Location) (cs ds : List Char) : l.after (cs ++ ds) = (l.after cs).after ds := by
  simp [after, List.foldl_append]

def text (l : Location) : String := "line " ++ toString l.line ++ ", column " ++ toString l.column

end Location

end ExprLang
