/-!
# White space and lines

The characters with the Unicode property White_Space, texts without them at their ends, and the
lines of a text. The expression grammar itself skips fewer characters; these are the ones that
reading a number out of a string and telling the blank lines of a binding file ignore.
-/

namespace ExprLang.Text

/-- The ranges of code points with the property White_Space, first and last of each. -/
def blankRanges : List (Nat × Nat) :=
  [(0x9, 0xD), (0x20, 0x20), (0x85, 0x85), (0xA0, 0xA0), (0x1680, 0x1680), (0x2000, 0x200A), (0x2028, 0x2029),
    (0x202F, 0x202F), (0x205F, 0x205F), (0x3000, 0x3000)]

def isBlank (c : Char) : Bool := blankRanges.any fun r => r.1 ≤ c.toNat && c.toNat ≤ r.2

def trimStart (cs : List Char) : List Char := cs.dropWhile isBlank

def trim (cs : List Char) : List Char := (trimStart (trimStart cs).reverse).reverse

/-- The lines of a text without their ends. A line feed ends a line, together with a carriage return
right before it; what follows the last line feed is a line unless it is empty. -/
def lines : List Char → List (List Char)
  | [] => []
  | c :: r =>
    if c = '\n' then [] :: lines r
    else if c = '\r' ∧ r.head? = some '\n' then lines r
    else match lines r with
      | [] => [[c]]
      | l :: ls => (c :: l) :: ls

end ExprLang.Text
