/-!
# Decimal numerals

A numeral is an optional sign, digits with at most one point among or beside them, and an optional
exponent. A point needs a digit on one of its sides and an exponent needs digits of its own. `read?`
takes the longest numeral off the front of a text, `value?` the number of a text that is one
numeral. Reading rounds to nearest, halves to even.

- `sign_append`, `digits_append`, `exponentText_append`: what is taken and what is left make up the
  text.
-/

namespace ExprLang

structure Numeral where
  negative : Bool
  whole : List Char
  fraction : List Char
  exponent : Int

namespace Numeral

/-! ## Parts -/

def digits (cs : List Char) : List Char := cs.takeWhile Char.isDigit

def afterDigits (cs : List Char) : List Char := cs.dropWhile Char.isDigit

/-- An optional sign: its text, and what follows. -/
def sign : List Char → List Char × List Char
  | '+' :: r => (['+'], r)
  | '-' :: r => (['-'], r)
  | r => ([], r)

/-- An exponent with at least one digit, or else nothing: its text, and what follows. -/
def exponentText : List Char → List Char × List Char
  | [] => ([], [])
  | c :: r =>
    if (c = 'e' ∨ c = 'E') ∧ digits (sign r).2 ≠ [] then
      (c :: ((sign r).1 ++ digits (sign r).2), afterDigits (sign r).2)
    else ([], c :: r)

theorem digits_append (cs : List Char) : digits cs ++ afterDigits cs = cs := List.takeWhile_append_dropWhile

theorem sign_append (cs : List Char) : (sign cs).1 ++ (sign cs).2 = cs := by
  unfold sign
  split <;> rfl

theorem exponentText_append (cs : List Char) : (exponentText cs).1 ++ (exponentText cs).2 = cs := by
  unfold exponentText
  split
  · rfl
  · split
    · simp [digits_append, sign_append]
    · rfl

/-- The natural number of a run of digits. -/
def natural (ds : List Char) : Nat := ds.foldl (fun n d => 10 * n + (d.toNat - 48)) 0

/-- The integer of the text of an exponent, zero without one. -/
def exponentValue : List Char → Int
  | [] => 0
  | _ :: '-' :: ds => -natural ds
  | _ :: '+' :: ds => natural ds
  | _ :: ds => natural ds

/-! ## Whole numerals -/

/-- The number nearest to a numeral. -/
def value (n : Numeral) : Float :=
  let scale := n.exponent - n.fraction.length
  let magnitude := Float.ofScientific (natural (n.whole ++ n.fraction)) (scale < 0) scale.natAbs
  if n.negative then -magnitude else magnitude

/-- The digits after a point, and what follows them; without a point nothing is taken. -/
def pointText : List Char → List Char × List Char
  | '.' :: r => (digits r, afterDigits r)
  | r => ([], r)

/-- The longest numeral at the front of a text, and what follows it. -/
def read? (cs : List Char) : Option (Numeral × List Char) :=
  let (signText, r) := sign cs
  let whole := digits r
  let (fraction, afterPoint) := pointText (afterDigits r)
  if whole = [] ∧ fraction = [] then none
  else
    let (expText, rest) := exponentText afterPoint
    some (⟨signText = ['-'], whole, fraction, exponentValue expText⟩, rest)

/-- The number of a text that is a numeral from end to end. -/
def value? (cs : List Char) : Option Float :=
  match read? cs with
  | some (n, []) => some n.value
  | _ => none

end Numeral

end ExprLang
