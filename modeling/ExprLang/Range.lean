/-!
# Ranges

A range is a run of integers from a first to a last one, ends included, upwards or downwards. An
open range occurs only as a subscript and takes its other end from the size of what is indexed:
`startingAt a` goes to the last position, `endingAt b` comes from it. The bounds are signed 64-bit
integers wherever a range is made from numbers.

- `items_length`: a range has one integer more than its ends are apart.
- `items_head?`, `items_getLast?`: it begins and ends with its bounds.

A range that is too long to list is walked through in signed words of sixty-four bits (`Walker`).
-/

namespace ExprLang

inductive Range where
  | startingAt (first : Int)
  | endingAt (last : Int)
  | between (first last : Int)
deriving DecidableEq

namespace Range

/-- The first and last integer among `size` positions. -/
def bounds (size : Nat) : Range → Int × Int
  | startingAt first => (first, size - 1)
  | endingAt last => (size - 1, last)
  | between first last => (first, last)

/-- How many integers lie between two bounds, both included. -/
def count (first last : Int) : Nat := (last - first).natAbs + 1

/-- The integer reached from `first` after `steps` steps towards `last`. -/
def step (first last : Int) (steps : Nat) : Int := if first ≤ last then first + steps else first - steps

def items (size : Nat) (r : Range) : List Int :=
  let (first, last) := r.bounds size
  (List.range (count first last)).map (step first last)

/-- The number of integers, at most the largest unsigned 64-bit one. -/
def length (size : Nat) (r : Range) : Nat :=
  let (first, last) := r.bounds size
  min (count first last) 18446744073709551615

theorem items_length (size : Nat) (r : Range) :
    (r.items size).length = count (r.bounds size).1 (r.bounds size).2 := by
  simp [items]

theorem items_head? (size : Nat) (r : Range) : (r.items size).head? = some (r.bounds size).1 := by
  simp [items, count, List.range_succ_eq_map, step]

theorem step_natAbs (first last : Int) : step first last (last - first).natAbs = last := by
  unfold step
  split <;> omega

theorem items_getLast? (size : Nat) (r : Range) : (r.items size).getLast? = some (r.bounds size).2 := by
  simp [items, count, List.range_succ, step_natAbs]

/-! ## Walking -/

/-- Where a walk through a range stands, where it ends, and whether it has given its last integer. -/
structure Walker where
  current : Int64
  last : Int64
  done : Bool

namespace Walker

/-- The integer at which a walk stands, and the walk after it: one step towards the end, or done there. -/
def next? (w : Walker) : Option (Int64 × Walker) :=
  if w.done then none
  else match compare w.current w.last with
    | .lt => some (w.current, { w with current := w.current + 1 })
    | .gt => some (w.current, { w with current := w.current - 1 })
    | .eq => some (w.current, { w with done := true })

/-- The first `n` integers of a walk. -/
def take : Nat → Walker → List Int64
  | 0, _ => []
  | n + 1, w =>
    match w.next? with
    | some (i, after) => i :: after.take n
    | none => []

end Walker

def walker (size : Nat) (r : Range) : Walker :=
  ⟨Int64.ofInt (r.bounds size).1, Int64.ofInt (r.bounds size).2, false⟩

/-- The first `n` integers of a range that may be too long to list. -/
def take (n size : Nat) (r : Range) : List Int := ((r.walker size).take n).map Int64.toInt

/-- How far two words are apart. -/
def distance (first last : Int64) : UInt64 :=
  if first < last then last.toUInt64 - first.toUInt64 else first.toUInt64 - last.toUInt64

/-- The number of integers between two words, both included, or the largest word if it is greater. -/
def wordCount (first last : Int64) : UInt64 :=
  if distance first last = 18446744073709551615 then distance first last else distance first last + 1

end Range

end ExprLang
