/-!
# Shortest decimals

The decimal with the fewest digits among those that a reader rounding to nearest takes back to a
given number, and of those the nearest. A positive number `m * 2 ^ e` stands for the interval
between the middles to its two neighbours, ends included just when `m` is even. On the grid of
multiples of `10 ^ k` the two points around the number are tried, from a coarse grid to finer ones:
the first grid with a point inside wins, of two points inside the nearer one, and in an exact tie
the upper one.
-/

namespace ExprLang.Number

/-- The decimal `digits * 10 ^ exponent`. -/
structure Decimal where
  digits : Nat
  exponent : Int

/-- The power `b ^ k`, or one if `k` is negative. -/
def power (b : Nat) (k : Int) : Nat := Nat.pow b k.toNat

/-- The least significand of full width, that of a power of two. -/
def leastSignificand : Nat := 4503599627370496

/-- A number and the ends of its interval, as multiples of `1 / unit`. -/
structure Interval where
  lower : Nat
  value : Nat
  upper : Nat
  unit : Nat
  closed : Bool

namespace Interval

/-- The interval of `m * 2 ^ e`. The neighbour below a power of two is half as far away, unless both
are subnormal. -/
def ofFinite (m : Nat) (e : Int) : Interval :=
  let up := power 2 e
  { lower := if m = leastSignificand ∧ -1074 < e then (4 * m - 1) * up else (4 * m - 2) * up
    value := 4 * m * up
    upper := (4 * m + 2) * up
    unit := 4 * power 2 (-e)
    closed := m % 2 = 0 }

/-- Whether the point `c * 10 ^ k` lies in the interval. -/
def contains (i : Interval) (c : Nat) (k : Int) : Bool :=
  let point := c * power 10 k * i.unit
  let scale := power 10 (-k)
  if i.closed then i.lower * scale ≤ point && point ≤ i.upper * scale
  else i.lower * scale < point && point < i.upper * scale

/-- The point that is taken on the grid of multiples of `10 ^ k`, if one lies in the interval. -/
def onGrid (i : Interval) (k : Int) : Option Decimal :=
  let num := i.value * power 10 (-k)
  let den := i.unit * power 10 k
  let below := num / den
  match i.contains below k, i.contains (below + 1) k with
  | true, true => some ⟨if 2 * (num % den) < den then below else below + 1, k⟩
  | true, false => some ⟨below, k⟩
  | false, true => some ⟨below + 1, k⟩
  | false, false => none

/-- The first hit on the grids `k`, `k - 1`, … -/
def search (i : Interval) (k : Int) : Nat → Decimal
  | 0 => ⟨i.value * power 10 (-k) / (i.unit * power 10 k), k⟩
  | n + 1 => (i.onGrid k).getD (search i (k - 1) n)

end Interval

/-- A number below `2 ^ b` is below `10 ^ (b * 0.30103 + 1)`, and seventeen digits always read back. -/
def shortest (m : Nat) (e : Int) : Decimal :=
  let bits : Int := m.log2 + 1 + e
  (Interval.ofFinite m e).search ((bits * 30103).fdiv 100000 + 1) 22

end ExprLang.Number
