/-!
# Integers inside numbers

Numbers are binary64. Subscripts, ranges and bitwise operators work on the signed 64-bit integer of
a number: the number without its fraction, or the nearest bound where that is out of reach. Bitwise
operators work on the two's complement word of such an integer.

- `truncate_mem`: the integer of a number is in reach.
- `shifted_of_lt`, `shifted_of_not_lt`: what a shift does with a count in reach and with any other.
-/

namespace ExprLang.Number

/-! ## The integer of a number -/

def minInteger : Int := -9223372036854775808

def maxInteger : Int := 9223372036854775807

/-- A number without its fraction, clamped to the signed 64-bit integers; not-a-number gives zero. -/
def truncate (x : Float) : Int :=
  max minInteger (min maxInteger (x.toModel.unpack.toInt minInteger maxInteger))

theorem truncate_mem (x : Float) : minInteger ≤ truncate x ∧ truncate x ≤ maxInteger := by
  unfold truncate minInteger maxInteger
  omega

/-- The number nearest to an integer. -/
def ofInteger (i : Int) : Float := Float.ofInt i

/-! ## Words -/

def word (i : Int) : BitVec 64 := BitVec.ofInt 64 i

def bitNot (i : Int) : Int := (~~~word i).toInt

def bitAnd (i j : Int) : Int := (word i &&& word j).toInt

def bitOr (i j : Int) : Int := (word i ||| word j).toInt

def bitXor (i j : Int) : Int := (word i ^^^ word j).toInt

/-- A count as an unsigned integer of thirty-two bits, if it is one. -/
def shiftCount? (count : Int) : Option UInt32 :=
  if 0 ≤ count ∧ count < 4294967296 then some (UInt32.ofNat count.toNat) else none

/-- A word is shifted only by fewer places than it has. -/
def shiftWord? (shift : BitVec 64 → Nat → BitVec 64) (w : BitVec 64) (count : UInt32) : Option (BitVec 64) :=
  if count.toNat < 64 then some (shift w count.toNat) else none

/-- What is left of an integer after a shift; by the width of a word or more, or by a negative count, it is what `beyond` says. -/
def shifted (shift : BitVec 64 → Nat → BitVec 64) (beyond i count : Int) : Int :=
  match (shiftCount? count).bind (shiftWord? shift (word i)) with
  | some w => w.toInt
  | none => beyond

theorem shifted_of_lt (shift : BitVec 64 → Nat → BitVec 64) (beyond i : Int) {count : Nat} (h : count < 64) :
    shifted shift beyond i count = (shift (word i) count).toInt := by
  have hsmall : (0 : Int) ≤ count ∧ (count : Int) < 4294967296 := by omega
  have hvalue : (UInt32.ofNat count).toNat = count := by
    rw [UInt32.toNat_ofNat']
    omega
  have hword : (shiftCount? count).bind (shiftWord? shift (word i)) = some (shift (word i) count) := by
    rw [shiftCount?, if_pos hsmall, Option.bind_some, Int.toNat_natCast, shiftWord?, hvalue, if_pos h]
  rw [shifted, hword]

theorem shifted_of_not_lt (shift : BitVec 64 → Nat → BitVec 64) (beyond i : Int) {count : Int}
    (h : ¬ (0 ≤ count ∧ count < 64)) : shifted shift beyond i count = beyond := by
  have hnone : (shiftCount? count).bind (shiftWord? shift (word i)) = none := by
    unfold shiftCount?
    split
    · next hsmall =>
      have hvalue : (UInt32.ofNat count.toNat).toNat = count.toNat := by
        rw [UInt32.toNat_ofNat']
        omega
      rw [Option.bind_some, shiftWord?, hvalue, if_neg (by omega)]
    · rfl
  rw [shifted, hnone]

/-- Nothing is left of a word shifted out. -/
def shiftLeft (i count : Int) : Int := shifted (fun w n => w <<< n) 0 i count

/-- Only the sign is left of a word shifted out. -/
def shiftRight (i count : Int) : Int := shifted BitVec.sshiftRight (if i < 0 then -1 else 0) i count

end ExprLang.Number
