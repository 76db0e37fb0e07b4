import ExprLang.Number.Integer
import ExprLang.Number.Shortest

/-!
# The text of a number

A number less than a hundred-thousandth away from a whole one is written as that whole number, any
other with the fewest digits that read back. Both are positional, without an exponent, and keep the
sign of a negative number, zero included.
-/

namespace ExprLang.Number

open Float.Model (UnpackedFloat)

/-- A decimal without an exponent. -/
def Decimal.positional (d : Decimal) : String :=
  let digits := Nat.toDigits 10 d.digits
  let places := (-d.exponent).toNat
  if places = 0 then String.ofList (digits ++ List.replicate d.exponent.toNat '0')
  else
    let padded := List.replicate (places + 1 - digits.length) '0' ++ digits
    let whole := padded.length - places
    String.ofList (padded.take whole ++ '.' :: padded.drop whole)

/-- The whole number nearest to `m * 2 ^ e`, a half going up. -/
def nearestWhole (m : Nat) (e : Int) : Nat :=
  (2 * m * power 2 e + power 2 (-e)) / (2 * power 2 (-e))

def signText : UnpackedFloat.Sign → String
  | .positive => ""
  | .negative => "-"

def text (x : Float) : String :=
  match x.toModel.unpack with
  | .notANumber => "NaN"
  | .infinity s => signText s ++ "inf"
  | .zero s => signText s ++ "0"
  | .finite s m e _ =>
    let whole := nearestWhole m e
    if (x.abs - ofInteger whole).abs < 0.00001 then signText s ++ toString whole
    else signText s ++ (shortest m e).positional

end ExprLang.Number
