/-!
# Exact remainder

The remainder of a division that rounds towards zero. It has the sign of the dividend and is
computed exactly: both operands are integers in units of the smaller of their two last places, and
so is the remainder, which is therefore a number again.
-/

namespace ExprLang.Number

open Float.Model (UnpackedFloat Format)

/-- The remainder of two finite magnitudes `m * 2 ^ e` and `n * 2 ^ f`, as an integer in units of `2 ^ min e f`. -/
def remainderUnits (m : Nat) (e : Int) (n : Nat) (f : Int) : Nat :=
  (m <<< (e - min e f).toNat) % (n <<< (f - min e f).toNat)

def unpackedRemainder : UnpackedFloat → UnpackedFloat → UnpackedFloat
  | .notANumber, _ | _, .notANumber | .infinity _, _ | _, .zero _ => .notANumber
  | .zero s, _ => .zero s
  | .finite s m e h, .infinity _ => .finite s m e h
  | .finite s m e _, .finite _ n f _ =>
    match remainderUnits m e n f with
    | 0 => .zero s
    | r => UnpackedFloat.round Format.binary64 s r (min e f)

def remainder (x y : Float) : Float :=
  Float.ofModel (Float.Model.pack (unpackedRemainder x.toModel.unpack y.toModel.unpack))

end ExprLang.Number
