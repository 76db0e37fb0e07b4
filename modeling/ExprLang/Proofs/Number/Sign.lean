import ExprLang.Number.Text
import Mathlib.Algebra.Group.Nat.Defs

/-!
# The sign of a number

A number is a sign bit beside an exponent and a significand (`unpack_eq`). Taking the absolute value
and negating write the sign bit and nothing else (`pack_withSign`), so a number is its absolute value
with its own sign (`abs_of_positive`, `neg_abs_of_negative`).
-/

namespace ExprLang.Number

open Float.Model (UnpackedFloat Format)
open Float.Model.UnpackedFloat

/-! ## Words of bits -/

abbrev Word := BitVec Format.binary64.numBits

def signOf (b : Word) : Sign := Sign.ofBitVec (unpackSign b)

/-- The word with another sign bit. -/
def signed (s : Sign) (b : Word) : Word := packComponents .binary64 s (unpackExponent b) (unpackMantissa b)

def withSign (s : Sign) : UnpackedFloat → UnpackedFloat
  | .notANumber => .notANumber
  | .infinity _ => .infinity s
  | .zero _ => .zero s
  | .finite _ m e h => .finite s m e h

/-- What the fields of a word stand for. -/
def ofFields (s : Sign) (e : BitVec 11) (m : BitVec 52) : UnpackedFloat :=
  if e = -1#11 then
    if m = 0#52 then .infinity s else .notANumber
  else if e = 0#11 then
    if h : m = 0#52 then .zero s
    else .finite s m.toNat (e.toNat - 1075 + 1) (Nat.pos_of_ne_zero fun hm => h (BitVec.eq_of_toNat_eq hm))
  else .finite s (1#1 ++ m).toNat (e.toNat - 1075) (by
    rw [BitVec.toNat_append]
    exact Nat.lt_of_lt_of_le (by decide) Nat.left_le_or)

theorem unpack_eq (b : Word) :
    unpack .binary64 b = ofFields (signOf b) (unpackExponent b) (unpackMantissa b) := rfl

theorem withSign_ofFields (s t : Sign) (e : BitVec 11) (m : BitVec 52) :
    withSign s (ofFields t e m) = ofFields s e m := by
  unfold ofFields
  rw [apply_ite (withSign s), apply_ite (withSign s), apply_ite (withSign s), apply_dite (withSign s)]
  rfl

theorem signed_signOf (b : Word) : signed (signOf b) b = b := by
  have hsign : (signOf b).toBitVec = unpackSign b := by
    have h : ∀ v : BitVec 1, (Sign.ofBitVec v).toBitVec = v := by decide
    exact h _
  unfold signed packComponents
  rw [hsign]
  -- the sign, the exponent and the mantissa stand side by side in the word
  show b.extractLsb' 63 1 ++ b.extractLsb' 52 11 ++ b.extractLsb' 0 52 = b
  have hhigh : b.extractLsb' 63 1 ++ b.extractLsb' 52 11 = b.extractLsb' 52 12 :=
    BitVec.extractLsb'_append_extractLsb'_eq_extractLsb' rfl
  rw [hhigh]
  exact (BitVec.extractLsb'_append_extractLsb'_eq_extractLsb' rfl).trans BitVec.extractLsb'_eq_self

theorem signOf_packComponents (s : Sign) (e : BitVec 11) (m : BitVec 52) :
    signOf (packComponents .binary64 s e m) = s := by
  have hbit : unpackSign (packComponents .binary64 s e m) = s.toBitVec := by
    show (s.toBitVec ++ e ++ m).extractLsb' 63 1 = s.toBitVec
    rw [BitVec.extractLsb'_append_eq_of_le (by omega), BitVec.extractLsb'_append_eq_of_le (by omega)]
    cases s <;> rfl
  rw [signOf, hbit]
  cases s <;> rfl

theorem unpack_packComponents (s : Sign) (e : BitVec 11) (m : BitVec 52) :
    unpack .binary64 (packComponents .binary64 s e m) = ofFields s e m := by
  rw [unpack_eq, signOf_packComponents, unpackExponent_packComponents, unpackMantissa_packComponents]

theorem unpack_signed (s : Sign) (b : Word) :
    unpack .binary64 (signed s b) = withSign s (unpack .binary64 b) := by
  rw [signed, unpack_packComponents, unpack_eq, withSign_ofFields]

/-- What is unpacked from a word has its sign. -/
theorem withSign_unpack (b : Word) : withSign (signOf b) (unpack .binary64 b) = unpack .binary64 b := by
  rw [← unpack_signed, signed_signOf]

/-! ## Packing -/

theorem pack_finite (s : Sign) (m : Nat) (e : Int) (h : 0 < m) :
    pack .binary64 (.finite s m e h) =
      if 2048 ≤ (e + 1023 + 52).toNat + 1 then packedInfinity .binary64 s
      else if m.log2 + 1 = 53 then packComponents .binary64 s (.ofNat 11 (e + 1023 + 52).toNat) (.ofNat 52 m)
      else packComponents .binary64 s 0#11 (.ofNat 52 m) := rfl

/-- A significand without the implicit bit is that of a subnormal number. -/
theorem pack_subnormal (s : Sign) {m : BitVec 52} (h : 0 < m.toNat) :
    pack .binary64 (.finite s m.toNat (-1074) h) = packComponents .binary64 s 0#11 m := by
  have hlog : m.toNat.log2 + 1 ≠ 53 := by
    have hlt : m.toNat.log2 < 52 := (Nat.log2_lt (by omega)).2 m.isLt
    omega
  rw [pack_finite, if_neg (by decide), if_neg hlog, BitVec.ofNat_toNat, BitVec.setWidth_eq]

/-- The implicit bit stands before the other fifty-two. -/
theorem toNat_implicit (m : BitVec 52) : (1#1 ++ m).toNat = 2 ^ 52 + m.toNat := by
  rw [BitVec.toNat_append, ← Nat.shiftLeft_add_eq_or_of_lt m.isLt]
  rfl

theorem log2_implicit (m : BitVec 52) : (1#1 ++ m).toNat.log2 = 52 := by
  have hvalue := toNat_implicit m
  have hlow : 52 ≤ (1#1 ++ m).toNat.log2 := (Nat.le_log2 (by omega)).2 (by omega)
  have hhigh : (1#1 ++ m).toNat.log2 < 53 := (Nat.log2_lt (by omega)).2 (1#1 ++ m).isLt
  omega

theorem pack_normal (s : Sign) {e : BitVec 11} {m : BitVec 52} (he : e ≠ -1#11) (h : 0 < (1#1 ++ m).toNat) :
    pack .binary64 (.finite s (1#1 ++ m).toNat (e.toNat - 1075) h) = packComponents .binary64 s e m := by
  have hlog : (1#1 ++ m).toNat.log2 + 1 = 53 := by rw [log2_implicit]
  have hexponent : ((e.toNat : Int) - 1075 + 1023 + 52).toNat = e.toNat := by omega
  have hsmall : ¬ 2048 ≤ e.toNat + 1 := by
    have hne : e.toNat ≠ 2 ^ 11 - 1 := fun h => he (BitVec.eq_of_toNat_eq (by simpa using h))
    have hlt : e.toNat < 2 ^ 11 := e.isLt
    omega
  have hmantissa : BitVec.ofNat 52 (1#1 ++ m).toNat = m := BitVec.eq_of_toNat_eq (by
    rw [BitVec.toNat_ofNat, toNat_implicit, Nat.add_mod_left, Nat.mod_eq_of_lt m.isLt])
  rw [pack_finite, hexponent, if_neg hsmall, if_pos hlog, hmantissa, BitVec.ofNat_toNat, BitVec.setWidth_eq]

/-- Packing a finite number gives back its fields. -/
theorem pack_ofFields {s : Sign} {e : BitVec 11} {m : BitVec 52} (h : (ofFields s e m).isFinite = true) :
    pack .binary64 (ofFields s e m) = packComponents .binary64 s e m := by
  unfold ofFields at h ⊢
  by_cases he : e = -1#11
  · rw [if_pos he] at h
    by_cases hm : m = 0#52
    · rw [if_pos hm] at h
      cases h
    · rw [if_neg hm] at h
      cases h
  rw [if_neg he]
  by_cases hzero : e = 0#11
  · rw [if_pos hzero, hzero]
    by_cases hm : m = 0#52
    · rw [dif_pos hm, hm]
      rfl
    · rw [dif_neg hm]
      exact pack_subnormal s _
  · rw [if_neg hzero]
    exact pack_normal s he _

theorem isFinite_withSign (s : Sign) (u : UnpackedFloat) : (withSign s u).isFinite = u.isFinite := by
  cases u <;> rfl

/-- Packing a finite number with another sign writes the sign bit. -/
theorem pack_withSign (s : Sign) {b : Word} (h : (unpack .binary64 b).isFinite = true) :
    pack .binary64 (withSign s (unpack .binary64 b)) = signed s b := by
  rw [← isFinite_withSign s] at h
  rw [unpack_eq, withSign_ofFields] at h ⊢
  exact pack_ofFields h

/-! ## Numbers -/

def bits (x : Float) : Word := x.toModel.toBits.toBitVec

theorem eq_of_bits_eq {x y : Float} (h : bits x = bits y) : x = y := by
  obtain ⟨⟨⟨b⟩, _⟩⟩ := x
  obtain ⟨⟨⟨c⟩, _⟩⟩ := y
  cases h
  rfl

variable {x : Float}

theorem bits_abs (h : x.isFinite = true) : bits x.abs = signed .positive (bits x) := by
  have habs : ∀ u : UnpackedFloat, u.abs = withSign .positive u := fun u => by cases u <;> rfl
  show pack .binary64 (unpack .binary64 (bits x)).abs = _
  rw [habs]
  exact pack_withSign .positive h

theorem bits_neg_abs (h : x.isFinite = true) : bits (-x.abs) = signed .negative (bits x) := by
  have hneg : ∀ u : UnpackedFloat, (withSign .positive u).neg = withSign .negative u := fun u => by cases u <;> rfl
  show pack .binary64 (unpack .binary64 (bits x.abs)).neg = _
  rw [bits_abs h, unpack_signed, hneg]
  exact pack_withSign .negative h

theorem abs_of_positive (h : x.isFinite = true) (hs : signOf (bits x) = .positive) : x.abs = x :=
  eq_of_bits_eq (by rw [bits_abs h, ← hs, signed_signOf])

theorem neg_abs_of_negative (h : x.isFinite = true) (hs : signOf (bits x) = .negative) : -x.abs = x :=
  eq_of_bits_eq (by rw [bits_neg_abs h, ← hs, signed_signOf])

theorem isFinite_of_unpack {s : Sign} {m : Nat} {e : Int} {h : 0 < m} (hx : x.toModel.unpack = .finite s m e h) :
    x.isFinite = true := by
  show x.toModel.unpack.isFinite = true
  rw [hx]
  rfl

theorem signOf_of_unpack {s : Sign} {m : Nat} {e : Int} {h : 0 < m} (hx : x.toModel.unpack = .finite s m e h) :
    signOf (bits x) = s := by
  have hown : withSign (signOf (bits x)) x.toModel.unpack = x.toModel.unpack := withSign_unpack (bits x)
  rw [hx] at hown
  injection hown

theorem isNaN_of_isFinite (h : x.isFinite = true) : x.isNaN = false := by
  have hnan : ∀ u : UnpackedFloat, u.isFinite = true → u.isNaN = false := fun u hu => by cases u <;> first | rfl | cases hu
  exact hnan x.toModel.unpack h

end ExprLang.Number
