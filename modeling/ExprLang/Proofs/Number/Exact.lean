import ExprLang.Number.Integer
import ExprLang.Proofs.Number.Sign
import Mathlib.Tactic.Ring

/-!
# Integers that are numbers

A number has a significand of fifty-three bits, so an integer no longer than that is a number without
rounding (`unpack_ofNat`), and the integer of that number is the integer again (`truncate_ofInteger`).
-/

namespace ExprLang.Number

open Float.Model (UnpackedFloat Format totalExponent)
open Float.Model.UnpackedFloat

/-! ## Significands of full width -/

/-- Zeros at the end of a significand are shifted off without a residue. -/
theorem shift_zeros (m k : Nat) : (⟨m * 2 ^ k, false, false⟩ : ExtendedMantissa) >>> k = ⟨m, false, false⟩ := by
  show k.repeat ExtendedMantissa.shiftRightOne _ = _
  induction k generalizing m with
  | zero => simp [Nat.repeat]
  | succ k ih =>
    have hmul : m * 2 ^ (k + 1) = m * 2 * 2 ^ k := by ring
    rw [hmul, Nat.repeat, ih]
    simp [ExtendedMantissa.shiftRightOne]

theorem log2_mul_pow {m b : Nat} (hm : m.log2 = b) (h : m ≠ 0) (k : Nat) : (m * 2 ^ k).log2 = b + k := by
  obtain ⟨hlow, hhigh⟩ := (Nat.log2_eq_iff h).1 hm
  have hpos : 0 < 2 ^ k := Nat.two_pow_pos k
  refine (Nat.log2_eq_iff (Nat.mul_ne_zero h hpos.ne')).2 ⟨?_, ?_⟩
  · rw [Nat.pow_add]
    exact Nat.mul_le_mul_right _ hlow
  · rw [show b + k + 1 = b + 1 + k by omega, Nat.pow_add]
    exact Nat.mul_lt_mul_of_pos_right hhigh hpos

variable {m : Nat} (hm : m.log2 = 52)

include hm

theorem ne_zero_of_log2 : m ≠ 0 := by
  rintro rfl
  cases hm

omit hm in
theorem targetExponent_binary64 (e : Int) : Format.binary64.targetExponent e = max (e - 53) (-1074) := rfl

/-- A significand of full width is its own rounding, whatever zeros stand behind it. -/
theorem shiftToTargetExponent_full (k : Nat) {e : Int} (he : -1074 ≤ e) :
    shiftToTargetExponent .binary64 (m * 2 ^ k) (e - k) .exact = (⟨m, false, false⟩, e) := by
  have htarget : Format.binary64.targetExponent (totalExponent (m * 2 ^ k) (e - k)) = e := by
    rw [targetExponent_binary64, totalExponent, log2_mul_pow hm (ne_zero_of_log2 hm)]
    push_cast
    omega
  have hshift : (e - (e - k)).toNat = k := by omega
  simp only [shiftToTargetExponent, htarget, shiftToExponent, hshift, ExtendedMantissa.ofMantissaAndAccuracy,
    shift_zeros, Int.sub_add_cancel]

/-- If a full significand is left after the first shift, the carry of its rounding goes to the exponent. -/
theorem roundWithAccuracy_of_shift {n j : Nat} {i e : Int} {a : Accuracy} {x : ExtendedMantissa} (s : Sign)
    (hshift : shiftToTargetExponent .binary64 n i a = (x, e)) (hround : x.roundedMantissa = m * 2 ^ j) (he : -1074 ≤ e) :
    roundWithAccuracy .binary64 s n i a = .finite s m (e + j) (Nat.pos_of_ne_zero (ne_zero_of_log2 hm)) := by
  have hagain := shiftToTargetExponent_full hm j (e := e + j) (by omega)
  rw [Int.add_sub_cancel] at hagain
  unfold roundWithAccuracy
  rw [hshift]
  dsimp only
  rw [hround, hagain]
  exact dif_neg (ne_zero_of_log2 hm)

theorem roundWithAccuracy_full (s : Sign) (k : Nat) {e : Int} (he : -1074 ≤ e) :
    roundWithAccuracy .binary64 s (m * 2 ^ k) (e - k) .exact = .finite s m e (Nat.pos_of_ne_zero (ne_zero_of_log2 hm)) := by
  have hround := roundWithAccuracy_of_shift hm (j := 0) s (shiftToTargetExponent_full hm k he) (Nat.mul_one m).symm he
  rwa [Nat.cast_zero, Int.add_zero] at hround

/-- A number with such a significand is unpacked as it was packed. -/
theorem unpack_pack_full (s : Sign) {e : Int} (he : -1074 ≤ e) (he' : e ≤ 971) :
    (Float.Model.pack (.finite s m e (Nat.pos_of_ne_zero (ne_zero_of_log2 hm)))).unpack =
      .finite s m e (Nat.pos_of_ne_zero (ne_zero_of_log2 hm)) := by
  obtain ⟨hlow, hhigh⟩ := (Nat.log2_eq_iff (ne_zero_of_log2 hm)).1 hm
  obtain ⟨r, rfl⟩ : ∃ r : BitVec 52, m = (1#1 ++ r).toNat := by
    refine ⟨BitVec.ofNat 52 m, ?_⟩
    rw [BitVec.toNat_append, ← Nat.shiftLeft_add_eq_or_of_lt (BitVec.isLt _), BitVec.toNat_ofNat]
    show m = 1 <<< 52 + m % 2 ^ 52
    omega
  obtain ⟨b, rfl, hb⟩ : ∃ b : BitVec 11, e = b.toNat - 1075 ∧ 1 ≤ b.toNat ∧ b.toNat ≤ 2046 := by
    have hmod : (BitVec.ofNat 11 (e + 1075).toNat).toNat = (e + 1075).toNat := by
      rw [BitVec.toNat_ofNat]
      omega
    exact ⟨BitVec.ofNat 11 (e + 1075).toNat, by omega, by omega, by omega⟩
  have hmax : b ≠ -1#11 := by
    rintro rfl
    exact absurd hb.2 (by decide)
  have hzero : b ≠ 0#11 := by
    rintro rfl
    exact absurd hb.1 (by decide)
  show unpack .binary64 (pack .binary64 _) = _
  rw [pack_normal s hmax, unpack_packComponents, ofFields, if_neg hmax, if_neg hzero]

theorem unpack_neg_full {x : Float} {e : Int} (he : -1074 ≤ e) (he' : e ≤ 971) {hp : 0 < m}
    (hx : x.toModel.unpack = .finite .positive m e hp) : (-x).toModel.unpack = .finite .negative m e hp := by
  show (Float.Model.pack x.toModel.unpack.neg).unpack = _
  rw [hx]
  exact unpack_pack_full hm .negative he he'

omit hm

/-! ## Whole numbers -/

/-- The digits of a whole number below `2 ^ 53` can be moved up to the full width. -/
theorem exists_full {n : Nat} (hzero : n ≠ 0) (hlt : n < 2 ^ 53) : ∃ k, (n * 2 ^ k).log2 = 52 ∧ k + n.log2 = 52 := by
  have hlog : n.log2 < 53 := (Nat.log2_lt hzero).2 hlt
  refine ⟨52 - n.log2, ?_, by omega⟩
  rw [log2_mul_pow rfl hzero]
  omega

/-- A whole number below `2 ^ 53` is rounded to its own digits, moved up to the full width. -/
theorem ofUInt64_eq {n k : Nat} (hn : n < 2 ^ 53) (hm : (n * 2 ^ k).log2 = 52) (hk : k + n.log2 = 52) :
    UnpackedFloat.ofUInt64 .binary64 n.toUInt64 =
      .finite .positive (n * 2 ^ k) (-k) (Nat.pos_of_ne_zero (ne_zero_of_log2 hm)) := by
  have hpos : 0 < n := Nat.pos_of_ne_zero fun h => ne_zero_of_log2 hm (by rw [h, Nat.zero_mul])
  have hvalue : n.toUInt64.toNat = n := by
    rw [UInt64.toNat_ofNat']
    omega
  have htarget : Format.binary64.targetExponent (totalExponent n 0) = -k := by
    rw [targetExponent_binary64, totalExponent]
    omega
  have hcompare : compare (n : Int) 0 = .gt := Int.compare_eq_gt.2 (by omega)
  have hshift : (0 - -(k : Int)).toNat = k := by omega
  have hround := roundWithAccuracy_full hm .positive 0 (e := -k) (by omega)
  rw [Nat.pow_zero, Nat.mul_one, Nat.cast_zero, Int.sub_zero] at hround
  rw [← hround]
  unfold UnpackedFloat.ofUInt64 UnpackedFloat.ofNat UnpackedFloat.ofInt UnpackedFloat.normalize
  simp only [hvalue, hcompare, UnpackedFloat.round, Int.toNat_natCast, htarget, decreaseExponent, hshift, Nat.shiftLeft_eq]
  rw [Int.zero_sub]

theorem unpack_toFloat {n k : Nat} (hn : n < 2 ^ 53) (hm : (n * 2 ^ k).log2 = 52) (hk : k + n.log2 = 52) :
    n.toUInt64.toFloat.toModel.unpack =
      .finite .positive (n * 2 ^ k) (-k) (Nat.pos_of_ne_zero (ne_zero_of_log2 hm)) := by
  show (Float.Model.pack (UnpackedFloat.ofUInt64 .binary64 n.toUInt64)).unpack = _
  rw [ofUInt64_eq hn hm hk]
  exact unpack_pack_full hm .positive (by omega) (by omega)

/-- The number of a whole number below `2 ^ 53`. -/
theorem unpack_ofNat {n k : Nat} (hn : n < 2 ^ 53) (hm : (n * 2 ^ k).log2 = 52) (hk : k + n.log2 = 52) :
    (Float.ofNat n).toModel.unpack =
      .finite .positive (n * 2 ^ k) (-k) (Nat.pos_of_ne_zero (ne_zero_of_log2 hm)) := by
  have hfast : Float.ofNat n = n.toUInt64.toFloat * Float.ofBits 0x3FF0000000000000 := by
    show Float.ofScientific n false 0 = _
    unfold Float.ofScientific
    rw [dif_pos ⟨hn, by decide⟩]
    rfl
  have hone : ∃ hp, (Float.ofBits 0x3FF0000000000000).toModel.unpack = .finite .positive (2 ^ 52) (-52) hp :=
    ⟨by decide, rfl⟩
  obtain ⟨hp, hone⟩ := hone
  rw [hfast]
  show (Float.Model.pack (mul .binary64 n.toUInt64.toFloat.toModel.unpack
    (Float.ofBits 0x3FF0000000000000).toModel.unpack)).unpack = _
  rw [unpack_toFloat hn hm hk, hone]
  have hproduct := roundWithAccuracy_full hm (.positive * .positive) 52 (e := -k) (by omega)
  rw [show -(k : Int) - (52 : Nat) = -(k : Int) + -52 by omega] at hproduct
  show (Float.Model.pack (roundWithAccuracy .binary64 _ _ _ .exact)).unpack = _
  rw [hproduct]
  exact unpack_pack_full hm .positive (by omega) (by omega)

/-- The integer of digits that were moved up. -/
theorem toInt_full {n k : Nat} (s : Sign) (hp : 0 < n * 2 ^ k) (low high : Int) :
    (UnpackedFloat.finite s (n * 2 ^ k) (-k) hp).toInt low high = s.apply n := by
  have hdecrease : (-(k : Int) - 0).toNat = 0 := by omega
  have hshift : (0 - (-(k : Int) - (0 : Nat))).toNat = k := by omega
  show roundToInt s (n * 2 ^ k) (-k) = _
  simp only [roundToInt, decreaseExponent, hdecrease, shiftToExponent, hshift, Nat.shiftLeft_zero,
    ExtendedMantissa.ofMantissaAndAccuracy, shift_zeros]

theorem clamp_natCast {n : Nat} (h : n ≤ 2 ^ 53) :
    max minInteger (min maxInteger n) = n ∧ max minInteger (min maxInteger (-n)) = -n := by
  unfold minInteger maxInteger
  omega

theorem truncate_ofNat {n : Nat} (h : n ≤ 2 ^ 53) :
    truncate (Float.ofNat n) = n ∧ truncate (-Float.ofNat n) = -n := by
  obtain rfl | rfl | ⟨hzero, hlt⟩ : n = 0 ∨ n = 2 ^ 53 ∨ n ≠ 0 ∧ n < 2 ^ 53 := by omega
  · decide +kernel
  · decide +kernel
  · obtain ⟨k, hm, hk⟩ := exists_full hzero hlt
    have hunpack := unpack_ofNat hlt hm hk
    unfold truncate
    rw [hunpack, unpack_neg_full hm (by omega) (by omega) hunpack, toInt_full, toInt_full]
    exact clamp_natCast h

/-- An integer of at most fifty-three bits is the integer of its number. -/
theorem truncate_ofInteger {i : Int} (h : i.natAbs ≤ 2 ^ 53) : truncate (ofInteger i) = i := by
  cases i with
  | ofNat n => exact (truncate_ofNat h).1
  | negSucc n => exact (truncate_ofNat (n := n + 1) h).2

end ExprLang.Number
