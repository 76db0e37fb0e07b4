import ExprLang.Proofs.Number.Exact

/-!
# Texts of whole numbers

A whole number below `2 ^ 53` is written with its own digits (`text_ofNat`): it is the whole number nearest to itself,
and no distance away from it.
-/

namespace ExprLang.Number

open Float.Model (UnpackedFloat)
open Float.Model.UnpackedFloat

/-- A finite number less itself is zero. -/
theorem sub_self_of_isFinite {x : Float} (h : x.isFinite = true) : x - x = 0 := by
  have hfinite : x.toModel.unpack.isFinite = true := h
  have hzero : sub .binary64 x.toModel.unpack x.toModel.unpack = .zero .positive := by
    cases hu : x.toModel.unpack with
    | notANumber | infinity =>
      rw [hu] at hfinite
      cases hfinite
    | zero s => cases s <;> rfl
    | finite s m e hm =>
      show normalize .binary64 (s.apply (decreaseExponent m e (min e e)).1 - s.apply (decreaseExponent m e (min e e)).1)
        (min e e) .positive = .zero .positive
      rw [Int.sub_self]
      rfl
  show Float.ofModel (Float.Model.pack (sub .binary64 x.toModel.unpack x.toModel.unpack)) = 0
  rw [hzero]
  decide +kernel

/-- The zeros behind the digits of a whole number do not count. -/
theorem nearestWhole_full (n k : Nat) : nearestWhole (n * 2 ^ k) (-k) = n := by
  have hup : power 2 (-(k : Int)) = 1 := by rw [power, show (-(k : Int)).toNat = 0 by omega]
  have hdown : power 2 (- -(k : Int)) = 2 ^ k := by
    rw [power, show (- -(k : Int)).toNat = k by omega]
    rfl
  have hpos : 0 < 2 ^ k := Nat.two_pow_pos k
  rw [nearestWhole, hup, hdown, Nat.mul_one]
  have hnum : 2 * (n * 2 ^ k) + 2 ^ k = (2 * n + 1) * 2 ^ k := by ring
  rw [hnum, Nat.mul_div_mul_right _ _ hpos]
  omega

theorem text_ofNat {n : Nat} (h : n < 2 ^ 53) : text (Float.ofNat n) = toString n := by
  by_cases hzero : n = 0
  · subst hzero
    decide +kernel
  · obtain ⟨k, hm, hk⟩ := exists_full hzero h
    have hunpack := unpack_ofNat h hm hk
    have hfinite := isFinite_of_unpack hunpack
    have hsign := signOf_of_unpack hunpack
    have hnear : ((Float.ofNat n).abs - ofInteger n).abs < 0.00001 := by
      show ((Float.ofNat n).abs - Float.ofNat n).abs < 0.00001
      rw [abs_of_positive hfinite hsign, sub_self_of_isFinite hfinite]
      decide +kernel
    rw [text, hunpack]
    dsimp only
    rw [nearestWhole_full, if_pos hnear]
    exact String.empty_append

end ExprLang.Number
