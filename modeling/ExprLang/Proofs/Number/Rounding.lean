import ExprLang.Proofs.Number.Exact

/-!
# Integers that are rounded

An integer of more than fifty-three bits loses its last digits when it is made a number. What is left of it is
as far from zero as the integers that are numbers exactly (`truncate_ofInteger_of_long`).
-/

namespace ExprLang.Number

open Float.Model (UnpackedFloat Format totalExponent)
open Float.Model.UnpackedFloat

/-! ## Digits that are dropped -/

/-- A shift leaves the quotient in the mantissa. -/
theorem mantissa_shiftRight (x : ExtendedMantissa) (k : Nat) : (x >>> k).mantissa = x.mantissa / 2 ^ k := by
  show (k.repeat ExtendedMantissa.shiftRightOne x).mantissa = _
  induction k with
  | zero => rw [Nat.repeat, Nat.pow_zero, Nat.div_one]
  | succ k ih =>
    show (k.repeat ExtendedMantissa.shiftRightOne x).mantissa / 2 = _
    rw [ih, Nat.div_div_eq_div_mul, Nat.pow_succ]

theorem roundedMantissa_bounds (x : ExtendedMantissa) :
    x.mantissa ≤ x.roundedMantissa ∧ x.roundedMantissa ≤ x.mantissa + 1 := by
  obtain ⟨m, r, s⟩ := x
  cases r <;> cases s <;>
    simp only [ExtendedMantissa.roundedMantissa, ExtendedMantissa.accuracy, Accuracy.roundToNearestEven] <;> omega

/-- A whole number with `k` digits too many is rounded to a full significand and an exponent of `k` or one more. -/
theorem roundWithAccuracy_long {n k : Nat} (s : Sign) (hn : n ≠ 0) (hlog : n.log2 = 52 + k) :
    ∃ (m e : Nat) (hp : 0 < m), m.log2 = 52 ∧ k ≤ e ∧ e ≤ k + 1 ∧
      roundWithAccuracy .binary64 s (n * 2 ^ 53) (-53) .exact = .finite s m e hp := by
  have htarget : Format.binary64.targetExponent (totalExponent (n * 2 ^ 53) (-53)) = k := by
    rw [targetExponent_binary64, totalExponent, log2_mul_pow hlog hn]
    push_cast
    omega
  obtain ⟨x, hx, hshift⟩ : ∃ x : ExtendedMantissa, x.mantissa = n / 2 ^ k ∧
      shiftToTargetExponent .binary64 (n * 2 ^ 53) (-53) .exact = (x, (k : Int)) := by
    have hamount : ((k : Int) - -53).toNat = 53 + k := by omega
    refine ⟨(⟨n * 2 ^ 53, false, false⟩ : ExtendedMantissa) >>> (53 + k), ?_, ?_⟩
    · rw [mantissa_shiftRight, Nat.pow_add, ← Nat.div_div_eq_div_mul, Nat.mul_div_cancel _ (Nat.two_pow_pos 53)]
    · simp only [shiftToTargetExponent, htarget, shiftToExponent, hamount, ExtendedMantissa.ofMantissaAndAccuracy]
      congr 1
      omega
  have hquotient : 2 ^ 52 ≤ n / 2 ^ k ∧ n / 2 ^ k < 2 ^ 53 := by
    obtain ⟨hlow, hhigh⟩ := (Nat.log2_eq_iff hn).1 hlog
    rw [Nat.le_div_iff_mul_le (Nat.two_pow_pos k), Nat.div_lt_iff_lt_mul (Nat.two_pow_pos k), ← Nat.pow_add, ← Nat.pow_add]
    exact ⟨hlow, by rwa [show 53 + k = 52 + k + 1 by omega]⟩
  obtain ⟨hdown, hup⟩ := roundedMantissa_bounds x
  by_cases hcarry : x.roundedMantissa = 2 ^ 53
  · have hround := roundWithAccuracy_of_shift (m := 2 ^ 52) (j := 1) (by decide) s hshift hcarry (by omega)
    exact ⟨2 ^ 52, k + 1, by decide, by decide, by omega, le_rfl, hround⟩
  · have hfull : x.roundedMantissa.log2 = 52 := (Nat.log2_eq_iff (by omega)).2 ⟨by omega, by omega⟩
    have hround := roundWithAccuracy_of_shift hfull (j := 0) s hshift (Nat.mul_one _).symm (by omega)
    rw [Nat.cast_zero, Int.add_zero] at hround
    exact ⟨x.roundedMantissa, k, by omega, hfull, le_rfl, by omega, hround⟩

/-! ## Long integers -/

/-- A number whose exponent is too large is packed as infinity. -/
theorem pack_overflow {m : Nat} {e : Int} (s : Sign) (hp : 0 < m) (h : 971 < e) :
    Float.Model.pack (.finite s m e hp) = Float.Model.pack (.infinity s) := by
  have hover : 2048 ≤ (e + 1023 + 52).toNat + 1 := by omega
  have hpack : pack .binary64 (.finite s m e hp) = packedInfinity .binary64 s := by rw [pack_finite, if_pos hover]
  unfold Float.Model.pack
  congr 2

/-- The number of a whole number that has more than fifty-three bits, infinite if the whole number is too long. -/
theorem unpack_ofNat_long {n : Nat} (hlow : 2 ^ 53 ≤ n) :
    (∃ (m e : Nat) (hp : 0 < m), m.log2 = 52 ∧ 1 ≤ e ∧ e ≤ 971 ∧
      (Float.ofNat n).toModel.unpack = .finite .positive m e hp) ∨
    (Float.ofNat n).toModel.unpack = .infinity .positive := by
  have hne : n ≠ 0 := by omega
  obtain ⟨k, hlog⟩ : ∃ k, n.log2 = 52 + k := Nat.exists_eq_add_of_le ((Nat.le_log2 hne).2 (by omega))
  have hk : 1 ≤ k := by
    have hlow : 53 ≤ n.log2 := (Nat.le_log2 hne).2 hlow
    omega
  have hslow : Float.ofNat n = Float.ofModel (Float.Model.ofScientific n 0) := by
    show Float.ofScientific n false 0 = _
    unfold Float.ofScientific
    rw [dif_neg fun h => absurd h.1 (Nat.not_lt.2 hlow)]
    rfl
  have hscientific : UnpackedFloat.ofScientific .binary64 n 0 =
      roundWithAccuracy .binary64 .positive (n * 2 ^ 53) (-53) .exact := by
    unfold UnpackedFloat.ofScientific
    rw [dif_neg hne, if_neg (by decide), if_neg (by show ¬ (0 : Int) < -(2 ^ 11 + n.log2); omega), if_pos le_rfl]
    have hone : n <<< 53 * 10 ^ Int.toNat 0 = n * 2 ^ 53 := by
      rw [Nat.shiftLeft_eq]
      exact Nat.mul_one _
    rw [← hone]
    rfl
  obtain ⟨m, e, hp, hm, he, he', hround⟩ := roundWithAccuracy_long .positive hne hlog
  have hunpack : (Float.ofNat n).toModel.unpack = (Float.Model.pack (.finite .positive m e hp)).unpack := by
    rw [hslow]
    show (Float.Model.pack (UnpackedFloat.ofScientific .binary64 n 0)).unpack = _
    rw [hscientific, hround]
  by_cases hfinite : e ≤ 971
  · refine .inl ⟨m, e, hp, hm, by omega, hfinite, ?_⟩
    rw [hunpack]
    exact unpack_pack_full hm .positive (by omega) (by omega)
  · right
    rw [hunpack, pack_overflow .positive hp (by omega)]
    rfl

/-- The integer of a significand in front of zeros. -/
theorem toInt_zeros {m e : Nat} (s : Sign) (hp : 0 < m) (low high : Int) :
    (UnpackedFloat.finite s m e hp).toInt low high = s.apply (m * 2 ^ e : Nat) := by
  have hdecrease : ((e : Int) - 0).toNat = e := by omega
  have hshift : (0 - ((e : Int) - (e : Nat))).toNat = 0 := by omega
  show roundToInt s m e = _
  simp only [roundToInt, decreaseExponent, hdecrease, shiftToExponent, hshift, Nat.shiftLeft_eq,
    ExtendedMantissa.ofMantissaAndAccuracy, mantissa_shiftRight, Nat.pow_zero, Nat.div_one]

theorem truncate_ofNat_long {n : Nat} (hlow : 2 ^ 53 ≤ n) :
    2 ^ 53 ≤ truncate (Float.ofNat n) ∧ truncate (-Float.ofNat n) ≤ -2 ^ 53 := by
  obtain ⟨m, e, hp, hm, he, he', hunpack⟩ | hunpack := unpack_ofNat_long hlow
  · have hfar : 2 ^ 53 ≤ m * 2 ^ e := by
      obtain ⟨hfull, -⟩ := (Nat.log2_eq_iff (ne_zero_of_log2 hm)).1 hm
      exact Nat.mul_le_mul hfull (Nat.pow_le_pow_right Nat.two_pos he)
    unfold truncate
    rw [hunpack, unpack_neg_full hm (by omega) (by omega) hunpack, toInt_zeros, toInt_zeros]
    show 2 ^ 53 ≤ max minInteger (min maxInteger ((m * 2 ^ e : Nat) : Int)) ∧
      max minInteger (min maxInteger (-((m * 2 ^ e : Nat) : Int))) ≤ -2 ^ 53
    unfold minInteger maxInteger
    omega
  · have hneg : (-Float.ofNat n).toModel.unpack = .infinity .negative := by
      show (Float.Model.pack (Float.ofNat n).toModel.unpack.neg).unpack = _
      rw [hunpack]
      rfl
    unfold truncate
    rw [hunpack, hneg]
    decide

/-- The number of an integer that is too long to be a number exactly is no closer to zero than `2 ^ 53`. -/
theorem truncate_ofInteger_of_long {i : Int} (h : 2 ^ 53 < i.natAbs) :
    0 < i ∧ 2 ^ 53 ≤ truncate (ofInteger i) ∨ i < 0 ∧ truncate (ofInteger i) ≤ -2 ^ 53 := by
  cases i with
  | ofNat n =>
    exact .inl ⟨Int.natCast_pos.2 (Nat.lt_trans (Nat.two_pow_pos 53) h), (truncate_ofNat_long (Nat.le_of_lt h)).1⟩
  | negSucc n => exact .inr ⟨Int.negSucc_lt_zero n, (truncate_ofNat_long (n := n + 1) (Nat.le_of_lt h)).2⟩

/-- The integer of not-a-number is zero, and zero is a number. -/
theorem not_isNaN_ofInteger (i : Int) : (ofInteger i).isNaN = false := by
  cases hnan : (ofInteger i).isNaN with
  | false => rfl
  | true =>
    have hunpack : (ofInteger i).toModel.unpack = .notANumber := by
      have hnan : (ofInteger i).toModel.unpack.isNaN = true := hnan
      cases hu : (ofInteger i).toModel.unpack <;> rw [hu] at hnan <;> first | rfl | cases hnan
    have hzero : truncate (ofInteger i) = 0 := by
      rw [truncate, hunpack]
      decide
    rcases Nat.lt_or_ge (2 ^ 53) i.natAbs with hlong | hexact
    · rcases truncate_ofInteger_of_long hlong with ⟨-, hfar⟩ | ⟨-, hfar⟩ <;> omega
    · rw [truncate_ofInteger hexact] at hzero
      subst hzero
      revert hnan
      decide +kernel

end ExprLang.Number
