import ExprLang.Proofs.Number.Decimals
import ExprLang.Proofs.Number.Order
import ExprLang.Proofs.Number.Printed
import ExprLang.Proofs.Number.Whole

/-!
# The distance to the nearest whole number

A number is written as the whole number nearest to it if its distance is small enough. That distance is a difference of numbers
which are close together, so its digits are few and it is not rounded (`magnitude_sub`): the text depends on the distance itself
(`near_iff`).
-/

namespace ExprLang.Number

open Float.Model (UnpackedFloat Format totalExponent)
open Float.Model.UnpackedFloat

/-! ## Magnitudes -/

/-- The distance of a finite number from zero. -/
def magnitude (x : Float) : ℚ :=
  match x.toModel.unpack with
  | .finite _ m e _ => m * 2 ^ e
  | _ => 0

variable {x y : Float}

theorem magnitude_of_unpack {s : Sign} {m : Nat} {e : Int} {h : 0 < m} (hx : x.toModel.unpack = .finite s m e h) :
    magnitude x = m * 2 ^ e := by
  rw [magnitude, hx]

theorem magnitude_of_zero {s : Sign} (hx : x.toModel.unpack = .zero s) : magnitude x = 0 := by
  rw [magnitude, hx]

theorem unpack_abs (hx : x.isFinite = true) : x.abs.toModel.unpack = withSign .positive x.toModel.unpack := by
  show unpack .binary64 (bits x.abs) = _
  rw [bits_abs hx, unpack_signed]
  rfl

theorem unpack_abs_finite {s : Sign} {m : Nat} {e : Int} {h : 0 < m} (hx : x.toModel.unpack = .finite s m e h) :
    x.abs.toModel.unpack = .finite .positive m e h := by
  rw [unpack_abs (isFinite_of_unpack hx), hx]
  rfl

theorem lt_two_pow {m : Nat} {e : Int} (hc : Canonical m e) : (m : ℚ) < 2 ^ 53 := by
  exact_mod_cast (Nat.log2_lt hc.pos.ne').1 (Nat.lt_succ_of_le hc.log2_le)

theorem magnitude_abs (hx : x.isFinite = true) : magnitude x.abs = magnitude x := by
  rw [magnitude, magnitude, unpack_abs hx]
  cases x.toModel.unpack <;> rfl

/-- The last digit of a number that is at least a half. -/
theorem exponent_of_half_le {m : Nat} {e : Int} (hc : Canonical m e) (hhalf : (1 : ℚ) / 2 ≤ m * 2 ^ e) : -53 ≤ e := by
  by_contra hsmall
  have hdigits : (m : ℚ) * 2 ^ e < 2 ^ 53 * 2 ^ e := mul_lt_mul_of_pos_right (lt_two_pow hc) (zpow_pos two_pos e)
  have hlast : (2 : ℚ) ^ e ≤ 2 ^ (-54 : Int) := zpow_le_zpow_right₀ one_le_two (by omega)
  have hlast : (2 : ℚ) ^ 53 * 2 ^ e ≤ 2 ^ 53 * 2 ^ (-54 : Int) := mul_le_mul_of_nonneg_left hlast (by norm_num)
  rw [show (2 : ℚ) ^ 53 * 2 ^ (-54 : Int) = 1 / 2 by norm_num] at hlast
  exact absurd (hdigits.trans_le hlast) hhalf.not_gt

/-- Of two numbers the one with the greater exponent is greater. -/
theorem lt_of_exponent_lt {m n : Nat} {e f : Int} (hm : Canonical m e) (hn : Canonical n f) (h : e < f) :
    (m : ℚ) * 2 ^ e < n * 2 ^ f := by
  have hleast := hm.least_le
  have hhigh := lt_two_pow hm
  have hlow : (2 : ℚ) ^ 52 ≤ n := by
    rcases hn with ⟨-, hn⟩ | ⟨hf, -⟩
    · exact_mod_cast ((Nat.log2_eq_iff (ne_zero_of_log2 hn)).1 hn).1
    · omega
  calc (m : ℚ) * 2 ^ e < 2 ^ 53 * 2 ^ e := mul_lt_mul_of_pos_right hhigh (zpow_pos two_pos e)
    _ = 2 ^ 52 * 2 ^ (e + 1) := by rw [zpow_add_one₀ two_ne_zero]; ring
    _ ≤ 2 ^ 52 * 2 ^ f := mul_le_mul_of_nonneg_left (zpow_le_zpow_right₀ one_le_two h) (by norm_num)
    _ ≤ n * 2 ^ f := mul_le_mul_of_nonneg_right hlow (zpow_pos two_pos f).le

/-- So exponents and significands are compared as the numbers. -/
theorem compare_eq_lt_iff {m n : Nat} {e f : Int} (hm : Canonical m e) (hn : Canonical n f) :
    (compare e f).then (compare m n) = .lt ↔ (m : ℚ) * 2 ^ e < n * 2 ^ f := by
  rcases lt_trichotomy e f with hlt | rfl | hgt
  · rw [Std.compare_eq_lt.2 hlt]
    exact iff_of_true rfl (lt_of_exponent_lt hm hn hlt)
  · rw [Std.compare_self, mul_lt_mul_iff_of_pos_right (zpow_pos two_pos e), Nat.cast_lt]
    exact Nat.compare_eq_lt
  · rw [Std.compare_eq_gt.2 hgt]
    exact iff_of_false (fun h => by cases h) (lt_of_exponent_lt hn hm hgt).not_gt

/-- The absolute value of a finite number is compared with a positive one as their distances from zero. -/
theorem abs_lt_iff {n : Nat} {f : Int} {h : 0 < n} (hx : x.isFinite = true) (hy : y.toModel.unpack = .finite .positive n f h) :
    x.abs < y ↔ magnitude x < magnitude y := by
  rw [lt_iff, magnitude_of_unpack hy, unpack_abs hx, hy]
  have hfinite : x.toModel.unpack.isFinite = true := hx
  cases hu : x.toModel.unpack with
  | notANumber | infinity s =>
    rw [hu] at hfinite
    cases hfinite
  | zero s =>
    rw [magnitude_of_zero hu]
    have hpos : (0 : ℚ) < n := by exact_mod_cast h
    exact iff_of_true rfl (mul_pos hpos (zpow_pos two_pos f))
  | finite s m e hm =>
    rw [magnitude_of_unpack hu, ← compare_eq_lt_iff (canonical_of_unpack hu).1 (canonical_of_unpack hy).1]
    exact Option.some_inj

/-! ## Differences -/

/-- Few digits are not rounded. -/
theorem round_short {n : Nat} {i : Int} (s : Sign) (hpos : 0 < n) (hn : n < 2 ^ 53) (hi : -1074 ≤ i) :
    ∃ m e h, UnpackedFloat.round .binary64 s n i = .finite s m e h ∧ Canonical m e ∧ e ≤ i ∧ (m : ℚ) * 2 ^ e = n * 2 ^ i := by
  have hlog : n.log2 < 53 := (Nat.log2_lt hpos.ne').2 hn
  obtain ⟨t, ht⟩ : ∃ t, t = Format.binary64.targetExponent (totalExponent n i) := ⟨_, rfl⟩
  obtain ⟨k, hk⟩ : ∃ k : Nat, i = t + k := by
    refine ⟨(i - t).toNat, ?_⟩
    rw [targetExponent_binary64, totalExponent] at ht
    omega
  have hvalue : ((n * 2 ^ k : Nat) : ℚ) * 2 ^ t = n * 2 ^ i := by
    rw [hk, zpow_add₀ two_ne_zero, zpow_natCast]
    push_cast
    ring
  have hlength : (n * 2 ^ k).log2 = n.log2 + k := log2_mul_pow rfl hpos.ne' k
  have hcanonical : Canonical (n * 2 ^ k) t := by
    rw [targetExponent_binary64, totalExponent] at ht
    by_cases hfull : (n * 2 ^ k).log2 = 52
    · exact .inl ⟨by omega, hfull⟩
    · have hpos : 0 < n * 2 ^ k := Nat.mul_pos hpos (Nat.two_pow_pos k)
      exact .inr ⟨by omega, hpos, (Nat.log2_lt hpos.ne').1 (by omega)⟩
  refine ⟨n * 2 ^ k, t, hcanonical.pos, ?_, hcanonical, by omega, hvalue⟩
  have hround : UnpackedFloat.round .binary64 s n i = roundWithAccuracy .binary64 s (n * 2 ^ k) t .exact := by
    have hshift : (i - t).toNat = k := by omega
    have hexponent : i - k = t := by omega
    unfold UnpackedFloat.round
    simp only [← ht, decreaseExponent, hshift, hexponent, Nat.shiftLeft_eq]
  rw [hround]
  refine roundWithAccuracy_eq (.self _ _) s hcanonical ?_ ?_
  · rw [mul_div_cancel_right₀ _ (zpow_ne_zero t two_ne_zero)]
    exact .whole _
  · rw [targetExponent_binary64, totalExponent] at ht
    omega

theorem magnitude_normalize {d i : Int} (s : Sign) (hd : d.natAbs < 2 ^ 53) (hi : -1074 ≤ i) (hi' : i ≤ 971)
    (hx : x = Float.ofModel (Float.Model.pack (UnpackedFloat.normalize .binary64 d i s))) :
    x.isFinite = true ∧ magnitude x = |(d : ℚ)| * 2 ^ i := by
  have hround : ∀ (t : Sign) (n : Nat), 0 < n → n < 2 ^ 53 →
      UnpackedFloat.normalize .binary64 d i s = UnpackedFloat.round .binary64 t n i →
      x.isFinite = true ∧ magnitude x = n * 2 ^ i := by
    intro t n hpos hn hnormalize
    obtain ⟨m, e, h, hround, hc, he, hvalue⟩ := round_short t hpos hn hi
    have hunpack : x.toModel.unpack = .finite t m e h := by
      rw [hx, hnormalize, hround]
      exact unpack_pack_canonical t hc (by omega)
    exact ⟨isFinite_of_unpack hunpack, (magnitude_of_unpack hunpack).trans hvalue⟩
  have habs : |(d : ℚ)| = d.natAbs := by rw [Nat.cast_natAbs, Int.cast_abs]
  rw [habs]
  rcases lt_trichotomy d 0 with hneg | rfl | hpos
  · have hnormalize : UnpackedFloat.normalize .binary64 d i s = UnpackedFloat.round .binary64 .negative (-d).toNat i := by
      unfold UnpackedFloat.normalize
      rw [Std.compare_eq_lt.2 hneg]
    rw [show d.natAbs = (-d).toNat by omega]
    exact hround .negative (-d).toNat (by omega) (by omega) hnormalize
  · have hunpack : x.toModel.unpack = .zero s := by
      have hnormalize : UnpackedFloat.normalize .binary64 0 i s = .zero s := by
        unfold UnpackedFloat.normalize
        rw [Std.compare_self]
      rw [hx, hnormalize]
      cases s <;> rfl
    refine ⟨?_, ?_⟩
    · show x.toModel.unpack.isFinite = true
      rw [hunpack]
      rfl
    · rw [magnitude_of_zero hunpack]
      simp
  · have hnormalize : UnpackedFloat.normalize .binary64 d i s = UnpackedFloat.round .binary64 .positive d.toNat i := by
      unfold UnpackedFloat.normalize
      rw [Std.compare_eq_gt.2 hpos]
    rw [show d.natAbs = d.toNat by omega]
    exact hround .positive d.toNat (by omega) (by omega) hnormalize

theorem shift_value (m : Nat) {e i : Int} (h : i ≤ e) : ((m <<< (e - i).toNat : Nat) : ℚ) * 2 ^ i = m * 2 ^ e := by
  have hpower : (2 : ℚ) ^ e = 2 ^ (e - i).toNat * 2 ^ i := by
    rw [← zpow_natCast, ← zpow_add₀ two_ne_zero]
    congr 1
    omega
  rw [Nat.shiftLeft_eq, hpower]
  push_cast
  ring

/-- A difference with few digits is not rounded. -/
theorem magnitude_sub {m n : Nat} {e f : Int} {hm : 0 < m} {hn : 0 < n} (hx : x.toModel.unpack = .finite .positive m e hm)
    (hy : y.toModel.unpack = .finite .positive n f hn) (hshort : |(m : ℚ) * 2 ^ e - (n : ℚ) * 2 ^ f| < 2 ^ 53 * 2 ^ min e f) :
    (x - y).isFinite = true ∧ magnitude (x - y) = |(m : ℚ) * 2 ^ e - (n : ℚ) * 2 ^ f| := by
  obtain ⟨hce, he⟩ := canonical_of_unpack hx
  obtain ⟨hcf, hf⟩ := canonical_of_unpack hy
  have he' := hce.least_le
  have hf' := hcf.least_le
  have hm := shift_value m (min_le_left e f)
  have hn := shift_value n (min_le_right e f)
  have hsub : x - y = Float.ofModel (Float.Model.pack (UnpackedFloat.normalize .binary64
      ((m <<< (e - min e f).toNat : Nat) - (n <<< (f - min e f).toNat : Nat)) (min e f) .positive)) := by
    show Float.ofModel (Float.Model.pack (sub .binary64 x.toModel.unpack y.toModel.unpack)) = _
    rw [hx, hy]
    rfl
  generalize m <<< (e - min e f).toNat = a at hm hsub
  generalize n <<< (f - min e f).toNat = b at hn hsub
  have hpos : (0 : ℚ) < 2 ^ min e f := zpow_pos two_pos _
  have hdistance : |(m : ℚ) * 2 ^ e - (n : ℚ) * 2 ^ f| = |((a - b : Int) : ℚ)| * 2 ^ min e f := by
    rw [← hm, ← hn, ← sub_mul, abs_mul, abs_of_pos hpos]
    push_cast
    rfl
  have hfew : ((a : Int) - b).natAbs < 2 ^ 53 := by
    rw [hdistance, mul_lt_mul_iff_of_pos_right hpos, ← Int.cast_abs, ← Nat.cast_natAbs] at hshort
    exact_mod_cast hshort
  rw [hdistance]
  exact magnitude_normalize .positive hfew (by omega) (by omega) hsub

/-! ## Whole numbers -/

/-- The whole number is the nearest one, a half going up. -/
theorem nearestWhole_bounds (m : Nat) (e : Int) :
    (nearestWhole m e : ℚ) - 1 / 2 ≤ m * 2 ^ e ∧ (m : ℚ) * 2 ^ e < nearestWhole m e + 1 / 2 := by
  have htwo := power_eq (b := 2) (by decide) e
  have hscale : (0 : ℚ) < power 2 (-e) := power_pos (by decide) _
  have hpos : 0 < 2 * power 2 (-e) := Nat.mul_pos (by decide) (Nat.pow_pos (by decide))
  obtain ⟨w, hw⟩ : ∃ w, w = nearestWhole m e := ⟨_, rfl⟩
  have hlow : w * (2 * power 2 (-e)) ≤ 2 * m * power 2 e + power 2 (-e) := by
    rw [hw]
    exact Nat.div_mul_le_self _ _
  have hhigh : 2 * m * power 2 e + power 2 (-e) < (w + 1) * (2 * power 2 (-e)) := by
    rw [hw]
    exact (Nat.div_lt_iff_lt_mul hpos).1 (Nat.lt_succ_self _)
  have hlow : (w : ℚ) * (2 * power 2 (-e)) ≤ 2 * m * power 2 e + power 2 (-e) := by exact_mod_cast hlow
  have hhigh : 2 * (m : ℚ) * power 2 e + power 2 (-e) < (w + 1) * (2 * power 2 (-e)) := by exact_mod_cast hhigh
  rw [htwo] at hlow hhigh
  rw [← hw]
  push_cast at hlow hhigh
  constructor
  · refine le_of_mul_le_mul_right ?_ hscale
    linarith
  · refine lt_of_mul_lt_mul_right ?_ hscale.le
    linarith

/-- It is no longer than a significand, or is the number itself. -/
theorem nearestWhole_cases {m : Nat} {e : Int} (hc : Canonical m e) :
    (nearestWhole m e : ℚ) = m * 2 ^ e ∨ nearestWhole m e < 2 ^ 53 ∧ e < 0 := by
  obtain ⟨hlow, hhigh⟩ := nearestWhole_bounds m e
  rcases lt_or_ge e 0 with hneg | hwhole
  · right
    refine ⟨?_, hneg⟩
    have hm := lt_two_pow hc
    have hhalf : (2 : ℚ) ^ e ≤ 2 ^ (-1 : Int) := zpow_le_zpow_right₀ one_le_two (by omega)
    have hhalf : (m : ℚ) * 2 ^ e ≤ m * 2 ^ (-1 : Int) := mul_le_mul_of_nonneg_left hhalf (Nat.cast_nonneg m)
    have hinverse : (2 : ℚ) ^ (-1 : Int) = 1 / 2 := by norm_num
    rw [hinverse] at hhalf
    have hlt : (nearestWhole m e : ℚ) < 2 ^ 53 := by linarith
    exact_mod_cast hlt
  · left
    obtain ⟨k, rfl⟩ := Int.eq_ofNat_of_zero_le hwhole
    rw [zpow_natCast] at hlow hhigh ⊢
    have hle : (nearestWhole m k : ℚ) < (m * 2 ^ k : Nat) + 1 := by
      push_cast
      linarith
    have hge : ((m * 2 ^ k : Nat) : ℚ) < nearestWhole m k + 1 := by
      push_cast
      linarith
    have hle : nearestWhole m k < m * 2 ^ k + 1 := by exact_mod_cast hle
    have hge : m * 2 ^ k < nearestWhole m k + 1 := by exact_mod_cast hge
    have heq : nearestWhole m k = m * 2 ^ k := by omega
    rw [heq]
    push_cast
    rfl

/-- A whole number that is a number is rounded to it. -/
theorem ofNat_eq {m : Nat} {e : Int} {h : 0 < m} (hx : x.toModel.unpack = .finite .positive m e h) {w : Nat}
    (hw : (w : ℚ) = m * 2 ^ e) : Float.ofNat w = x := by
  have hround : RoundsTo m e (w * 10 ^ (0 : Int)) := by
    rw [zpow_zero, mul_one, hw]
    exact .self m e
  exact ofScientific_eq hx hround (by decide)

section

variable {s : Sign} {m : Nat} {e : Int} {h : 0 < m} (hx : x.toModel.unpack = .finite s m e h)

include hx

/-- The distance to the nearest whole number is computed without rounding. -/
theorem magnitude_distance : (x.abs - ofInteger (nearestWhole m e)).isFinite = true ∧
    magnitude (x.abs - ofInteger (nearestWhole m e)) = |magnitude x - nearestWhole m e| := by
  have habs := unpack_abs_finite hx
  have hfinite := isFinite_of_unpack habs
  obtain ⟨hlow, hhigh⟩ := nearestWhole_bounds m e
  rw [magnitude_of_unpack hx]
  show (x.abs - Float.ofNat (nearestWhole m e)).isFinite = true ∧ magnitude (x.abs - Float.ofNat (nearestWhole m e)) = _
  rcases nearestWhole_cases (canonical_of_unpack hx).1 with hwhole | ⟨hshort, -⟩
  · rw [ofNat_eq habs hwhole, sub_self_of_isFinite hfinite, hwhole, sub_self, abs_zero]
    exact ⟨by decide +kernel, magnitude_of_zero (s := .positive) rfl⟩
  · generalize nearestWhole m e = w at *
    by_cases hzero : w = 0
    · have hself : x.abs - Float.ofNat 0 = x.abs := by
        show Float.ofModel (Float.Model.pack (sub .binary64 x.abs.toModel.unpack (.zero .positive))) = _
        rw [habs]
        exact ofModel_pack_finite habs rfl
      have hpos : 0 ≤ (m : ℚ) * 2 ^ e := mul_nonneg (Nat.cast_nonneg m) (zpow_pos two_pos e).le
      rw [hzero, hself, Nat.cast_zero, sub_zero, abs_of_nonneg hpos, magnitude_of_unpack habs]
      exact ⟨hfinite, rfl⟩
    · obtain ⟨k, hfull, hk⟩ := exists_full hzero hshort
      have hsub := magnitude_sub habs (unpack_ofNat hshort hfull hk)
      rw [full_value] at hsub
      have hhalf : (1 : ℚ) / 2 ≤ m * 2 ^ e := by
        have hone : (1 : ℚ) ≤ w := by exact_mod_cast Nat.pos_of_ne_zero hzero
        linarith
      have he := exponent_of_half_le (canonical_of_unpack hx).1 hhalf
      have hshort : |(m : ℚ) * 2 ^ e - w| < 2 ^ 53 * 2 ^ min e (-(k : Int)) := calc
        |(m : ℚ) * 2 ^ e - w| ≤ 1 / 2 := abs_le.2 ⟨by linarith, by linarith⟩
        _ < 2 ^ 53 * 2 ^ (-53 : Int) := by norm_num
        _ ≤ 2 ^ 53 * 2 ^ min e (-(k : Int)) :=
          mul_le_mul_of_nonneg_left (zpow_le_zpow_right₀ one_le_two (by omega)) (by norm_num)
      exact hsub hshort

/-- A number is written as the nearest whole number if it is less than a hundred-thousandth away. -/
theorem near_iff : (x.abs - ofInteger (nearestWhole m e)).abs < 0.00001 ↔
    |magnitude x - nearestWhole m e| < magnitude 0.00001 := by
  obtain ⟨hfinite, hdistance⟩ := magnitude_distance hx
  have hbound : ∃ h, (0.00001 : Float).toModel.unpack = .finite .positive 5902958103587057 (-69) h := ⟨by decide, rfl⟩
  obtain ⟨hpos, hbound⟩ := hbound
  rw [abs_lt_iff hfinite hbound, hdistance]

end

end ExprLang.Number
