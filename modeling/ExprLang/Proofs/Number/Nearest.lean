import ExprLang.Number.Shortest
import ExprLang.Proofs.Number.Exact
import Mathlib.Algebra.Order.Field.Power
import Mathlib.Algebra.Order.Field.Rat
import Mathlib.Tactic.FieldSimp
import Mathlib.Tactic.Linarith
import Mathlib.Tactic.NormNum
import Mathlib.Tactic.Positivity

/-!
# Rounding to the nearest number

A result of arithmetic is rounded by its significand with a round bit and a sticky bit, which tell how the fraction compares with a
half (`Locates`). Shifts keep this, so a rational number is rounded to the number in whose interval it lies (`RoundsTo`), whatever
digits it was given by (`roundWithAccuracy_eq`).
-/

namespace ExprLang.Number

open Float.Model (UnpackedFloat Format totalExponent)
open Float.Model.UnpackedFloat

/-! ## Significands with two more bits -/

/-- What a significand and its two bits tell about a number: the whole part, and how the fraction compares with a half. -/
inductive Locates : ExtendedMantissa → ℚ → Prop
  | whole (n : Nat) : Locates ⟨n, false, false⟩ n
  | below {n : Nat} {u : ℚ} (hlow : n < u) (hhigh : u < n + 1 / 2) : Locates ⟨n, false, true⟩ u
  | half (n : Nat) : Locates ⟨n, true, false⟩ (n + 1 / 2)
  | above {n : Nat} {u : ℚ} (hlow : n + 1 / 2 < u) (hhigh : u < n + 1) : Locates ⟨n, true, true⟩ u

namespace Locates

variable {x : ExtendedMantissa} {u : ℚ}

theorem bounds (h : Locates x u) : (x.mantissa : ℚ) ≤ u ∧ u < x.mantissa + 1 := by
  cases h with
  | whole n | half n => constructor <;> linarith
  | below hlow hhigh | above hlow hhigh => exact ⟨by linarith, by linarith⟩

/-- A shift by one place moves the last bit of the significand behind it. -/
theorem shiftRightOne (h : Locates x u) : Locates x.shiftRightOne (u / 2) := by
  have heven : ∀ (q : Nat) (r s : Bool), ExtendedMantissa.shiftRightOne ⟨2 * q, r, s⟩ = ⟨q, false, r || s⟩ := fun q r s => by
    simp [ExtendedMantissa.shiftRightOne]
  have hodd : ∀ (q : Nat) (r s : Bool), ExtendedMantissa.shiftRightOne ⟨2 * q + 1, r, s⟩ = ⟨q, true, r || s⟩ := fun q r s => by
    simp [ExtendedMantissa.shiftRightOne]
    omega
  cases h with
  | whole n =>
    obtain ⟨q, rfl | rfl⟩ := Nat.even_or_odd' n
    · rw [heven, show ((2 * q : Nat) : ℚ) / 2 = q by push_cast; ring]
      exact whole q
    · rw [hodd, show ((2 * q + 1 : Nat) : ℚ) / 2 = q + 1 / 2 by push_cast; ring]
      exact half q
  | half n =>
    obtain ⟨q, rfl | rfl⟩ := Nat.even_or_odd' n
    · rw [heven]
      exact below (by push_cast; linarith) (by push_cast; linarith)
    · rw [hodd]
      exact above (by push_cast; linarith) (by push_cast; linarith)
  | @below n u hlow hhigh | @above n u hlow hhigh =>
    obtain ⟨q, rfl | rfl⟩ := Nat.even_or_odd' n
    · rw [heven]
      push_cast at hlow hhigh
      exact below (by linarith) (by linarith)
    · rw [hodd]
      push_cast at hlow hhigh
      exact above (by linarith) (by linarith)

theorem shiftRight (h : Locates x u) (k : Nat) : Locates (x >>> k) (u / 2 ^ k) := by
  show Locates (k.repeat ExtendedMantissa.shiftRightOne x) _
  induction k with
  | zero => simpa [Nat.repeat] using h
  | succ k ih =>
    rw [pow_succ, ← div_div]
    exact ih.shiftRightOne

/-- A number is rounded to an integer no more than a half away, to an odd one only if it is closer. -/
theorem roundedMantissa (h : Locates x u) {m : Nat} (hlow : (m : ℚ) - 1 / 2 ≤ u) (hhigh : u ≤ m + 1 / 2)
    (hodd : m % 2 = 1 → (m : ℚ) - 1 / 2 < u ∧ u < m + 1 / 2) : x.roundedMantissa = m := by
  have hle : ∀ {a b : Nat}, (a : ℚ) < b + 1 → a ≤ b := fun hab => Nat.lt_succ_iff.1 (by exact_mod_cast hab)
  cases h with
  | whole n | @below n u hbelow habove =>
    show n = m
    exact Nat.le_antisymm (hle (by linarith)) (hle (by linarith))
  | half n =>
    -- a tie: the integers below and above are as far away, and the even one is taken
    have hdown : n ≤ m := hle (by linarith)
    have hup : m ≤ n + 1 := hle (by push_cast; linarith)
    have heven : m % 2 = 0 := by
      by_contra hne
      obtain ⟨hlow, hhigh⟩ := hodd (by omega)
      obtain rfl | rfl : m = n ∨ m = n + 1 := by omega
      · linarith
      · push_cast at hlow
        linarith
    show n + n % 2 = m
    omega
  | @above n u hbelow habove =>
    have hup : n < m := by
      have hlt : (n : ℚ) < m := by linarith
      exact_mod_cast hlt
    show n + 1 = m
    exact Nat.le_antisymm hup (hle (by push_cast; linarith))

end Locates

/-! ## Numbers and their intervals -/

/-- The significand and the exponent of a number other than zero: full width, or the least exponent. -/
def Canonical (m : Nat) (e : Int) : Prop := -1074 ≤ e ∧ m.log2 = 52 ∨ e = -1074 ∧ 0 < m ∧ m < 2 ^ 52

theorem Canonical.pos {m : Nat} {e : Int} (h : Canonical m e) : 0 < m := by
  rcases h with ⟨-, hm⟩ | ⟨-, hpos, -⟩
  · exact Nat.pos_of_ne_zero (ne_zero_of_log2 hm)
  · exact hpos

theorem Canonical.least_le {m : Nat} {e : Int} (h : Canonical m e) : -1074 ≤ e := by
  rcases h with ⟨he, -⟩ | ⟨he, -⟩ <;> omega

theorem Canonical.log2_le {m : Nat} {e : Int} (h : Canonical m e) : m.log2 ≤ 52 := by
  rcases h with ⟨-, hm⟩ | ⟨-, hpos, hm⟩
  · exact hm.le
  · exact ((Nat.log2_lt hpos.ne').2 hm).le

/-- A rational number is nearest to `m * 2 ^ e` among all numbers, or as near as to a neighbour with an odd significand. The
neighbour below a power of two is half as far away. -/
structure RoundsTo (m : Nat) (e : Int) (v : ℚ) : Prop where
  lower : (m : ℚ) - 1 / 2 ≤ v / 2 ^ e
  upper : v / 2 ^ e ≤ m + 1 / 2
  odd : m % 2 = 1 → (m : ℚ) - 1 / 2 < v / 2 ^ e ∧ v / 2 ^ e < m + 1 / 2
  edge : m = leastSignificand → -1074 < e → (m : ℚ) - 1 / 4 ≤ v / 2 ^ e

theorem RoundsTo.self (m : Nat) (e : Int) : RoundsTo m e (m * 2 ^ e) := by
  have hself : (m : ℚ) * 2 ^ e / 2 ^ e = m := mul_div_cancel_right₀ _ (zpow_ne_zero e two_ne_zero)
  constructor <;> rw [hself]
  · linarith
  · linarith
  · exact fun _ => ⟨by linarith, by linarith⟩
  · exact fun _ _ => by linarith

section

variable {v : ℚ} {e : Int} (k : Nat)

theorem div_zpow_lt_iff : v / 2 ^ e < 2 ^ k ↔ v < 2 ^ ((k : Int) + e) := by
  rw [div_lt_iff₀ (zpow_pos two_pos e), zpow_add₀ two_ne_zero, zpow_natCast]

theorem le_div_zpow_iff : 2 ^ k ≤ v / 2 ^ e ↔ (2 : ℚ) ^ ((k : Int) + e) ≤ v := by
  rw [le_div_iff₀ (zpow_pos two_pos e), zpow_add₀ two_ne_zero, zpow_natCast]

end

/-! ## Exponents -/

section

variable {n : Nat} {j : Int} {v : ℚ} (hn : (n : ℚ) ≤ v / 2 ^ j) (hn' : v / 2 ^ j < n + 1)

include hn in
/-- The digits of a significand that is not zero bound the number from below. -/
theorem totalExponent_le {k : Int} (h0 : n ≠ 0) (hv : v < 2 ^ k) : totalExponent n j ≤ k := by
  have hlow : (2 : ℚ) ^ n.log2 ≤ n := by exact_mod_cast Nat.log2_self_le h0
  have hv' := ((le_div_zpow_iff n.log2).1 (hlow.trans hn)).trans_lt hv
  have hlt := (zpow_lt_zpow_iff_right₀ (one_lt_two : (1 : ℚ) < 2)).1 hv'
  rw [totalExponent]
  omega

include hn' in
theorem lt_totalExponent {k : Int} (hv : 2 ^ k ≤ v) : k < totalExponent n j := by
  have hhigh : (n : ℚ) + 1 ≤ 2 ^ (n.log2 + 1) := by exact_mod_cast Nat.lt_log2_self
  have hv' := hv.trans_lt ((div_zpow_lt_iff (n.log2 + 1)).1 (hn'.trans_le hhigh))
  have hlt := (zpow_lt_zpow_iff_right₀ (one_lt_two : (1 : ℚ) < 2)).1 hv'
  rw [totalExponent]
  push_cast at hlt
  exact hlt

include hn in
/-- Below the full width the exponent is the least one. -/
theorem targetExponent_least {m : Nat} (hv : RoundsTo m (-1074) v) (h0 : n ≠ 0) (hm : m < 2 ^ 52) :
    Format.binary64.targetExponent (totalExponent n j) = -1074 := by
  have hbelow : v / 2 ^ (-1074 : Int) < 2 ^ 52 := by
    have hm : (m : ℚ) + 1 ≤ 2 ^ 52 := by exact_mod_cast hm
    have hupper := hv.upper
    linarith
  have hupper := totalExponent_le hn h0 ((div_zpow_lt_iff 52).1 hbelow)
  rw [targetExponent_binary64]
  push_cast at hupper
  omega

include hn hn' in
/-- At the full width it is the exponent of the number, or below a power of two one less. -/
theorem targetExponent_full {m : Nat} {e : Int} (hv : RoundsTo m e v) (h0 : n ≠ 0) (he : -1074 ≤ e) (hm : m.log2 = 52) :
    Format.binary64.targetExponent (totalExponent n j) = e ∨
      Format.binary64.targetExponent (totalExponent n j) = e - 1 ∧ m = leastSignificand ∧ -1074 < e ∧ v / 2 ^ e < m := by
  rw [targetExponent_binary64]
  obtain ⟨hlow, hhigh⟩ := (Nat.log2_eq_iff (ne_zero_of_log2 hm)).1 hm
  have hbelow : v / 2 ^ e < 2 ^ 53 := by
    have hhigh : (m : ℚ) + 1 ≤ 2 ^ 53 := by exact_mod_cast hhigh
    have hupper := hv.upper
    linarith
  have hupper := totalExponent_le hn h0 ((div_zpow_lt_iff 53).1 hbelow)
  push_cast at hupper
  by_cases hbinade : (2 : ℚ) ^ 52 ≤ v / 2 ^ e
  · have hlower := lt_totalExponent hn' ((le_div_zpow_iff 52).1 hbinade)
    left
    push_cast at hlower
    omega
  have hbinade := not_le.1 hbinade
  have hless := totalExponent_le hn h0 ((div_zpow_lt_iff 52).1 hbinade)
  push_cast at hless
  by_cases hleast : e = -1074
  · left
    omega
  · -- the number is below the power of two, but no further than a quarter
    have hedge : m = leastSignificand := by
      have hlt : (m : ℚ) < 2 ^ 52 + 1 := by
        have hlower := hv.lower
        linarith
      have hle : m < 2 ^ 52 + 1 := by exact_mod_cast hlt
      show m = 2 ^ 52
      omega
    have hm : (m : ℚ) = 2 ^ 52 := by
      rw [hedge]
      norm_num [leastSignificand]
    have hquarter : (2 : ℚ) ^ 51 ≤ v / 2 ^ e := by
      have hquarter := hv.edge hedge (by omega)
      rw [hm] at hquarter
      norm_num at hquarter ⊢
      linarith
    have hlower := lt_totalExponent hn' ((le_div_zpow_iff 51).1 hquarter)
    push_cast at hlower
    exact .inr ⟨by omega, hedge, by omega, by rwa [hm]⟩

omit hn hn' in
/-- Less than the last digit of the least exponent is in the interval of a number only at that exponent. -/
theorem eq_least_of_lt {m : Nat} {e : Int} (hc : Canonical m e) (hv : RoundsTo m e v) (hsmall : v < 2 ^ (-1074 : Int)) :
    e = -1074 := by
  rcases hc with ⟨he, hm⟩ | ⟨he, -⟩
  · by_contra hne
    have hone : (2 : ℚ) ^ 0 ≤ v / 2 ^ e := by
      have hlow : 2 ≤ m := Nat.le_trans (by decide) ((Nat.log2_eq_iff (ne_zero_of_log2 hm)).1 hm).1
      have hlow : (2 : ℚ) ≤ m := by exact_mod_cast hlow
      have hlower := hv.lower
      rw [pow_zero]
      linarith
    have hlarge := (le_div_zpow_iff 0).1 hone
    rw [Nat.cast_zero, zero_add] at hlarge
    have hlt := (zpow_lt_zpow_iff_right₀ (one_lt_two : (1 : ℚ) < 2)).1 (hlarge.trans_lt hsmall)
    omega
  · exact he

include hn hn' in
/-- A number in the interval of another one is rounded at its exponent, or below a power of two at one less. -/
theorem targetExponent_of_roundsTo {m : Nat} {e : Int} (hc : Canonical m e) (hv : RoundsTo m e v) (hj : 52 ≤ n.log2 ∨ j ≤ -1074) :
    Format.binary64.targetExponent (totalExponent n j) = e ∨
      Format.binary64.targetExponent (totalExponent n j) = e - 1 ∧ m = leastSignificand ∧ -1074 < e ∧ v / 2 ^ e < m := by
  by_cases h0 : n = 0
  · subst h0
    have hj : j ≤ -1074 := hj.resolve_left (by decide)
    have hsmall : v < 2 ^ (-1074 : Int) := by
      have hlt := (div_zpow_lt_iff (e := j) (v := v) 0).1 (by simpa using hn')
      rw [Nat.cast_zero, zero_add] at hlt
      exact hlt.trans_le (zpow_le_zpow_right₀ one_le_two hj)
    have he := eq_least_of_lt hc hv hsmall
    left
    have hlog : (Nat.log2 0 : Int) = 0 := by decide
    rw [targetExponent_binary64, totalExponent, hlog]
    omega
  rcases hc with ⟨he, hm⟩ | ⟨rfl, -, hm⟩
  · exact targetExponent_full hn hn' hv h0 he hm
  · exact .inl (targetExponent_least hn hv h0 hm)

end

/-! ## Rounding -/

/-- The first shift goes to the target exponent and keeps what the digits tell. -/
theorem shiftToTargetExponent_locates {n : Nat} {j : Int} {a : Accuracy} {v : ℚ}
    (h : Locates (.ofMantissaAndAccuracy n a) (v / 2 ^ j)) (hj : 52 ≤ n.log2 ∨ j ≤ -1074) :
    ∃ x, shiftToTargetExponent .binary64 n j a = (x, Format.binary64.targetExponent (totalExponent n j)) ∧
      Locates x (v / 2 ^ Format.binary64.targetExponent (totalExponent n j)) := by
  obtain ⟨k, hk⟩ : ∃ k : Nat, Format.binary64.targetExponent (totalExponent n j) = j + k := by
    refine ⟨(Format.binary64.targetExponent (totalExponent n j) - j).toNat, ?_⟩
    rw [targetExponent_binary64, totalExponent]
    omega
  refine ⟨ExtendedMantissa.ofMantissaAndAccuracy n a >>> k, ?_, ?_⟩
  · have hshift : (j + k - j).toNat = k := by omega
    rw [shiftToTargetExponent, hk]
    simp only [shiftToExponent, hshift]
  · have hdiv : v / 2 ^ (j + k) = v / 2 ^ j / 2 ^ k := by rw [zpow_add₀ two_ne_zero, zpow_natCast, div_div]
    rw [hk, hdiv]
    exact h.shiftRight k

/-- A significand below full width stays at the least exponent. -/
theorem roundWithAccuracy_of_shift_least {m n : Nat} {i : Int} {a : Accuracy} {x : ExtendedMantissa} (s : Sign) (hpos : 0 < m)
    (hm : m < 2 ^ 52) (hshift : shiftToTargetExponent .binary64 n i a = (x, -1074)) (hround : x.roundedMantissa = m) :
    roundWithAccuracy .binary64 s n i a = .finite s m (-1074) hpos := by
  have hlog : m.log2 < 52 := (Nat.log2_lt hpos.ne').2 hm
  have hagain : shiftToTargetExponent .binary64 m (-1074) .exact = (⟨m, false, false⟩, -1074) := by
    have htarget : Format.binary64.targetExponent (totalExponent m (-1074)) = -1074 := by
      rw [targetExponent_binary64, totalExponent]
      omega
    rw [shiftToTargetExponent, htarget]
    rfl
  unfold roundWithAccuracy
  rw [hshift]
  dsimp only
  rw [hround, hagain]
  exact dif_neg hpos.ne'

section

variable {m n : Nat} {e j : Int} {v : ℚ} {a : Accuracy} {x : ExtendedMantissa} (hv : RoundsTo m e v) (s : Sign)

include hv

/-- At the exponent of the number the digits are rounded to its significand. -/
theorem roundWithAccuracy_same (hc : Canonical m e) (hshift : shiftToTargetExponent .binary64 n j a = (x, e))
    (hx : Locates x (v / 2 ^ e)) : roundWithAccuracy .binary64 s n j a = .finite s m e hc.pos := by
  have hround := hx.roundedMantissa hv.lower hv.upper hv.odd
  rcases hc with ⟨he, hm⟩ | ⟨rfl, hpos, hm⟩
  · have hresult := roundWithAccuracy_of_shift hm (j := 0) s hshift (hround.trans (Nat.mul_one m).symm) he
    rw [Nat.cast_zero] at hresult
    rw [hresult]
    congr 1
    omega
  · exact roundWithAccuracy_of_shift_least s hpos hm hshift hround

/-- Below a power of two the digits are one more, and rounding up carries to the first of them. -/
theorem roundWithAccuracy_carried (hc : Canonical m e) (hedge : m = leastSignificand) (he : -1074 < e) (hless : v / 2 ^ e < m)
    (hshift : shiftToTargetExponent .binary64 n j a = (x, e - 1)) (hx : Locates x (v / 2 ^ (e - 1))) :
    roundWithAccuracy .binary64 s n j a = .finite s m e hc.pos := by
  have hm : m.log2 = 52 := by
    rw [hedge]
    decide
  have htwice : v / 2 ^ (e - 1) = 2 * (v / 2 ^ e) := by
    rw [zpow_sub_one₀ two_ne_zero]
    field_simp
  have hquarter := hv.edge hedge he
  rw [htwice] at hx
  have hround : x.roundedMantissa = m * 2 ^ 1 :=
    hx.roundedMantissa (by push_cast; linarith) (by push_cast; linarith) (by omega)
  rw [roundWithAccuracy_of_shift hm (j := 1) s hshift hround (by omega)]
  congr 1
  omega

/-- A number is rounded to the one in whose interval it lies. -/
theorem roundWithAccuracy_eq (hc : Canonical m e) (h : Locates (.ofMantissaAndAccuracy n a) (v / 2 ^ j))
    (hj : 52 ≤ n.log2 ∨ j ≤ -1074) : roundWithAccuracy .binary64 s n j a = .finite s m e hc.pos := by
  have hbounds : (n : ℚ) ≤ v / 2 ^ j ∧ v / 2 ^ j < n + 1 := by
    have hmantissa : (ExtendedMantissa.ofMantissaAndAccuracy n a).mantissa = n := by
      cases a with
      | exact => rfl
      | inexact o => cases o <;> rfl
    rw [← hmantissa]
    exact h.bounds
  obtain ⟨x, hshift, hx⟩ := shiftToTargetExponent_locates h hj
  rcases targetExponent_of_roundsTo hbounds.1 hbounds.2 hc hv hj with htarget | ⟨htarget, hedge, he, hless⟩
  · rw [htarget] at hshift hx
    exact roundWithAccuracy_same hv s hc hshift hx
  · rw [htarget] at hshift hx
    exact roundWithAccuracy_carried hv s hc hedge he hless hshift hx

end

end ExprLang.Number
