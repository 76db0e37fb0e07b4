import ExprLang.Proofs.Number.Nearest

/-!
# Reading decimals

A decimal is read as a product or a quotient with a power of ten, whose significand is rounded once. Short ones take the power from
a table, where it is exact (`unpack_powerOfTen`), and others compute it as an integer. Both ways the result is the number in whose
interval the decimal lies (`ofScientific_eq`).
-/

namespace ExprLang.Number

open Float.Model (UnpackedFloat Format totalExponent)
open Float.Model.UnpackedFloat

/-! ## Products and quotients -/

/-- What a division leaves over tells where the quotient lies. -/
theorem locates_fraction (n : Nat) {d : Nat} (hd : 0 < d) :
    Locates (.ofMantissaAndAccuracy (n / d) (accuracyOfFraction (n % d) d)) ((n : ℚ) / d) := by
  have hpos : (0 : ℚ) < d := by exact_mod_cast hd
  have hsplit : (n : ℚ) / d = (n / d : Nat) + ((n % d : Nat) : ℚ) / d := by
    have hsum : (d : ℚ) * (n / d : Nat) + (n % d : Nat) = n := by exact_mod_cast Nat.div_add_mod n d
    field_simp
    linarith
  have hlt : ((n % d : Nat) : ℚ) / d < 1 := (div_lt_one hpos).2 (by exact_mod_cast Nat.mod_lt n hd)
  have hnonneg : 0 ≤ ((n % d : Nat) : ℚ) / d := div_nonneg (Nat.cast_nonneg _) hpos.le
  rw [hsplit]
  unfold accuracyOfFraction
  by_cases hzero : n % d = 0
  · rw [if_pos hzero, hzero, Nat.cast_zero, zero_div, add_zero]
    exact .whole _
  have hne : 0 < ((n % d : Nat) : ℚ) / d := div_pos (by exact_mod_cast Nat.pos_of_ne_zero hzero) hpos
  rw [if_neg hzero]
  cases hcompare : compare (2 * (n % d)) d with
  | lt =>
    have hhalf : ((n % d : Nat) : ℚ) * 2 < d := by exact_mod_cast Nat.mul_comm _ _ ▸ Nat.compare_eq_lt.1 hcompare
    have hhalf : ((n % d : Nat) : ℚ) / d < 1 / 2 := by
      rw [div_lt_div_iff₀ hpos two_pos]
      linarith
    exact .below (by linarith) (by linarith)
  | eq =>
    have hhalf : ((n % d : Nat) : ℚ) * 2 = d := by exact_mod_cast Nat.mul_comm _ _ ▸ Nat.compare_eq_eq.1 hcompare
    have hhalf : ((n % d : Nat) : ℚ) / d = 1 / 2 := by
      rw [div_eq_div_iff hpos.ne' two_ne_zero]
      linarith
    rw [hhalf]
    exact .half _
  | gt =>
    have hhalf : (d : ℚ) < (n % d : Nat) * 2 := by exact_mod_cast Nat.mul_comm _ _ ▸ Nat.compare_eq_gt.1 hcompare
    have hhalf : 1 / 2 < ((n % d : Nat) : ℚ) / d := by
      rw [div_lt_div_iff₀ two_pos hpos]
      linarith
    exact .above (by linarith) (by linarith)

section

variable {m : Nat} {e : Int} {v : ℚ} (hc : Canonical m e) (hv : RoundsTo m e v)
variable {s₁ s₂ : Sign} {m₁ m₂ : Nat} {e₁ e₂ : Int} {h₁ : 0 < m₁} {h₂ : 0 < m₂}

include hv in
/-- A product with enough digits is rounded once. -/
theorem mul_finite (hvalue : v = m₁ * 2 ^ e₁ * (m₂ * 2 ^ e₂)) (hlong : 2 ^ 52 ≤ m₁ * m₂) :
    mul .binary64 (.finite s₁ m₁ e₁ h₁) (.finite s₂ m₂ e₂ h₂) = .finite (s₁ * s₂) m e hc.pos := by
  have hproduct : v / 2 ^ (e₁ + e₂) = (m₁ * m₂ : Nat) := by
    rw [hvalue, zpow_add₀ two_ne_zero, div_eq_iff (mul_ne_zero (zpow_ne_zero _ two_ne_zero) (zpow_ne_zero _ two_ne_zero))]
    push_cast
    ring
  show roundWithAccuracy .binary64 (s₁ * s₂) (m₁ * m₂) (e₁ + e₂) .exact = _
  refine roundWithAccuracy_eq hv _ hc ?_ (.inl ((Nat.le_log2 (Nat.mul_pos h₁ h₂).ne').2 hlong))
  rw [hproduct]
  exact .whole _

/-- The digits of a quotient are enough, or they reach the least exponent. -/
theorem le_log2_quotient {t : Int} {k : Nat} (h₁ : 0 < m₁) (h₂ : 0 < m₂)
    (ht : t = min (e₁ - e₂) (Format.binary64.targetExponent (totalExponent m₁ e₁ - totalExponent m₂ e₂))) (hk : k = e₁ - e₂ - t) :
    52 ≤ (m₁ <<< k / m₂).log2 ∨ t ≤ -1074 := by
  rw [targetExponent_binary64, totalExponent, totalExponent] at ht
  by_cases hleast : t ≤ -1074
  · exact .inr hleast
  left
  have hlow : 2 ^ (m₁.log2 + k) ≤ m₁ <<< k := by
    rw [Nat.shiftLeft_eq, Nat.pow_add]
    exact Nat.mul_le_mul_right _ (Nat.log2_self_le h₁.ne')
  have hhigh : 2 ^ 52 * m₂ ≤ 2 ^ (m₁.log2 + k) := calc
    2 ^ 52 * m₂ ≤ 2 ^ 52 * 2 ^ (m₂.log2 + 1) := Nat.mul_le_mul_left _ Nat.lt_log2_self.le
    _ = 2 ^ (m₂.log2 + 53) := by rw [← Nat.pow_add]; congr 1; omega
    _ ≤ 2 ^ (m₁.log2 + k) := Nat.pow_le_pow_right Nat.two_pos (by omega)
  have hquotient : 2 ^ 52 ≤ m₁ <<< k / m₂ := (Nat.le_div_iff_mul_le h₂).2 (hhigh.trans hlow)
  exact (Nat.le_log2 (by omega)).2 hquotient

include hv in
/-- A quotient is rounded once, with what its division leaves over. -/
theorem div_finite (hvalue : v = m₁ * 2 ^ e₁ / (m₂ * 2 ^ e₂)) :
    div .binary64 (.finite s₁ m₁ e₁ h₁) (.finite s₂ m₂ e₂ h₂) = .finite (s₁ / s₂) m e hc.pos := by
  obtain ⟨t, ht⟩ : ∃ t, t = min (e₁ - e₂) (Format.binary64.targetExponent (totalExponent m₁ e₁ - totalExponent m₂ e₂)) := ⟨_, rfl⟩
  obtain ⟨k, hk⟩ : ∃ k : Nat, (k : Int) = e₁ - e₂ - t := ⟨(e₁ - e₂ - t).toNat, by omega⟩
  have hcore : divCore .binary64 m₁ e₁ m₂ e₂ = (m₁ <<< k / m₂, t, accuracyOfFraction (m₁ <<< k % m₂) m₂) := by
    have hshift : (e₁ - e₂ - t).toNat = k := by omega
    unfold divCore
    dsimp only
    rw [← ht, hshift]
  have hquotient : v / 2 ^ t = ((m₁ <<< k : Nat) : ℚ) / m₂ := by
    have hpos : (m₂ : ℚ) ≠ 0 := by exact_mod_cast h₂.ne'
    have hpower : (2 : ℚ) ^ e₁ = 2 ^ e₂ * 2 ^ t * 2 ^ k := by
      rw [← zpow_add₀ two_ne_zero, ← zpow_natCast, ← zpow_add₀ two_ne_zero]
      congr 1
      omega
    have hne₂ : (2 : ℚ) ^ e₂ ≠ 0 := zpow_ne_zero _ two_ne_zero
    have hne : (2 : ℚ) ^ t ≠ 0 := zpow_ne_zero _ two_ne_zero
    rw [hvalue, hpower, Nat.shiftLeft_eq]
    push_cast
    field_simp
  show (match divCore .binary64 m₁ e₁ m₂ e₂ with | (n, j, a) => roundWithAccuracy .binary64 (s₁ / s₂) n j a) = _
  rw [hcore]
  refine roundWithAccuracy_eq hv _ hc ?_ (le_log2_quotient h₁ h₂ ht hk)
  rw [hquotient]
  exact locates_fraction _ h₂

end

/-! ## Powers of ten -/

/-- Whether a number is `10 ^ p`, for exponents as small as those of the table. -/
def isPowerOfTen (p : Nat) : UnpackedFloat → Bool
  | .finite .positive m e _ => -52 ≤ e && m * 2 ^ (e + 52).toNat == 10 ^ p * 2 ^ 52
  | _ => false

theorem isPowerOfTen_table : ∀ p : Fin 23, isPowerOfTen p Float.exactlyRepresentablePowersOfTen[p].toModel.unpack = true := by
  decide +kernel

/-- The powers in the table are exact. -/
theorem unpack_powerOfTen {p : Nat} (hp : p < 23) :
    ∃ m e h, (getElem Float.exactlyRepresentablePowersOfTen p hp).toModel.unpack = .finite .positive m e h ∧
      (m : ℚ) * 2 ^ e = 10 ^ p := by
  have htable : isPowerOfTen p (getElem Float.exactlyRepresentablePowersOfTen p hp).toModel.unpack = true :=
    isPowerOfTen_table ⟨p, hp⟩
  generalize (getElem Float.exactlyRepresentablePowersOfTen p hp).toModel.unpack = u at htable
  cases u with
  | notANumber | infinity | zero => cases htable
  | finite s m e h =>
    cases s with
    | negative => cases htable
    | positive =>
      refine ⟨m, e, h, rfl, ?_⟩
      have htable : (-52 ≤ e && m * 2 ^ (e + 52).toNat == 10 ^ p * 2 ^ 52) = true := htable
      simp only [Bool.and_eq_true, decide_eq_true_eq, beq_iff_eq] at htable
      obtain ⟨he, hpower⟩ := htable
      have hcast : (m : ℚ) * 2 ^ (e + 52).toNat = 10 ^ p * 2 ^ 52 := by exact_mod_cast hpower
      have hsplit : (2 : ℚ) ^ e * 2 ^ 52 = 2 ^ (e + 52).toNat := by
        rw [← zpow_natCast, ← zpow_natCast, ← zpow_add₀ two_ne_zero]
        congr 1
        omega
      have hne : (2 : ℚ) ^ 52 ≠ 0 := by norm_num
      exact mul_right_cancel₀ hne (by rw [mul_assoc, hsplit, hcast])

/-! ## Numbers from their digits -/

/-- A finite number other than zero has the significand and the exponent that it is unpacked to. -/
theorem canonical_of_unpack {x : Float} {s : Sign} {m : Nat} {e : Int} {h : 0 < m} (hx : x.toModel.unpack = .finite s m e h) :
    Canonical m e ∧ e ≤ 971 := by
  have hx : ofFields (signOf (bits x)) (unpackExponent (bits x)) (unpackMantissa (bits x)) = .finite s m e h := hx
  generalize unpackExponent (bits x) = b at hx
  generalize unpackMantissa (bits x) = f at hx
  unfold ofFields at hx
  by_cases hmax : b = -1#11
  · rw [if_pos hmax] at hx
    by_cases hf : f = 0#52
    · rw [if_pos hf] at hx
      cases hx
    · rw [if_neg hf] at hx
      cases hx
  rw [if_neg hmax] at hx
  by_cases hzero : b = 0#11
  · rw [if_pos hzero] at hx
    by_cases hf : f = 0#52
    · rw [dif_pos hf] at hx
      cases hx
    · rw [dif_neg hf] at hx
      cases hx
      rw [hzero]
      have hleast : ((0#11).toNat : Int) - 1075 + 1 = -1074 := rfl
      exact ⟨.inr ⟨hleast, h, f.isLt⟩, by omega⟩
  · rw [if_neg hzero] at hx
    cases hx
    have hlow : b.toNat ≠ 0 := fun h => hzero (BitVec.eq_of_toNat_eq h)
    have hhigh : b.toNat ≠ 2 ^ 11 - 1 := fun h => hmax (BitVec.eq_of_toNat_eq h)
    have hlt : b.toNat < 2 ^ 11 := b.isLt
    exact ⟨.inl ⟨by omega, log2_implicit f⟩, by omega⟩

/-- And a significand and an exponent that are those of a number are unpacked as they were packed. -/
theorem unpack_pack_canonical {m : Nat} {e : Int} (s : Sign) (hc : Canonical m e) (he : e ≤ 971) :
    (Float.Model.pack (.finite s m e hc.pos)).unpack = .finite s m e hc.pos := by
  rcases hc with ⟨hleast, hm⟩ | ⟨rfl, hpos, hm⟩
  · exact unpack_pack_full hm s hleast he
  · obtain ⟨b, rfl⟩ : ∃ b : BitVec 52, m = b.toNat := ⟨BitVec.ofNat 52 m, by rw [BitVec.toNat_ofNat, Nat.mod_eq_of_lt hm]⟩
    have hb : b ≠ 0#52 := by
      rintro rfl
      exact absurd hpos (by decide)
    show unpack .binary64 (pack .binary64 _) = _
    rw [pack_subnormal s hpos, unpack_packComponents, ofFields, if_neg (by decide), if_pos rfl, dif_neg hb]
    rfl

/-- Packing gives back a finite number that was unpacked. -/
theorem ofModel_pack_unpack {x : Float} (h : x.isFinite = true) : Float.ofModel (Float.Model.pack x.toModel.unpack) = x := by
  have hpack := pack_withSign (b := bits x) (signOf (bits x)) h
  rw [withSign_unpack, signed_signOf] at hpack
  exact eq_of_bits_eq hpack

/-- Digits that are moved up count for as much. -/
theorem full_value (n k : Nat) : ((n * 2 ^ k : Nat) : ℚ) * 2 ^ (-(k : Int)) = n := by
  rw [zpow_neg, zpow_natCast]
  push_cast
  field_simp

section

variable {y : Float} {m : Nat} {e : Int} {h : 0 < m} (hy : y.toModel.unpack = .finite .positive m e h)

include hy in
theorem ofModel_pack_finite {u : UnpackedFloat} (hu : u = .finite .positive m e h) : Float.ofModel (Float.Model.pack u) = y := by
  rw [hu, ← hy]
  exact ofModel_pack_unpack (isFinite_of_unpack hy)

variable {n : Nat} {k : Int} (hv : RoundsTo m e (n * 10 ^ k))

include h hv in
/-- The digits of a number other than zero are not all zero. -/
theorem digits_pos_of_roundsTo : 0 < n := by
  refine Nat.pos_of_ne_zero fun hzero => ?_
  have hlower := hv.lower
  have hm : (1 : ℚ) ≤ m := by exact_mod_cast h
  rw [hzero, Nat.cast_zero, zero_mul, zero_div] at hlower
  linarith

include hv hy in
/-- Few digits and a small exponent are read with a power from the table. -/
theorem ofScientific_table (hlt : n < 2 ^ 53) (hk : k.natAbs < 23) :
    (if decide (k < 0) = true then n.toUInt64.toFloat / getElem Float.exactlyRepresentablePowersOfTen k.natAbs hk
      else n.toUInt64.toFloat * getElem Float.exactlyRepresentablePowersOfTen k.natAbs hk) = y := by
  have hc := (canonical_of_unpack hy).1
  obtain ⟨i, hfull, hi⟩ := exists_full (digits_pos_of_roundsTo (h := h) hv).ne' hlt
  have hunpack := unpack_toFloat hlt hfull hi
  obtain ⟨p, j, hp, hpower, hten⟩ := unpack_powerOfTen hk
  split
  · next hneg =>
    have hneg := of_decide_eq_true hneg
    refine ofModel_pack_finite hy (u := div .binary64 _ _) ?_
    rw [hunpack, hpower]
    refine div_finite hc hv ?_
    have habs : k = -(k.natAbs : Int) := by omega
    rw [full_value, hten, habs, zpow_neg, zpow_natCast, Int.natAbs_neg, Int.natAbs_natCast, div_eq_mul_inv]
  · next hneg =>
    have hneg : ¬ k < 0 := fun h => hneg (decide_eq_true h)
    refine ofModel_pack_finite hy (u := mul .binary64 _ _) ?_
    rw [hunpack, hpower]
    have habs : k = (k.natAbs : Int) := by omega
    refine mul_finite hc hv ?_ ?_
    · rw [full_value, hten, habs, zpow_natCast, Int.natAbs_natCast]
    · have hlow := (Nat.log2_eq_iff (ne_zero_of_log2 hfull)).1 hfull
      exact hlow.1.trans (Nat.le_mul_of_pos_right _ hp)

include hv hy in
/-- Any other digits and exponents are read with a power that is computed. -/
theorem ofScientific_long (hk : k.natAbs ≤ 2048) : Float.ofModel (Float.Model.ofScientific n k) = y := by
  have hc := (canonical_of_unpack hy).1
  have hn : 0 < n := digits_pos_of_roundsTo (h := h) hv
  refine ofModel_pack_finite hy (u := UnpackedFloat.ofScientific .binary64 n k) ?_
  have hlarge : ¬ k > 2 ^ Format.binary64.exponentBits := by
    show ¬ k > 2 ^ 11
    omega
  have hsmall : ¬ k < -(2 ^ Format.binary64.exponentBits + (n.log2 : Int)) := by
    show ¬ k < -(2 ^ 11 + (n.log2 : Int))
    omega
  unfold UnpackedFloat.ofScientific
  rw [dif_neg hn.ne', if_neg hlarge, if_neg hsmall]
  by_cases hpositive : 0 ≤ k
  · rw [if_pos hpositive]
    have habs : k = (k.toNat : Int) := by omega
    refine mul_finite hc hv ?_ ?_
    · show _ = ((n <<< 53 : Nat) : ℚ) * 2 ^ (-53 : Int) * ((10 ^ k.toNat : Nat) * 2 ^ (0 : Int))
      have hten : (10 : ℚ) ^ k = 10 ^ k.toNat := by
        rw [← zpow_natCast, ← habs]
      have hone : (9007199254740992 : ℚ) * 2 ^ (-53 : Int) = 1 := by norm_num
      rw [hten, Nat.shiftLeft_eq, zpow_zero, mul_one]
      push_cast
      rw [mul_assoc (n : ℚ), hone, mul_one]
    · show 2 ^ 52 ≤ n <<< 53 * 10 ^ k.toNat
      have hten : 0 < 10 ^ k.toNat := Nat.pow_pos (by decide)
      have hlow : 2 ^ 52 ≤ n <<< 53 := by
        rw [Nat.shiftLeft_eq]
        omega
      exact hlow.trans (Nat.le_mul_of_pos_right _ hten)
  · rw [if_neg hpositive]
    have habs : k = -((-k).toNat : Int) := by omega
    refine div_finite hc hv ?_
    have hten : (10 : ℚ) ^ k = (10 ^ (-k).toNat)⁻¹ := by
      rw [← zpow_natCast, ← zpow_neg, ← habs]
    rw [hten, zpow_zero, mul_one, mul_one, div_eq_mul_inv]
    push_cast
    rfl

include hv hy in
/-- A decimal is read as the number in whose interval it lies. -/
theorem ofScientific_eq (hk : k.natAbs ≤ 2048) : Float.ofScientific n (decide (k < 0)) k.natAbs = y := by
  unfold Float.ofScientific
  split
  · next hshort => exact ofScientific_table hy hv hshort.1 (by omega)
  · have hscale : (if decide (k < 0) = true then Int.negOfNat k.natAbs else Int.ofNat k.natAbs) = k := by
      split
      · next hneg =>
        have hneg := of_decide_eq_true hneg
        rw [Int.negOfNat_eq]
        show -(k.natAbs : Int) = k
        omega
      · next hneg =>
        have hneg : ¬ k < 0 := fun h => hneg (decide_eq_true h)
        show (k.natAbs : Int) = k
        omega
    show Float.ofModel (Float.Model.ofScientific n (if decide (k < 0) = true then Int.negOfNat k.natAbs else Int.ofNat k.natAbs)) = y
    rw [hscale]
    exact ofScientific_long hy hv hk

end

end ExprLang.Number
