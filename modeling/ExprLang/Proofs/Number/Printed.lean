import ExprLang.Proofs.Number.Nearest

/-!
# Decimals in the interval of a number

The interval that the search for the shortest decimal tries points against holds the decimals that are nearest to the number
(`contains_iff`). A grid finer than half a unit of the last digit has a point in it (`onGrid_of_fine`), and among the grids that are
tried the last ones are that fine (`ten_zpow_lt`), so the decimal that is found is read back (`shortest_roundsTo`).
-/

namespace ExprLang.Number

/-! ## Intervals -/

/-- A power and its inverse as natural numbers. -/
theorem power_eq {b : Nat} (hb : b ≠ 0) (k : Int) : (power b k : ℚ) = (b : ℚ) ^ k * power b (-k) := by
  have hcast : ∀ i, (power b i : ℚ) = (b : ℚ) ^ i.toNat := fun i => Nat.cast_pow b i.toNat
  have hb : (b : ℚ) ≠ 0 := by exact_mod_cast hb
  rw [hcast, hcast, ← zpow_natCast, ← zpow_natCast, ← zpow_add₀ hb]
  congr 1
  omega

theorem power_pos {b : Nat} (hb : 0 < b) (k : Int) : (0 : ℚ) < power b k := by
  exact_mod_cast (Nat.pow_pos hb : 0 < b ^ k.toNat)

/-- The lower end of the interval, in units of the last digit. -/
def lowerEnd (m : Nat) (e : Int) : ℚ := if m = leastSignificand ∧ -1074 < e then m - 1 / 4 else m - 1 / 2

/-- The interval of a number, with its ends just if the significand is even. -/
theorem roundsTo_iff {m : Nat} {e : Int} {v : ℚ} : RoundsTo m e v ↔
    if m % 2 = 0 then lowerEnd m e ≤ v / 2 ^ e ∧ v / 2 ^ e ≤ m + 1 / 2 else lowerEnd m e < v / 2 ^ e ∧ v / 2 ^ e < m + 1 / 2 := by
  have hedge : m = leastSignificand → m % 2 = 0 := fun h => by
    rw [h]
    decide
  unfold lowerEnd
  constructor
  · intro h
    split
    · refine ⟨?_, h.upper⟩
      split
      · next hpower => exact h.edge hpower.1 hpower.2
      · exact h.lower
    · next hodd =>
      rw [if_neg fun hpower => hodd (hedge hpower.1)]
      exact h.odd (by omega)
  · intro h
    by_cases heven : m % 2 = 0
    · rw [if_pos heven] at h
      refine ⟨?_, h.2, fun hodd => by omega, fun hm he => by rw [if_pos ⟨hm, he⟩] at h; exact h.1⟩
      split at h <;> linarith [h.1]
    · rw [if_neg heven, if_neg fun hpower => heven (hedge hpower.1)] at h
      exact ⟨h.1.le, h.2.le, fun _ => h, fun hm => absurd (hedge hm) heven⟩

theorem RoundsTo.of_above {m : Nat} {e : Int} {v : ℚ} (hlow : m < v / 2 ^ e) (hhigh : v / 2 ^ e < m + 1 / 2) : RoundsTo m e v where
  lower := by linarith
  upper := hhigh.le
  odd _ := ⟨by linarith, hhigh⟩
  edge _ _ := by linarith

namespace Interval

variable {m : Nat} {e : Int}

/-- A decimal and a quarter of a unit of the last digit are compared as integers. -/
theorem scaled_le_iff (q c : Nat) (k : Int) :
    (q * power 2 e * power 10 (-k) ≤ c * power 10 k * (4 * power 2 (-e)) ↔ (q : ℚ) / 4 ≤ c * 10 ^ k / 2 ^ e) ∧
      (c * power 10 k * (4 * power 2 (-e)) ≤ q * power 2 e * power 10 (-k) ↔ (c : ℚ) * 10 ^ k / 2 ^ e ≤ q / 4) := by
  have hten := power_eq (b := 10) (by decide) k
  have htwo := power_eq (b := 2) (by decide) e
  have hpos : (0 : ℚ) < 2 ^ e := zpow_pos two_pos e
  have hfactor : (0 : ℚ) < 4 * 2 ^ e * power 10 (-k) * power 2 (-e) :=
    mul_pos (mul_pos (by positivity) (power_pos (by decide) _)) (power_pos (by decide) _)
  have hend : ((q * power 2 e * power 10 (-k) : Nat) : ℚ) = q / 4 * (4 * 2 ^ e * power 10 (-k) * power 2 (-e)) := by
    push_cast at htwo ⊢
    rw [htwo]
    ring
  have hpoint : ((c * power 10 k * (4 * power 2 (-e)) : Nat) : ℚ) =
      c * 10 ^ k / 2 ^ e * (4 * 2 ^ e * power 10 (-k) * power 2 (-e)) := by
    push_cast at hten ⊢
    rw [hten]
    field_simp
  have hcast : ∀ {a b : Nat}, a ≤ b ↔ (a : ℚ) ≤ b := Nat.cast_le.symm
  constructor
  · rw [hcast, hend, hpoint, mul_le_mul_iff_of_pos_right hfactor]
  · rw [hcast, hend, hpoint, mul_le_mul_iff_of_pos_right hfactor]

/-- The interval holds the decimals that are read as the number. -/
theorem contains_iff (hm : 0 < m) (c : Nat) (k : Int) :
    (ofFinite m e).contains c k = true ↔ RoundsTo m e (c * 10 ^ k) := by
  obtain ⟨l, hl, hlower⟩ : ∃ l : Nat, (l : ℚ) / 4 = lowerEnd m e ∧ (ofFinite m e).lower = l * power 2 e := by
    unfold lowerEnd ofFinite
    dsimp only
    split
    · refine ⟨4 * m - 1, ?_, rfl⟩
      rw [Nat.cast_sub (by omega)]
      push_cast
      ring
    · refine ⟨4 * m - 2, ?_, rfl⟩
      rw [Nat.cast_sub (by omega)]
      push_cast
      ring
  have hu : ((4 * m + 2 : Nat) : ℚ) / 4 = m + 1 / 2 := by
    push_cast
    ring
  obtain ⟨hle, hge⟩ := scaled_le_iff (e := e) l c k
  obtain ⟨hle', hge'⟩ := scaled_le_iff (e := e) (4 * m + 2) c k
  rw [roundsTo_iff, ← hl, ← hu]
  unfold contains
  rw [hlower]
  show (if decide (m % 2 = 0) = true then _ else _) = true ↔ _
  by_cases heven : m % 2 = 0
  · rw [if_pos heven, if_pos (decide_eq_true heven), Bool.and_eq_true, decide_eq_true_eq, decide_eq_true_eq]
    exact and_congr hle hge'
  · rw [if_neg heven, if_neg (fun h => heven (of_decide_eq_true h)), Bool.and_eq_true, decide_eq_true_eq, decide_eq_true_eq,
      ← Nat.not_le, ← Nat.not_le, ← not_le, ← not_le]
    exact and_congr (not_congr hge) (not_congr hle')

/-! ## Grids -/

theorem onGrid_ok {k : Int} {d : Decimal} (hm : 0 < m) (h : (ofFinite m e).onGrid k = some d) :
    d.exponent = k ∧ RoundsTo m e (d.digits * 10 ^ k) := by
  unfold onGrid at h
  dsimp only at h
  split at h
  · next hbelow habove =>
    cases h
    refine ⟨rfl, ?_⟩
    dsimp only
    split
    · exact (contains_iff hm _ _).1 hbelow
    · exact (contains_iff hm _ _).1 habove
  · next hbelow _ =>
    cases h
    exact ⟨rfl, (contains_iff hm _ _).1 hbelow⟩
  · next _ habove =>
    cases h
    exact ⟨rfl, (contains_iff hm _ _).1 habove⟩
  · cases h

/-- The point above a number is no further away than the width of the grid. -/
theorem point_above (m : Nat) (e k : Int) {below : Nat}
    (hbelow : below = (ofFinite m e).value * power 10 (-k) / ((ofFinite m e).unit * power 10 k)) :
    (m : ℚ) * 2 ^ e < (below + 1 : Nat) * 10 ^ k ∧ ((below + 1 : Nat) : ℚ) * 10 ^ k ≤ m * 2 ^ e + 10 ^ k := by
  have hten := power_eq (b := 10) (by decide) k
  have htwo := power_eq (b := 2) (by decide) e
  have hfactor : (0 : ℚ) < 4 * power 10 (-k) * power 2 (-e) :=
    mul_pos (mul_pos (by norm_num) (power_pos (by decide) _)) (power_pos (by decide) _)
  have hvalue : (((ofFinite m e).value * power 10 (-k) : Nat) : ℚ) = m * 2 ^ e * (4 * power 10 (-k) * power 2 (-e)) := by
    show ((4 * m * power 2 e * power 10 (-k) : Nat) : ℚ) = _
    push_cast at htwo ⊢
    rw [htwo]
    ring
  have hwidth : (((ofFinite m e).unit * power 10 k : Nat) : ℚ) = 10 ^ k * (4 * power 10 (-k) * power 2 (-e)) := by
    show ((4 * power 2 (-e) * power 10 k : Nat) : ℚ) = _
    push_cast at hten ⊢
    rw [hten]
    ring
  have hpos : 0 < (ofFinite m e).unit * power 10 k := by
    have hpos : (0 : ℚ) < ((ofFinite m e).unit * power 10 k : Nat) := by
      rw [hwidth]
      exact mul_pos (zpow_pos (by norm_num) k) hfactor
    exact_mod_cast hpos
  have hlow : ((below * ((ofFinite m e).unit * power 10 k) : Nat) : ℚ) ≤ ((ofFinite m e).value * power 10 (-k) : Nat) := by
    rw [hbelow]
    exact_mod_cast Nat.div_mul_le_self _ _
  have hhigh : (((ofFinite m e).value * power 10 (-k) : Nat) : ℚ) < ((below + 1) * ((ofFinite m e).unit * power 10 k) : Nat) := by
    rw [hbelow]
    exact_mod_cast (Nat.div_lt_iff_lt_mul hpos).1 (Nat.lt_succ_self _)
  rw [Nat.cast_mul, hvalue, hwidth, ← mul_assoc, mul_le_mul_iff_of_pos_right hfactor] at hlow
  rw [Nat.cast_mul (below + 1), hvalue, hwidth, ← mul_assoc (((below + 1 : Nat) : ℚ)),
    mul_lt_mul_iff_of_pos_right hfactor] at hhigh
  refine ⟨hhigh, ?_⟩
  push_cast
  linarith

/-- A grid finer than half a unit of the last digit has a point in the interval. -/
theorem onGrid_of_fine (hm : 0 < m) {k : Int} (hk : (10 : ℚ) ^ k < 2 ^ (e - 1)) : ∃ d, (ofFinite m e).onGrid k = some d := by
  obtain ⟨below, hbelow⟩ : ∃ below, below = (ofFinite m e).value * power 10 (-k) / ((ofFinite m e).unit * power 10 k) := ⟨_, rfl⟩
  obtain ⟨hlow, hhigh⟩ := point_above m e k hbelow
  have hpos : (0 : ℚ) < 2 ^ e := zpow_pos two_pos e
  have hhalf : (10 : ℚ) ^ k < 1 / 2 * 2 ^ e := by
    rw [zpow_sub_one₀ two_ne_zero] at hk
    linarith
  have habove : (ofFinite m e).contains (below + 1) k = true := by
    refine (contains_iff hm _ _).2 (.of_above ?_ ?_)
    · rwa [lt_div_iff₀ hpos]
    · rw [div_lt_iff₀ hpos]
      linarith
  unfold onGrid
  dsimp only
  rw [← hbelow, habove]
  cases (ofFinite m e).contains below k with
  | true => exact ⟨_, rfl⟩
  | false => exact ⟨_, rfl⟩

/-- A search that comes to a grid so fine finds a decimal that is read as the number. -/
theorem search_roundsTo (hm : 0 < m) (n : Nat) {k : Int} (hk : (10 : ℚ) ^ (k - n) < 2 ^ (e - 1)) :
    RoundsTo m e (((ofFinite m e).search k (n + 1)).digits * 10 ^ ((ofFinite m e).search k (n + 1)).exponent) ∧
      k - n ≤ ((ofFinite m e).search k (n + 1)).exponent ∧ ((ofFinite m e).search k (n + 1)).exponent ≤ k := by
  have hfound : ∀ {k d} (n : Nat), (ofFinite m e).onGrid k = some d → (ofFinite m e).search k (n + 1) = d := fun n h => by
    rw [search, h, Option.getD_some]
  have hmissed : ∀ {k} (n : Nat), (ofFinite m e).onGrid k = none →
      (ofFinite m e).search k (n + 1) = (ofFinite m e).search (k - 1) n := fun n h => by
    rw [search, h, Option.getD_none]
  induction n generalizing k with
  | zero =>
    rw [Nat.cast_zero, sub_zero] at hk
    obtain ⟨d, hd⟩ := onGrid_of_fine hm hk
    obtain ⟨hexponent, hround⟩ := onGrid_ok hm hd
    rw [hfound 0 hd, hexponent]
    exact ⟨hround, by omega, le_rfl⟩
  | succ n ih =>
    cases hd : (ofFinite m e).onGrid k with
    | some d =>
      obtain ⟨hexponent, hround⟩ := onGrid_ok hm hd
      rw [hfound (n + 1) hd, hexponent]
      exact ⟨hround, by omega, le_rfl⟩
    | none =>
      have hnext : k - (n + 1 : Nat) = k - 1 - n := by omega
      rw [hnext] at hk ⊢
      rw [hmissed (n + 1) hd]
      obtain ⟨hround, hlow, hhigh⟩ := ih hk
      exact ⟨hround, hlow, by omega⟩

end Interval

/-! ## The grids that are tried -/

/-- Ten digits are more than thirty-three bits and three digits less than ten, which is close enough for the exponents of numbers. -/
theorem ten_zpow_lt {j e : Int} (hj : j * 100000 ≤ (e + 53) * 30103 - 2000000) (hlow : -1074 ≤ e) (hhigh : e ≤ 971) :
    (10 : ℚ) ^ j < 2 ^ (e - 1) := by
  rcases Int.le_total 0 j with hpos | hneg
  · obtain ⟨n, rfl⟩ := Int.eq_ofNat_of_zero_le hpos
    have hpower : ((10 : ℚ) ^ n) ^ 3 < (2 ^ (e - 1)) ^ 3 := calc
      ((10 : ℚ) ^ n) ^ 3 = (10 ^ 3) ^ n := by rw [← pow_mul, ← pow_mul, Nat.mul_comm]
      _ ≤ (2 ^ 10) ^ n := pow_le_pow_left₀ (by norm_num) (by norm_num) n
      _ = 2 ^ ((10 * n : Nat) : Int) := by rw [zpow_natCast, pow_mul]
      _ < 2 ^ ((e - 1) * (3 : Nat)) := zpow_lt_zpow_right₀ one_lt_two (by push_cast; omega)
      _ = (2 ^ (e - 1)) ^ 3 := zpow_mul _ _ _
    rw [zpow_natCast]
    exact lt_of_pow_lt_pow_left₀ 3 (zpow_pos two_pos _).le hpower
  · obtain ⟨n, hn⟩ := Int.eq_ofNat_of_zero_le (Int.neg_nonneg_of_nonpos hneg)
    obtain rfl : j = -(n : Int) := by omega
    have hpower : ((10 : ℚ) ^ (-(n : Int))) ^ 10 < (2 ^ (e - 1)) ^ 10 := calc
      ((10 : ℚ) ^ (-(n : Int))) ^ 10 = ((10 ^ 10) ^ n)⁻¹ := by
        rw [zpow_neg, zpow_natCast, inv_pow, ← pow_mul, ← pow_mul, Nat.mul_comm]
      _ ≤ ((2 ^ 33) ^ n)⁻¹ := inv_anti₀ (by positivity) (pow_le_pow_left₀ (by norm_num) (by norm_num) n)
      _ = 2 ^ (-(33 * n : Nat) : Int) := by rw [zpow_neg, zpow_natCast, pow_mul]
      _ < 2 ^ ((e - 1) * (10 : Nat)) := zpow_lt_zpow_right₀ one_lt_two (by push_cast; omega)
      _ = (2 ^ (e - 1)) ^ 10 := zpow_mul _ _ _
    exact lt_of_pow_lt_pow_left₀ 10 (zpow_pos two_pos _).le hpower

/-- The decimal that is found for a number is read as that number, and its exponent is small. -/
theorem shortest_roundsTo {m : Nat} {e : Int} (hc : Canonical m e) (he : e ≤ 971) :
    RoundsTo m e ((shortest m e).digits * 10 ^ (shortest m e).exponent) ∧
      -400 ≤ (shortest m e).exponent ∧ (shortest m e).exponent ≤ 400 := by
  have hleast := hc.least_le
  have hlog := hc.log2_le
  obtain ⟨k, hk⟩ : ∃ k, k = ((m.log2 + 1 + e) * 30103).fdiv 100000 + 1 := ⟨_, rfl⟩
  rw [Int.fdiv_eq_ediv_of_nonneg _ (by decide)] at hk
  have hfine : (10 : ℚ) ^ (k - (21 : Nat)) < 2 ^ (e - 1) := ten_zpow_lt (by omega) hleast he
  obtain ⟨hround, hlow, hhigh⟩ := Interval.search_roundsTo hc.pos 21 hfine
  have hsearch : shortest m e = (Interval.ofFinite m e).search k (21 + 1) := by
    rw [shortest, Int.fdiv_eq_ediv_of_nonneg _ (by decide), ← hk]
  rw [hsearch]
  exact ⟨hround, by omega, by omega⟩

end ExprLang.Number
