import ExprLang.Step.Binary
import Mathlib.Tactic.Linarith
import Mathlib.Tactic.Ring

/-!
# Shifts of integers

A shift of a word of sixty-four bits multiplies by a power of two, or divides by one and rounds down. The integers that
are used where a count is too large for the word continue this: every word is shifted out on the left, and on the right
the quotient has come down to zero, or to minus one (`shiftLeft_eq`, `shiftRight_eq`). A negative count shifts nothing
(`shifts_arithmetic`).
-/

namespace ExprLang.Number

/-! ## Shifts within a word -/

theorem toInt_word {i : Int} (h : minInteger ≤ i ∧ i ≤ maxInteger) : (word i).toInt = i := by
  unfold minInteger maxInteger at h
  exact BitVec.toInt_ofInt_eq_self (by decide) (by omega) (by omega)

/-- A shift to the left multiplies, and what does not fit into the word is lost. -/
theorem toInt_shiftLeft_word (i : Int) (n : Nat) : (word i <<< n).toInt = (i * 2 ^ n).bmod (2 ^ 64) := by
  have hvalue : (((word i).toNat : Nat) : Int) = i % (2 ^ 64 : Nat) := by
    rw [word, BitVec.toNat_ofInt]
    exact Int.toNat_of_nonneg (Int.emod_nonneg _ (by decide))
  rw [BitVec.toInt_shiftLeft, Nat.shiftLeft_eq, Int.natCast_mul, hvalue, Int.natCast_pow]
  exact Int.emod_mul_bmod i (2 ^ 64)

/-- A shift to the right divides, and the fraction is lost downwards. -/
theorem toInt_sshiftRight_word {i : Int} (h : minInteger ≤ i ∧ i ≤ maxInteger) (n : Nat) :
    ((word i).sshiftRight n).toInt = i.fdiv (2 ^ n) := by
  rw [BitVec.toInt_sshiftRight, toInt_word h, Int.shiftRight_eq_div_pow, Int.fdiv_eq_ediv_of_nonneg i (by positivity),
    Int.natCast_pow]
  rfl

/-! ## Shifts by any count -/

/-- What a multiplication moves past the end of a word leaves nothing in it. -/
theorem shiftLeft_eq (i : Int) (n : Nat) : shiftLeft i n = (i * 2 ^ n).bmod (2 ^ 64) := by
  by_cases hn : n < 64
  · rw [shiftLeft, shifted_of_lt _ _ _ hn, toInt_shiftLeft_word]
  · obtain ⟨k, rfl⟩ : ∃ k, n = 64 + k := Nat.exists_eq_add_of_le (Nat.not_lt.1 hn)
    have hdvd : ((2 ^ 64 : Nat) : Int) ∣ i * 2 ^ (64 + k) := ⟨i * 2 ^ k, by push_cast; ring⟩
    rw [shiftLeft, shifted_of_not_lt _ _ _ (by omega), Int.bmod_eq_zero_of_dvd hdvd]

/-- An integer of a word divided by more than the word holds is zero or, rounded down, minus one. -/
theorem shiftRight_eq {i : Int} (h : minInteger ≤ i ∧ i ≤ maxInteger) (n : Nat) : shiftRight i n = i.fdiv (2 ^ n) := by
  by_cases hn : n < 64
  · rw [shiftRight, shifted_of_lt _ _ _ hn, toInt_sshiftRight_word h]
  · have hpow : (2 ^ 64 : Int) ≤ 2 ^ n := pow_le_pow_right₀ (by decide) (Nat.not_lt.1 hn)
    unfold minInteger maxInteger at h
    rw [shiftRight, shifted_of_not_lt _ _ _ (by omega), Int.fdiv_eq_ediv_of_nonneg i (by positivity)]
    split
    · next hneg => exact (Int.ediv_eq_neg_one_of_neg_of_le hneg (by omega)).symm
    · next hpos => exact (Int.ediv_eq_zero_of_lt (by omega) (by omega)).symm

theorem bitwise_of_integers {l r : Value} {i j : Int} (f : Int → Int → Int) (hl : l.integer? = some i)
    (hr : r.integer? = some j) : l.bitwise f r = .ok (.integer (f i j)) := by
  have hdefined : ∀ {v : Value} {k : Int}, v.integer? = some k → v.isUndefined = false := by
    rintro ⟨m, c⟩ k hk
    cases c <;> first | rfl | cases hk
  rw [Value.bitwise, hdefined hl, hdefined hr, hl, hr]
  rfl

/-- Shifting a signed integer of sixty-four bits to the left multiplies it by a power of two, wrapped to such integers, and
shifting it to the right divides it by one and rounds down, however large the count is. A negative count gives nothing or
the sign, and whatever the operands count, the operators have a result. -/
theorem shifts_arithmetic {i : Int} (h : minInteger ≤ i ∧ i ≤ maxInteger) (count : Int) :
    (0 ≤ count → shiftLeft i count = (i * 2 ^ count.toNat).bmod (2 ^ 64) ∧ shiftRight i count = i.fdiv (2 ^ count.toNat)) ∧
      (count < 0 → shiftLeft i count = 0 ∧ shiftRight i count = if i < 0 then -1 else 0) ∧
      ∀ l r : Value, l.integer? = some i → r.integer? = some count →
        l.bitwise shiftLeft r = .ok (.integer (shiftLeft i count)) ∧
          l.bitwise shiftRight r = .ok (.integer (shiftRight i count)) := by
  refine ⟨fun hcount => ?_, fun hcount => ?_, fun l r hl hr => ?_⟩
  · obtain ⟨n, rfl⟩ := Int.eq_ofNat_of_zero_le hcount
    exact ⟨shiftLeft_eq i n, shiftRight_eq h n⟩
  · exact ⟨shifted_of_not_lt _ _ _ (by omega), shifted_of_not_lt _ _ _ (by omega)⟩
  · exact ⟨bitwise_of_integers _ hl hr, bitwise_of_integers _ hl hr⟩

/-- The least integer, shifted by the width of a word, by one place backwards, and by a number in a string. -/
theorem shifts_arithmetic_least :
    (minInteger ≤ minInteger ∧ minInteger ≤ maxInteger) ∧
      (shiftLeft minInteger 64 = (minInteger * 2 ^ 64).bmod (2 ^ 64) ∧ shiftRight minInteger 64 = minInteger.fdiv (2 ^ 64)) ∧
      (shiftLeft minInteger (-1) = 0 ∧ shiftRight minInteger (-1) = -1) ∧
      (Value.number (-9223372036854775808)).bitwise shiftRight (.string "62") = .ok (.integer (shiftRight minInteger 62)) ∧
      shiftRight minInteger 62 = -2 := by
  have hreach : minInteger ≤ minInteger ∧ minInteger ≤ maxInteger := by decide
  have hleast : (Value.number (-9223372036854775808)).integer? = some minInteger := by decide +kernel
  have hcount : (Value.string "62").integer? = some 62 := by decide +kernel
  exact ⟨hreach, (shifts_arithmetic hreach 64).1 (by decide), (shifts_arithmetic hreach (-1)).2.1 (by decide),
    ((shifts_arithmetic hreach 62).2.2 _ _ hleast hcount).2, by decide⟩

end ExprLang.Number
