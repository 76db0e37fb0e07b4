import ExprLang.Proofs.Counting
import Mathlib.Data.List.Chain

/-!
# Walking through ranges in words

A walk through a range (`Range.Walker`) adds and subtracts words of sixty-four bits, which wrap around. Each step but the last
one is taken only while the end is still ahead, so it never leaves the signed words (`Walker.next?_up`, `Walker.next?_down`), and
what the walk yields are the integers of the range themselves (`Walks.yields`). Their number may be too large for a word by
one, and only then it is not exact (`wordCount_eq`). `walker_exact` puts this together.
-/

namespace ExprLang.Range

/-! ## Words -/

/-- A signed integer of sixty-four bits. -/
def IsWord (i : Int) : Prop := -9223372036854775808 ≤ i ∧ i ≤ 9223372036854775807

/-- A range between such integers, or open on one side. -/
def OfWords : Range → Prop
  | startingAt first => IsWord first
  | endingAt last => IsWord last
  | between first last => IsWord first ∧ IsWord last

theorem IsWord.toInt_ofInt {i : Int} (h : IsWord i) : (Int64.ofInt i).toInt = i :=
  Int64.toInt_ofInt_of_le (by have := h.1; omega) (by have := h.2; omega)

/-- A word does not wrap. -/
theorem IsWord.bmod_eq {i : Int} (h : IsWord i) : i.bmod (2 ^ 64) = i := by
  obtain ⟨hlow, hhigh⟩ := h
  exact Int.bmod_eq_of_le (by omega) (by omega)

theorem isWord_toInt (w : Int64) : IsWord w.toInt := ⟨w.le_toInt, by have := w.toInt_lt; omega⟩

/-- The last position among so many is a word too, also if there is none. -/
theorem OfWords.bounds {r : Range} (h : r.OfWords) {size : Nat} (hsize : size < 2 ^ 63) :
    IsWord (r.bounds size).1 ∧ IsWord (r.bounds size).2 := by
  have hlast : IsWord ((size : Int) - 1) := ⟨by omega, by omega⟩
  cases r with
  | startingAt first => exact ⟨h, hlast⟩
  | endingAt last => exact ⟨hlast, h⟩
  | between first last => exact h

/-! ## One step -/

namespace Walker

variable {current last : Int64}

/-- Below the end the next word is one more, as an integer. -/
theorem next?_up (h : current.toInt < last.toInt) :
    (⟨current, last, false⟩ : Walker).next? = some (current, ⟨current + 1, last, false⟩) ∧
      (current + 1).toInt = current.toInt + 1 := by
  have hcompare : compare current last = .lt := Std.compare_eq_lt.2 (Int64.lt_iff_toInt_lt.2 h)
  refine ⟨by simp [next?, hcompare], ?_⟩
  have hsum : IsWord (current.toInt + 1) := ⟨by have := (isWord_toInt current).1; omega, by have := (isWord_toInt last).2; omega⟩
  rw [Int64.toInt_add]
  exact hsum.bmod_eq

/-- Above the end it is one less. -/
theorem next?_down (h : last.toInt < current.toInt) :
    (⟨current, last, false⟩ : Walker).next? = some (current, ⟨current - 1, last, false⟩) ∧
      (current - 1).toInt = current.toInt - 1 := by
  have hcompare : compare current last = .gt := Std.compare_eq_gt.2 (Int64.lt_iff_toInt_lt.2 h)
  refine ⟨by simp [next?, hcompare], ?_⟩
  have hdifference : IsWord (current.toInt - 1) :=
    ⟨by have := (isWord_toInt last).1; omega, by have := (isWord_toInt current).2; omega⟩
  rw [Int64.toInt_sub]
  exact hdifference.bmod_eq

theorem next?_self (w : Int64) : (⟨w, w, false⟩ : Walker).next? = some (w, ⟨w, w, true⟩) := by
  simp [next?]

/-! ## A whole walk -/

/-- All that a walk gives until it is done. -/
inductive Yields : Walker → List Int64 → Prop
  | done {w : Walker} : w.next? = none → Yields w []
  | next {w after : Walker} {i : Int64} {is : List Int64} : w.next? = some (i, after) → Yields after is → Yields w (i :: is)

theorem Yields.take_eq {w : Walker} {is : List Int64} (h : w.Yields is) (n : Nat) : w.take n = is.take n := by
  induction h generalizing n with
  | done hnone => cases n <;> simp [take, hnone]
  | next hsome _ ih => cases n <;> simp [take, hsome, ih]

end Walker

/-- The words on a walk stand for the integers on the way. -/
theorem Walks.yields {i j : Int} {is : List Int} (h : Walks i j is) {current last : Int64} (hi : current.toInt = i)
    (hj : last.toInt = j) : ∃ ws, (⟨current, last, false⟩ : Walker).Yields ws ∧ ws.map Int64.toInt = is := by
  induction h generalizing current with
  | arrived i =>
    obtain rfl : current = last := Int64.toInt_inj.1 (hi.trans hj.symm)
    exact ⟨[current], .next (Walker.next?_self current) (.done rfl), by simp [hi]⟩
  | up hlt _ ih =>
    have hahead : current.toInt < last.toInt := by omega
    obtain ⟨hnext, hsum⟩ := Walker.next?_up hahead
    obtain ⟨ws, hws, hmap⟩ := ih (hsum.trans (by rw [hi])) hj
    exact ⟨current :: ws, .next hnext hws, by simp [hi, hmap]⟩
  | down hlt _ ih =>
    have hbehind : last.toInt < current.toInt := by omega
    obtain ⟨hnext, hdifference⟩ := Walker.next?_down hbehind
    obtain ⟨ws, hws, hmap⟩ := ih (hdifference.trans (by rw [hi])) hj
    exact ⟨current :: ws, .next hnext hws, by simp [hi, hmap]⟩

/-- The second integer is one away from the first, and one closer to the last. -/
def Closer (last i j : Int) : Prop := (j = i + 1 ∨ j = i - 1) ∧ (last - j).natAbs + 1 = (last - i).natAbs

theorem Walks.isChain {first last : Int} {is : List Int} (h : Walks first last is) :
    is.head? = some first ∧ is.IsChain (Closer last) := by
  induction h with
  | arrived i => exact ⟨rfl, .singleton i⟩
  | @up i last is hlt _ ih =>
    obtain ⟨hhead, hchain⟩ := ih
    obtain ⟨js, rfl⟩ := List.head?_eq_some_iff.1 hhead
    exact ⟨rfl, .cons_cons ⟨.inl rfl, by omega⟩ hchain⟩
  | @down i last is hlt _ ih =>
    obtain ⟨hhead, hchain⟩ := ih
    obtain ⟨js, rfl⟩ := List.head?_eq_some_iff.1 hhead
    exact ⟨rfl, .cons_cons ⟨.inr rfl, by omega⟩ hchain⟩

/-! ## Counting in words -/

theorem toInt_cases (w : Int64) : w.toInt = w.toUInt64.toNat ∨ w.toInt = w.toUInt64.toNat - 18446744073709551616 := by
  have h := BitVec.toInt_eq_toNat_cond w.toUInt64.toBitVec
  split at h
  · exact .inl h
  · exact .inr h

/-- A difference of signed words fits into an unsigned one. -/
theorem distance_eq (first last : Int64) : (distance first last).toNat = (last.toInt - first.toInt).natAbs := by
  have hfirst := isWord_toInt first
  have hlast := isWord_toInt last
  have hcases := toInt_cases first
  have hcases' := toInt_cases last
  have hf := first.toUInt64.toNat_lt
  have hl := last.toUInt64.toNat_lt
  unfold IsWord at hfirst hlast
  unfold distance
  split
  · next h =>
    have h := Int64.lt_iff_toInt_lt.1 h
    rw [UInt64.toNat_sub]
    omega
  · next h =>
    have h := mt Int64.lt_iff_toInt_lt.2 h
    rw [UInt64.toNat_sub]
    omega

/-- One more may not fit. -/
theorem wordCount_eq (first last : Int64) :
    (wordCount first last).toNat = min ((last.toInt - first.toInt).natAbs + 1) (2 ^ 64 - 1) := by
  have hdistance := distance_eq first last
  have hlt := (distance first last).toNat_lt
  unfold wordCount
  split
  · next h =>
    rw [h] at hdistance ⊢
    have hmax : (18446744073709551615 : UInt64).toNat = 18446744073709551615 := rfl
    omega
  · next h =>
    have hne : (distance first last).toNat ≠ 18446744073709551615 := fun he => h (UInt64.toNat_inj.1 he)
    rw [UInt64.toNat_add]
    have hone : (1 : UInt64).toNat = 1 := rfl
    omega

/-! ## Ranges -/

/-- Walking through a range whose bounds are signed words gives its first integer, then integers each one step closer to the
last one, and that one at the end, as many as the bounds are apart and one more. The words on the way stand for these integers
without wrapping around, and as many of them are taken as are asked for. The length of the range is their number, or the largest
unsigned word if it is smaller. -/
theorem walker_exact {r : Range} {size : Nat} (hr : r.OfWords) (hsize : size < 2 ^ 63) :
    ∃ ws is, (r.walker size).Yields ws ∧ ws.map Int64.toInt = is ∧ (∀ n, r.take n size = is.take n) ∧
      is.head? = some (r.bounds size).1 ∧ is.IsChain (Closer (r.bounds size).2) ∧ is.getLast? = some (r.bounds size).2 ∧
      is.length = ((r.bounds size).2 - (r.bounds size).1).natAbs + 1 ∧
      (wordCount (Int64.ofInt (r.bounds size).1) (Int64.ofInt (r.bounds size).2)).toNat = min is.length (2 ^ 64 - 1) ∧
      r.length size = min is.length (2 ^ 64 - 1) := by
  obtain ⟨hfirst, hlast⟩ := hr.bounds hsize
  have hwalk : Walks (r.bounds size).1 (r.bounds size).2 (r.items size) := walks_steps _ _
  obtain ⟨ws, hyields, hmap⟩ := hwalk.yields hfirst.toInt_ofInt hlast.toInt_ofInt
  have htake : ∀ n, r.take n size = (r.items size).take n := fun n => by
    rw [← hmap, ← List.map_take]
    exact congrArg _ (hyields.take_eq n)
  have hcount := wordCount_eq (Int64.ofInt (r.bounds size).1) (Int64.ofInt (r.bounds size).2)
  rw [hfirst.toInt_ofInt, hlast.toInt_ofInt] at hcount
  refine ⟨ws, r.items size, hyields, hmap, htake, hwalk.isChain.1, hwalk.isChain.2, items_getLast? size r, items_length size r,
    ?_, ?_⟩
  · rw [hcount, items_length, count]
  · rw [items_length]
    rfl

/-- From the greatest word down to the last position of nothing. -/
theorem walker_exact_down : (startingAt 9223372036854775807).OfWords ∧ 0 < 2 ^ 63 ∧
    ∃ ws is, ((startingAt 9223372036854775807).walker 0).Yields ws ∧ ws.map Int64.toInt = is ∧
      is.getLast? = some (-1) ∧ is.length = 9223372036854775809 := by
  have hwords : (startingAt 9223372036854775807).OfWords := by
    show IsWord 9223372036854775807
    unfold IsWord
    omega
  obtain ⟨ws, is, hyields, hmap, -, -, -, hlast, hlength, -⟩ := walker_exact hwords (Nat.two_pow_pos 63)
  exact ⟨hwords, Nat.two_pow_pos 63, ws, is, hyields, hmap, hlast, hlength⟩

end ExprLang.Range
