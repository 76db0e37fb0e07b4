import ExprLang.Proofs.Lexemes
import ExprLang.Proofs.Number.Sign

/-!
# Texts of numbers as numerals

Behind its sign the text of a number is a numeral of digits and a point, or else the name of what has
no numeral: infinity and not-a-number.
-/

namespace ExprLang.Number

open Numeral

/-- Digits, and maybe a point and further digits. -/
def IsPlainNumeral (cs : List Char) : Prop := ∃ ds f, IsDigits ds ∧ IsFraction f ∧ cs = ds ++ f

theorem isDigits_toDigits (n : Nat) : IsDigits (Nat.toDigits 10 n) :=
  ⟨Nat.toDigits_ne_nil, fun _ hc => Nat.isDigit_of_mem_toDigits (by decide) (by decide) hc⟩

theorem isDigits_replicate_append {ds : List Char} (n : Nat) (h : IsDigits ds) :
    IsDigits (List.replicate n '0' ++ ds) := by
  refine ⟨fun he => h.1 (List.append_eq_nil_iff.1 he).2, List.forall_mem_append.2 ⟨fun c hc => ?_, h.2⟩⟩
  rw [List.eq_of_mem_replicate hc]
  rfl

theorem isDigits_append_replicate {ds : List Char} (n : Nat) (h : IsDigits ds) :
    IsDigits (ds ++ List.replicate n '0') := by
  refine ⟨fun he => h.1 (List.append_eq_nil_iff.1 he).1, List.forall_mem_append.2 ⟨h.2, fun c hc => ?_⟩⟩
  rw [List.eq_of_mem_replicate hc]
  rfl

theorem isDigits_take {ds : List Char} {n : Nat} (h : IsDigits ds) (hn : n ≠ 0) : IsDigits (ds.take n) :=
  ⟨fun he => (List.take_eq_nil_iff.1 he).elim hn h.1, fun c hc => h.2 c (List.mem_of_mem_take hc)⟩

theorem isDigits_drop {ds : List Char} {n : Nat} (h : IsDigits ds) (hn : n < ds.length) : IsDigits (ds.drop n) :=
  ⟨fun he => Nat.not_le.2 hn (List.drop_eq_nil_iff.1 he), fun c hc => h.2 c (List.mem_of_mem_drop hc)⟩

/-! ## Digits and their integers -/

theorem natural_toDigits (n : Nat) : natural (Nat.toDigits 10 n) = n := by
  have hdigits : Nat.ofDigitChars 10 (Nat.toDigits 10 n) 0 = n := Nat.ofDigitChars_ten_toDigits
  exact hdigits

theorem natural_append (ds fs : List Char) : natural (ds ++ fs) = 10 ^ fs.length * natural ds + natural fs := by
  have happend : natural (ds ++ fs) = Nat.ofDigitChars 10 fs (natural ds) := Nat.ofDigitChars_append 0
  rw [happend, Nat.ofDigitChars_eq_ofDigitChars_zero]
  rfl

theorem natural_replicate (n : Nat) : natural (List.replicate n '0') = 0 := by
  have hzero : Nat.ofDigitChars 10 (List.replicate n '0') 0 = 10 ^ n * 0 := Nat.ofDigitChars_replicate_zero
  exact hzero

/-! ## Decimals -/

/-- A decimal is written with digits before the point, and places behind it just if its exponent is negative. Together these are
its own digits, with zeros around them. -/
theorem positional_parts (d : Decimal) : ∃ ds fs, IsDigits ds ∧
    (fs = [] ∧ d.positional.toList = ds ∨ IsDigits fs ∧ d.positional.toList = ds ++ '.' :: fs) ∧
    fs.length = (-d.exponent).toNat ∧ natural (ds ++ fs) = d.digits * 10 ^ d.exponent.toNat := by
  have hdigits := isDigits_toDigits d.digits
  unfold Decimal.positional
  dsimp only
  split
  · next hplaces =>
    rw [String.toList_ofList]
    refine ⟨_, [], isDigits_append_replicate _ hdigits, .inl ⟨rfl, rfl⟩, hplaces.symm, ?_⟩
    rw [List.append_nil, natural_append, natural_replicate, natural_toDigits, List.length_replicate, Nat.add_zero, Nat.mul_comm]
  · next hplaces =>
    rw [String.toList_ofList]
    have hpadded := isDigits_replicate_append ((-d.exponent).toNat + 1 - (Nat.toDigits 10 d.digits).length) hdigits
    have hlength : (-d.exponent).toNat < (List.replicate ((-d.exponent).toNat + 1 - (Nat.toDigits 10 d.digits).length) '0' ++
        Nat.toDigits 10 d.digits).length := by
      rw [List.length_append, List.length_replicate]
      omega
    have hvalue : natural (List.replicate ((-d.exponent).toNat + 1 - (Nat.toDigits 10 d.digits).length) '0' ++
        Nat.toDigits 10 d.digits) = d.digits := by
      rw [natural_append, natural_replicate, natural_toDigits, Nat.mul_zero, Nat.zero_add]
    generalize List.replicate ((-d.exponent).toNat + 1 - (Nat.toDigits 10 d.digits).length) '0' ++
      Nat.toDigits 10 d.digits = padded at hpadded hlength hvalue
    have hexponent : d.exponent.toNat = 0 := by omega
    refine ⟨_, _, isDigits_take hpadded (by omega), .inr ⟨isDigits_drop hpadded (by omega), rfl⟩, ?_, ?_⟩
    · rw [List.length_drop]
      omega
    · rw [List.take_append_drop, hvalue, hexponent, Nat.pow_zero, Nat.mul_one]

theorem isPlainNumeral_positional (d : Decimal) : IsPlainNumeral d.positional.toList := by
  obtain ⟨ds, fs, hds, ⟨-, htext⟩ | ⟨hfs, htext⟩, -⟩ := positional_parts d
  · exact ⟨ds, [], hds, .inl rfl, by rw [htext, List.append_nil]⟩
  · exact ⟨ds, '.' :: fs, hds, .inr ⟨fs, hfs, rfl⟩, htext⟩

/-- The names of numbers without a numeral. -/
def names : List (List Char) := ["inf".toList, "NaN".toList]

/-- The text of a finite number is that of its sign and then a numeral. -/
theorem text_finite {x : Float} (h : x.isFinite = true) : ∃ body,
    (text x).toList = (signText (signOf (bits x))).toList ++ body ∧ IsPlainNumeral body := by
  have hsign : withSign (signOf (bits x)) x.toModel.unpack = x.toModel.unpack := withSign_unpack (bits x)
  have hfinite : x.toModel.unpack.isFinite = true := h
  unfold text
  cases hu : x.toModel.unpack with
  | notANumber | infinity => rw [hu] at hfinite; cases hfinite
  | zero s =>
    rw [hu] at hsign
    cases hsign
    have hzero : IsDigits ['0'] := ⟨List.cons_ne_nil _ _, List.forall_mem_singleton.2 rfl⟩
    exact ⟨['0'], String.toList_append .., _, [], hzero, .inl rfl, rfl⟩
  | finite s m e hm =>
    rw [hu] at hsign
    cases hsign
    dsimp only
    split
    · refine ⟨Nat.toDigits 10 (nearestWhole m e), ?_, _, [], isDigits_toDigits _, .inl rfl, (List.append_nil _).symm⟩
      rw [String.toList_append, Nat.toString_eq_repr, Nat.toList_repr]
    · exact ⟨_, String.toList_append .., isPlainNumeral_positional _⟩

/-- The text of any number is that of a sign and then a numeral or a name. -/
theorem text_parts (x : Float) : ∃ s body, (text x).toList = (signText s).toList ++ body ∧
    (IsPlainNumeral body ∨ body ∈ names) := by
  cases hx : x.isFinite with
  | true =>
    obtain ⟨body, htext, hbody⟩ := text_finite hx
    exact ⟨_, body, htext, .inl hbody⟩
  | false =>
    have hx : x.toModel.unpack.isFinite = false := hx
    unfold text
    cases hu : x.toModel.unpack with
    | notANumber => exact ⟨.positive, "NaN".toList, rfl, .inr (by decide)⟩
    | infinity s => exact ⟨s, "inf".toList, String.toList_append .., .inr (by decide)⟩
    | zero | finite => rw [hu] at hx; cases hx

namespace IsPlainNumeral

variable {cs : List Char} (h : IsPlainNumeral cs)

include h

/-- A numeral begins with a digit. -/
theorem head : ∃ c r, cs = c :: r ∧ c.isDigit = true := by
  obtain ⟨ds, f, hds, _, rfl⟩ := h
  obtain ⟨c, r, rfl⟩ := List.exists_cons_of_ne_nil hds.1
  exact ⟨c, r ++ f, rfl, hds.2 c List.mem_cons_self⟩

theorem chars : ∀ c ∈ cs, c.isDigit = true ∨ c = '.' := by
  obtain ⟨ds, f, hds, hf, rfl⟩ := h
  refine List.forall_mem_append.2 ⟨fun c hc => .inl (hds.2 c hc), ?_⟩
  rcases hf with rfl | ⟨es, hes, rfl⟩
  · exact fun _ h => absurd h List.not_mem_nil
  · exact List.forall_mem_cons.2 ⟨.inr rfl, fun c hc => .inl (hes.2 c hc)⟩

theorem value : ∃ y, value? cs = some y := by
  obtain ⟨ds, f, hds, hf, rfl⟩ := h
  obtain ⟨n, hspelled⟩ := spelled_of_parts hds hf (x := []) (.inl rfl)
  rw [List.append_nil] at hspelled
  exact ⟨_, value?_of_spelled hspelled⟩

/-- It is a number lexeme from end to end. -/
theorem front : Lexeme.front cs = .lexeme ⟨.number, cs⟩ [] := by
  obtain ⟨c, r, hcons, hdigit⟩ := h.head
  obtain ⟨ds, f, hds, hf, hparts⟩ := h
  have hnumber : Lexeme.number cs = (cs, []) := by
    have hall := Lexeme.number_append_of (r := []) hds hf (.inl rfl) rfl
    simpa only [List.append_nil, ← hparts] using hall
  have hquote : ¬ (c = '"' ∨ c = '\x27') := by rintro (rfl | rfl) <;> cases hdigit
  rw [hcons] at hnumber ⊢
  rw [Lexeme.front, if_neg hquote, if_pos hdigit, hnumber]
  rfl

end IsPlainNumeral

end ExprLang.Number
