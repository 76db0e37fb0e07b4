import ExprLang.Proofs.Number.Distance
import ExprLang.Proofs.Number.Longest
import ExprLang.Proofs.Number.Numerals
import ExprLang.Proofs.Printing.Values

/-!
# Numbers read back from their texts

Behind its sign the text of a number is that of its nearest whole number or of the shortest decimal in its interval
(`text_denotes`). Reading takes all of it (`Denotes.leading?`) and goes to the number in whose interval the decimal lies, so a number
is lost only if it is close to a whole one and is not whole itself (`Value.convert_text`). All others are the numbers that a text
expresses in a source (`expressible_iff_not_close`).
-/

namespace ExprLang

namespace Number

open Numeral
open Float.Model (UnpackedFloat)
open Float.Model.UnpackedFloat

/-! ## Signs -/

/-- A number with a sign in front. -/
def applySign : Sign → Float → Float
  | .positive, x => x
  | .negative, x => -x

variable {x : Float}

/-- A sign in front of a number without one becomes its sign bit. -/
theorem bits_applySign (hx : x.isFinite = true) (hs : signOf (bits x) = .positive) (s : Sign) :
    bits (applySign s x) = signed s (bits x) := by
  cases s with
  | positive =>
    show bits x = _
    rw [← hs, signed_signOf]
  | negative =>
    show bits (-x) = _
    have habs := bits_neg_abs hx
    rwa [abs_of_positive hx hs] at habs

theorem applySign_abs (hx : x.isFinite = true) : applySign (signOf (bits x)) x.abs = x := by
  cases hs : signOf (bits x) with
  | positive => exact abs_of_positive hx hs
  | negative => exact neg_abs_of_negative hx hs

/-- It does not change the distance from zero. -/
theorem magnitude_applySign {m : Nat} {e : Int} {h : 0 < m} (hx : x.toModel.unpack = .finite .positive m e h) (s : Sign) :
    magnitude (applySign s x) = magnitude x ∧ signOf (bits (applySign s x)) = s := by
  have hbits := bits_applySign (isFinite_of_unpack hx) (signOf_of_unpack hx) s
  have hunpack : (applySign s x).toModel.unpack = .finite s m e h := by
    show unpack .binary64 (bits (applySign s x)) = _
    have hx : unpack .binary64 (bits x) = .finite .positive m e h := hx
    rw [hbits, unpack_signed, hx]
    rfl
  exact ⟨by rw [magnitude_of_unpack hunpack, magnitude_of_unpack hx], signOf_of_unpack hunpack⟩

theorem magnitude_applySign_ofNat (s : Sign) {w : Nat} (hw : w < 2 ^ 53) :
    magnitude (applySign s (Float.ofNat w)) = w ∧ signOf (bits (applySign s (Float.ofNat w))) = s := by
  by_cases hzero : w = 0
  · subst hzero
    have hunpack : (applySign s (Float.ofNat 0)).toModel.unpack = .zero s := by cases s <;> rfl
    refine ⟨(magnitude_of_zero hunpack).trans Nat.cast_zero.symm, ?_⟩
    cases s <;> rfl
  · obtain ⟨k, hfull, hk⟩ := exists_full hzero hw
    have hunpack := unpack_ofNat hw hfull hk
    have hsigned := magnitude_applySign hunpack s
    rwa [magnitude_of_unpack hunpack, full_value] at hsigned

/-! ## Texts without a sign -/

/-- Digits, and maybe a point and further digits, whose decimal is rounded to the number. -/
def Denotes (body : List Char) (z : Float) : Prop := ∃ ds fs, IsDigits ds ∧
  (fs = [] ∧ body = ds ∨ IsDigits fs ∧ body = ds ++ '.' :: fs) ∧
  z = Float.ofScientific (natural (ds ++ fs)) (decide (-(fs.length : Int) < 0)) (-(fs.length : Int)).natAbs

theorem denotes_whole (w : Nat) : Denotes (toString w).toList (Float.ofNat w) := by
  refine ⟨_, [], isDigits_toDigits w, .inl ⟨rfl, ?_⟩, ?_⟩
  · rw [Nat.toString_eq_repr, Nat.toList_repr]
  · rw [List.append_nil, natural_toDigits]
    rfl

/-- The shortest decimal in the interval of a number is rounded to that number. -/
theorem denotes_shortest {m : Nat} {e : Int} {h : 0 < m} (hx : x.toModel.unpack = .finite .positive m e h) :
    Denotes (shortest m e).positional.toList x := by
  obtain ⟨hc, he⟩ := canonical_of_unpack hx
  obtain ⟨hround, hlow, hhigh⟩ := shortest_roundsTo hc he
  obtain ⟨ds, fs, hds, hbody, hlength, hnatural⟩ := positional_parts (shortest m e)
  have hvalue : ((natural (ds ++ fs) : Nat) : ℚ) * 10 ^ (-(fs.length : Int)) =
      (shortest m e).digits * 10 ^ (shortest m e).exponent := by
    have hexponent : (shortest m e).exponent = (shortest m e).exponent.toNat + -(fs.length : Int) := by omega
    rw [hnatural, hexponent, zpow_add₀ (by norm_num), zpow_natCast, ← hexponent]
    push_cast
    ring
  rw [← hvalue] at hround
  exact ⟨ds, fs, hds, hbody, (ofScientific_eq hx hround (by omega)).symm⟩

/-- Behind a sign it is a numeral from end to end. -/
theorem Denotes.read? {body : List Char} {z : Float} (h : Denotes body z) (s : Sign) :
    ∃ n : Numeral, Numeral.read? ((signText s).toList ++ body) = some (n, []) ∧ n.value = applySign s z := by
  obtain ⟨ds, fs, hds, hbody, rfl⟩ := h
  have hdecimal : IsDecimal body ds fs := by
    rcases hbody with ⟨rfl, rfl⟩ | ⟨hfs, rfl⟩
    · exact .whole hds
    · exact .broken hds hfs
  have hsign : IsSign (signText s).toList := by cases s <;> simp [IsSign, signText]
  have hspelled := Spelled.parts hsign hdecimal (x := []) (.inl rfl)
  rw [List.append_nil] at hspelled
  refine ⟨_, read?_of_spelled hspelled, ?_⟩
  unfold Numeral.value
  dsimp only [exponentValue]
  rw [Int.zero_sub]
  cases s <;> rfl

theorem Denotes.value? {body : List Char} {z : Float} (h : Denotes body z) : Numeral.value? body = some z := by
  obtain ⟨n, hread, hvalue⟩ := h.read? .positive
  have hread : Numeral.read? body = some (n, []) := hread
  rw [Numeral.value?, hread]
  exact congrArg some hvalue

theorem Denotes.head {body : List Char} {z : Float} (h : Denotes body z) : ∃ c r, body = c :: r ∧ c.isDigit = true := by
  obtain ⟨ds, fs, hds, hbody, -⟩ := h
  obtain ⟨d, ds, rfl⟩ := List.exists_cons_of_ne_nil hds.1
  have hdigit := hds.2 d List.mem_cons_self
  rcases hbody with ⟨rfl, rfl⟩ | ⟨hfs, rfl⟩
  · exact ⟨d, ds, rfl, hdigit⟩
  · exact ⟨d, ds ++ '.' :: fs, rfl, hdigit⟩

/-- Neither a digit nor the minus sign is blank. -/
theorem Denotes.trimStart {body : List Char} {z : Float} (h : Denotes body z) (s : Sign) :
    Text.trimStart ((signText s).toList ++ body) = (signText s).toList ++ body ∧ (signText s).toList ++ body ≠ [] := by
  obtain ⟨c, r, hcons, hblank⟩ : ∃ c r, (signText s).toList ++ body = c :: r ∧ Text.isBlank c = false := by
    cases s with
    | positive =>
      obtain ⟨c, r, rfl, hdigit⟩ := h.head
      exact ⟨c, r, rfl, Text.isBlank_digit hdigit⟩
    | negative => exact ⟨'-', body, rfl, by decide⟩
  rw [hcons]
  exact ⟨List.dropWhile_cons_of_neg (by simp [hblank]), List.cons_ne_nil c r⟩

theorem Denotes.leading? {body : List Char} {z : Float} (h : Denotes body z) (s : Sign) :
    Number.leading? (String.ofList ((signText s).toList ++ body)) = some (applySign s z) := by
  obtain ⟨n, hread, hvalue⟩ := h.read? s
  obtain ⟨htrim, hne⟩ := h.trimStart s
  rw [leading?_of_ne (by rwa [String.toList_ofList, htrim]), String.toList_ofList, htrim, hread]
  exact congrArg some hvalue

/-! ## The text of a number -/

/-- The whole number closest to the absolute value, a half going up. -/
def IsNearestWhole (w : Nat) (x : Float) : Prop := (w : ℚ) - 1 / 2 ≤ magnitude x ∧ magnitude x < w + 1 / 2

/-- The absolute value is less than a hundred-thousandth away. -/
def CloseTo (w : Nat) (x : Float) : Prop := |magnitude x - w| < magnitude 0.00001

/-- Behind its sign the text of a finite number denotes the absolute value, unless that is not whole and close to a whole number:
then it denotes the whole number. -/
theorem text_denotes (hx : x.isFinite = true) : ∃ (body : List Char) (z : Float) (w : Nat),
    text x = String.ofList ((signText (signOf (bits x))).toList ++ body) ∧ Denotes body z ∧ IsNearestWhole w x ∧
      (magnitude x = w ∨ ¬ CloseTo w x → z = x.abs) ∧ (magnitude x ≠ w → CloseTo w x → z = Float.ofNat w ∧ w < 2 ^ 53) := by
  have hfinite : x.toModel.unpack.isFinite = true := hx
  have htoList : ∀ s (t : String), signText s ++ t = String.ofList ((signText s).toList ++ t.toList) := fun s t => by
    rw [← String.toList_append, String.ofList_toList]
  cases hu : x.toModel.unpack with
  | notANumber | infinity s =>
    rw [hu] at hfinite
    cases hfinite
  | zero s =>
    have hsign : signOf (bits x) = s := by
      have hown : withSign (signOf (bits x)) x.toModel.unpack = x.toModel.unpack := withSign_unpack (bits x)
      rw [hu] at hown
      injection hown
    have hzero : Float.ofNat 0 = x.abs := by
      rw [← ofModel_pack_unpack hx, hu]
      cases s <;> decide +kernel
    have hmagnitude : magnitude x = (0 : Nat) := (magnitude_of_zero hu).trans Nat.cast_zero.symm
    refine ⟨_, _, 0, ?_, denotes_whole 0, ?_, fun _ => hzero, fun hwhole => absurd hmagnitude hwhole⟩
    · rw [text, hu, hsign]
      exact htoList s "0"
    · rw [IsNearestWhole, hmagnitude]
      norm_num
  | finite s m e h =>
    have habs := unpack_abs_finite hu
    have hnearest : IsNearestWhole (nearestWhole m e) x := by
      rw [IsNearestWhole, magnitude_of_unpack hu]
      exact nearestWhole_bounds m e
    have hnear : _ ↔ CloseTo (nearestWhole m e) x := near_iff hu
    rw [signOf_of_unpack hu]
    by_cases hclose : (x.abs - ofInteger (nearestWhole m e)).abs < 0.00001
    · refine ⟨_, _, nearestWhole m e, ?_, denotes_whole (nearestWhole m e), hnearest, fun h => ?_, fun hwhole _ => ⟨rfl, ?_⟩⟩
      · rw [text, hu, ← htoList]
        exact if_pos hclose
      · have hwhole : magnitude x = nearestWhole m e := h.resolve_right (not_not.2 (hnear.1 hclose))
        rw [magnitude_of_unpack hu] at hwhole
        exact ofNat_eq habs hwhole.symm
      · rw [magnitude_of_unpack hu] at hwhole
        exact ((nearestWhole_cases (canonical_of_unpack hu).1).resolve_left (Ne.symm hwhole)).1
    · refine ⟨_, _, nearestWhole m e, ?_, denotes_shortest habs, hnearest, fun _ => rfl, fun _ h => absurd (hnear.2 h) hclose⟩
      rw [text, hu, ← htoList]
      exact if_neg hclose

/-! ## The numbers that a text expresses -/

theorem IsNearestWhole.unique {v w : Nat} (hv : IsNearestWhole v x) (hw : IsNearestWhole w x) : v = w := by
  have hle : (v : ℚ) < w + 1 := by linarith [hv.1, hw.2]
  have hge : (w : ℚ) < v + 1 := by linarith [hw.1, hv.2]
  have hle : v < w + 1 := by exact_mod_cast hle
  have hge : w < v + 1 := by exact_mod_cast hge
  omega

/-- A text expresses the whole numbers and all that are not close to one. -/
theorem expressible_iff_not_close : Expressible x ↔
    x.isFinite = true ∧ ∃ w, IsNearestWhole w x ∧ (magnitude x = w ∨ ¬ CloseTo w x) := by
  rw [expressible_iff]
  refine and_congr_right fun hx => ?_
  obtain ⟨body, z, w, htext, hbody, hnearest, hfar, hclose⟩ := text_denotes hx
  have hvalue : Numeral.value? ((text x).toList.dropWhile (· == '-')) = some z := by
    obtain ⟨c, r, rfl, hdigit⟩ := hbody.head
    have hdrop : (c :: r).dropWhile (· == '-') = c :: r := List.dropWhile_cons_of_neg fun h => by
      rw [beq_iff_eq.1 h] at hdigit
      cases hdigit
    rw [htext, String.toList_ofList, ← hbody.value?]
    cases signOf (bits x) with
    | positive => exact congrArg _ hdrop
    | negative => exact congrArg _ hdrop
  rw [hvalue, Option.some_inj]
  constructor
  · intro hself
    refine ⟨w, hnearest, ?_⟩
    by_contra hlost
    obtain ⟨hne, hnear⟩ := not_or.1 hlost
    obtain ⟨rfl, hw⟩ := hclose hne (not_not.1 hnear)
    have hwhole : magnitude (Float.ofNat w) = w := (magnitude_applySign_ofNat .positive hw).1
    rw [hself, magnitude_abs hx] at hwhole
    exact hne hwhole
  · rintro ⟨v, hv, hkept⟩
    obtain rfl := hv.unique hnearest
    exact hfar hkept

end Number

open Number

/-- A finite number converts to a string, which is its description, and that string to a number again: to the same one if it is
whole or is not close to a whole number, and otherwise to that whole number with its sign. -/
theorem Value.convert_text {v : Value} {x : Float} (hv : v.content = .number x) (hx : x.isFinite = true) :
    ∃ (y : Float) (w : Nat), v.convert .string = .ok (string v.text) ∧ (string v.text).convert .number = .ok (number y) ∧
      IsNearestWhole w x ∧ (magnitude x = w ∨ ¬ CloseTo w x → y = x) ∧
      (magnitude x ≠ w → CloseTo w x → magnitude y = w ∧ signOf (bits y) = signOf (bits x)) := by
  obtain ⟨body, z, w, htext, hbody, hnearest, hfar, hclose⟩ := text_denotes hx
  obtain ⟨mark, content⟩ := v
  cases hv
  refine ⟨applySign (signOf (bits x)) z, w, rfl, ?_, hnearest, fun h => ?_, fun hwhole h => ?_⟩
  · have hdescription : (⟨mark, .number x⟩ : Value).text = Number.text x := rfl
    show (⟨none, .string _⟩ : Value).convert .number = _
    rw [convert_string, hdescription, htext, hbody.leading?]
    rfl
  · rw [hfar h, applySign_abs hx]
  · obtain ⟨rfl, hw⟩ := hclose hwhole h
    exact magnitude_applySign_ofNat _ hw

/-- The number nearest to a tenth is not a tenth, but that is its text. -/
theorem Value.convert_text_tenth : (number 0.1).content = .number 0.1 ∧ (0.1 : Float).isFinite = true ∧
    (number 0.1).convert .string = .ok (string "0.1") ∧ (string "0.1").convert .number = .ok (number 0.1) := by
  have hfinite : (0.1 : Float).isFinite = true := by decide +kernel
  have htext : (number 0.1).text = "0.1" := by
    show Number.text 0.1 = "0.1"
    decide +kernel
  obtain ⟨y, w, hconvert, hread, hnearest, hsame, -⟩ := convert_text (v := number 0.1) rfl hfinite
  have htenth : magnitude 0.1 = 7205759403792794 * 2 ^ (-56 : Int) := by
    have hunpack : ∃ h, (0.1 : Float).toModel.unpack = .finite .positive 7205759403792794 (-56) h := ⟨by decide, rfl⟩
    obtain ⟨h, hunpack⟩ := hunpack
    exact magnitude_of_unpack hunpack
  have hbound : magnitude 0.00001 = 5902958103587057 * 2 ^ (-69 : Int) := by
    have hunpack : ∃ h, (0.00001 : Float).toModel.unpack = .finite .positive 5902958103587057 (-69) h := ⟨by decide, rfl⟩
    obtain ⟨h, hunpack⟩ := hunpack
    exact magnitude_of_unpack hunpack
  have hzero : w = 0 := by
    have hlt : (w : ℚ) < 1 := by
      have hlow := hnearest.1
      rw [htenth] at hlow
      norm_num at hlow
      linarith
    exact Nat.lt_one_iff.1 (by exact_mod_cast hlt)
  have hfar : ¬ CloseTo w 0.1 := by
    rw [CloseTo, hzero, htenth, hbound]
    norm_num
  rw [hsame (.inr hfar), htext] at hread
  rw [htext] at hconvert
  exact ⟨rfl, hfinite, hconvert, hread⟩

/-- A number close to a whole one is not read back from its text. -/
theorem Value.convert_text_near : ¬ ∀ (x y : Float) (s : String), x.isFinite = true →
    (number x).convert .string = .ok (string s) → (string s).convert .number = .ok (number y) → y = x := by
  intro hsame
  have htext : (number 1.000001).convert .string = .ok (string "1") := by
    have htext : Number.text 1.000001 = "1" := by decide +kernel
    show Except.ok (string (Number.text 1.000001)) = _
    rw [htext]
  have hread : (string "1").convert .number = .ok (number 1) := by
    have hread : Number.leading? "1" = some 1 := by decide +kernel
    show (⟨none, .string "1"⟩ : Value).convert .number = _
    rw [convert_string, hread]
    rfl
  have heq := hsame 1.000001 1 "1" (by decide +kernel) htext hread
  exact absurd heq (by decide +kernel)

end ExprLang
