import ExprLang.Proofs.Positions
import ExprLang.Value.Convert

/-!
# The longest numeral

Reading takes the longest numeral (`Spelled`) off the front of a text. It goes part by part and never
gives back a digit, so the proof follows any numeral in front through the parts: what is left after
each part is the rest of that numeral with all that follows it, or lies behind it altogether
(`Behind`).

* `Numeral.read?_longest`: what is read is a prefix that is a numeral, and no longer prefix is one.
* `Value.convert_string_longest`: the number that a string converts to.
* `Scanner.run_numbers`: a number token of any source is a numeral, and as a string it converts to
  the number that the parser reads.
-/

namespace ExprLang

namespace Numeral

/-! ## Prefixes -/

/-- A sign, if any, and a decimal. -/
def IsMantissa (cs : List Char) : Prop := ∃ sg d ds fs, IsSign sg ∧ IsDecimal d ds fs ∧ cs = sg ++ d

/-- The text is in front of the other one, is a numeral and no longer text in front is one. -/
def Longest (p cs : List Char) (n : Numeral) : Prop :=
  p <+: cs ∧ Spelled p n ∧ ∀ q m, q <+: cs → Spelled q m → q.length ≤ p.length

theorem IsMantissa.spelled {cs : List Char} (h : IsMantissa cs) : ∃ n, Spelled cs n := by
  obtain ⟨sg, d, ds, fs, hs, hd, rfl⟩ := h
  have hspelled := Spelled.parts hs hd (x := []) (.inl rfl)
  rw [List.append_nil] at hspelled
  exact ⟨_, hspelled⟩

theorem Spelled.mantissa {cs : List Char} {n : Numeral} (h : Spelled cs n) : ∃ p, p <+: cs ∧ IsMantissa p := by
  obtain @⟨sg, d, ds, fs, x, hs, hd, hx⟩ := h
  exact ⟨sg ++ d, List.prefix_append _ _, sg, d, ds, fs, hs, hd, rfl⟩

/-! ## What is read is a numeral -/

theorem isSign_sign (cs : List Char) : IsSign (sign cs).1 := by
  unfold sign IsSign
  split <;> simp

theorem pointText_cases (cs : List Char) :
    (∃ r, cs = '.' :: r ∧ pointText cs = (digits r, afterDigits r)) ∨ pointText cs = ([], cs) := by
  unfold pointText
  split
  · exact .inl ⟨_, rfl, rfl⟩
  · exact .inr rfl

/-- Digits and what is taken at a point are a decimal, unless there is no digit. -/
theorem decimal_of_pointText {ds r : List Char} (hd : ∀ c ∈ ds, c.isDigit = true)
    (hsome : ¬(ds = [] ∧ (pointText r).1 = [])) : ∃ d, IsDecimal d ds (pointText r).1 ∧ d ++ (pointText r).2 = ds ++ r := by
  rcases pointText_cases r with ⟨t, rfl, hpoint⟩ | hpoint
  · rw [hpoint] at hsome ⊢
    have htext : '.' :: t = '.' :: digits t ++ afterDigits t := by rw [List.cons_append, digits_append]
    by_cases hdigits : digits t = []
    · have hds : IsDigits ds := ⟨fun h => hsome ⟨h, hdigits⟩, hd⟩
      refine ⟨ds ++ ['.'], hdigits ▸ .pointed hds, ?_⟩
      rw [htext, hdigits]
      simp
    · have hfs : IsDigits (digits t) := isDigits_digits hdigits
      by_cases hds : ds = []
      · subst hds
        exact ⟨'.' :: digits t, .fraction hfs, htext.symm⟩
      · refine ⟨ds ++ '.' :: digits t, .broken ⟨hds, hd⟩ hfs, ?_⟩
        rw [htext, List.append_assoc]
  · rw [hpoint] at hsome ⊢
    exact ⟨ds, .whole ⟨fun h => hsome ⟨h, rfl⟩, hd⟩, rfl⟩

theorem read?_spelled {cs rest : List Char} {n : Numeral} (h : read? cs = some (n, rest)) :
    ∃ p, p ++ rest = cs ∧ Spelled p n := by
  have hdigits : ∀ c ∈ digits (sign cs).2, c.isDigit = true := List.all_eq_true.1 List.all_takeWhile
  simp only [read?] at h
  split at h
  · cases h
  · next hsome =>
    obtain ⟨rfl, rfl⟩ := Prod.mk.inj (Option.some.inj h)
    obtain ⟨d, hd, htext⟩ := decimal_of_pointText hdigits hsome
    refine ⟨_, ?_, .parts (isSign_sign cs) hd (isExponent_exponentText _)⟩
    rw [List.append_assoc, exponentText_append, List.append_assoc, htext, digits_append, sign_append]

/-! ## No longer numeral is in front -/

/-- A text is an exponent and all that follows it, or if the exponent is empty, a part of what follows. -/
def Behind (x r t : List Char) : Prop := t = x ++ r ∨ (x = [] ∧ t <:+ r)

theorem afterDigits_suffix (cs : List Char) : afterDigits cs <:+ cs := List.dropWhile_suffix _

theorem behind_afterDigits {ds x : List Char} (hd : ∀ c ∈ ds, c.isDigit = true) (hx : IsExponent x) (r : List Char) :
    Behind x r (afterDigits (ds ++ (x ++ r))) := by
  have hdrop : afterDigits (ds ++ (x ++ r)) = afterDigits (x ++ r) := List.dropWhile_append_of_pos hd
  rw [hdrop]
  rcases hx with rfl | ⟨c, sg, es, hc, _, _, rfl⟩
  · exact .inr ⟨rfl, afterDigits_suffix r⟩
  · left
    rcases hc with rfl | rfl <;> rfl

theorem Behind.pointText {x r t : List Char} (hx : IsExponent x) (h : Behind x r t) : Behind x r (pointText t).2 := by
  have hsuffix : ∀ t, (Numeral.pointText t).2 <:+ t := by
    intro t
    rcases pointText_cases t with ⟨t, rfl, h⟩ | h
    · rw [h]
      exact (afterDigits_suffix t).trans (List.suffix_cons _ _)
    · exact ⟨[], congrArg Prod.snd h⟩
  rcases h with rfl | ⟨rfl, ht⟩
  · rcases hx with rfl | ⟨c, sg, es, hc, _, _, rfl⟩
    · exact .inr ⟨rfl, hsuffix r⟩
    · left
      rcases hc with rfl | rfl <;> rfl
  · exact .inr ⟨rfl, (hsuffix t).trans ht⟩

theorem digits_append_ne_nil {ds : List Char} (hd : IsDigits ds) (r : List Char) : digits (ds ++ r) ≠ [] := by
  rw [digits, List.takeWhile_append_of_pos hd.2]
  exact List.append_ne_nil_of_left_ne_nil hd.1 _

/-- An exponent is taken at least to its end. -/
theorem Behind.exponentText {x r t : List Char} (hx : IsExponent x) (h : Behind x r t) : (exponentText t).2 <:+ r := by
  have hsuffix : ∀ t, (Numeral.exponentText t).2 <:+ t := fun t => ⟨_, exponentText_append t⟩
  rcases h with rfl | ⟨rfl, ht⟩
  · rcases hx with rfl | ⟨c, sg, es, hc, hs, he, rfl⟩
    · exact hsuffix r
    · have hsign : sign (sg ++ (es ++ r)) = (sg, es ++ r) := by
        rw [← List.append_assoc]
        exact sign_append_of hs he
      have hdrop : afterDigits (es ++ r) = afterDigits r := List.dropWhile_append_of_pos he.2
      show (Numeral.exponentText (c :: (sg ++ es ++ r))).2 <:+ r
      rw [List.append_assoc, Numeral.exponentText, hsign, if_pos ⟨hc, digits_append_ne_nil he r⟩, hdrop]
      exact afterDigits_suffix r
  · exact (hsuffix t).trans ht

/-- When a text is read, nothing is left of a numeral in front of it. -/
theorem read?_append_of_spelled {q : List Char} {m : Numeral} (h : Spelled q m) (r : List Char) :
    ∃ n rest, read? (q ++ r) = some (n, rest) ∧ rest <:+ r := by
  obtain @⟨sg, d, ds, fs, x, hs, hd, hx⟩ := h
  have hsign : sign (sg ++ d ++ x ++ r) = (sg, d ++ (x ++ r)) := by
    rw [List.append_assoc, List.append_assoc]
    exact sign_append_of_unsigned hs (hd.unsigned _)
  have hparts : ¬(digits (d ++ (x ++ r)) = [] ∧ (pointText (afterDigits (d ++ (x ++ r)))).1 = []) ∧
      Behind x r (pointText (afterDigits (d ++ (x ++ r)))).2 := by
    -- digits before a point end there; digits at the end may go on
    have hpoint : ∀ {es fs : List Char}, IsDigits es →
        afterDigits (es ++ '.' :: fs ++ (x ++ r)) = '.' :: (fs ++ (x ++ r)) := by
      intro es fs he
      rw [List.append_assoc]
      exact (digits_append_of he.2 (by rintro c ⟨⟩; rfl)).2
    cases hd with
    | whole hd => exact ⟨fun h => digits_append_ne_nil hd _ h.1, (behind_afterDigits hd.2 hx r).pointText hx⟩
    | pointed hd =>
      refine ⟨fun h => digits_append_ne_nil hd _ (by rw [List.append_assoc] at h; exact h.1), ?_⟩
      rw [hpoint hd]
      exact behind_afterDigits (List.forall_mem_nil _) hx r
    | broken hd hf =>
      refine ⟨fun h => digits_append_ne_nil hd _ (by rw [List.append_assoc] at h; exact h.1), ?_⟩
      rw [hpoint hd]
      exact behind_afterDigits hf.2 hx r
    | fraction hf => exact ⟨fun h => digits_append_ne_nil hf _ h.2, behind_afterDigits hf.2 hx r⟩
  obtain ⟨hsome, hbehind⟩ := hparts
  unfold read?
  simp only [hsign]
  rw [if_neg hsome]
  exact ⟨_, _, rfl, hbehind.exponentText hx⟩

/-! ## Reading a text -/

/-- Reading takes the longest numeral in front and leaves what follows it. -/
theorem read?_longest {cs rest : List Char} {n : Numeral} (h : read? cs = some (n, rest)) :
    ∃ p, p ++ rest = cs ∧ Longest p cs n := by
  obtain ⟨p, rfl, hp⟩ := read?_spelled h
  refine ⟨p, rfl, List.prefix_append p rest, hp, fun q m ⟨r, hr⟩ hq => ?_⟩
  obtain ⟨n', rest', hread, hrest⟩ := read?_append_of_spelled hq r
  rw [hr, h] at hread
  cases hread
  have hlength := congrArg List.length hr
  have hle := hrest.length_le
  rw [List.length_append, List.length_append] at hlength
  omega

/-- Reading succeeds on the texts that begin with a mantissa. -/
theorem read?_isSome_iff {cs : List Char} : (∃ r, read? cs = some r) ↔ ∃ p, p <+: cs ∧ IsMantissa p := by
  constructor
  · rintro ⟨⟨n, rest⟩, h⟩
    obtain ⟨p, hp, hspelled⟩ := read?_spelled h
    obtain ⟨q, hq, hmantissa⟩ := hspelled.mantissa
    exact ⟨q, hq.trans ⟨rest, hp⟩, hmantissa⟩
  · rintro ⟨p, ⟨r, rfl⟩, hp⟩
    obtain ⟨m, hm⟩ := hp.spelled
    obtain ⟨n, rest, hread, _⟩ := read?_append_of_spelled hm r
    exact ⟨_, hread⟩

end Numeral

/-! ## Strings and tokens as numbers -/

open Numeral

theorem Value.convert_string (m : Option Nat) (s : String) : (⟨m, .string s⟩ : Value).convert .number =
    (⟨m, .string s⟩ : Value).orConversionError .number ((Number.leading? s).map number) := rfl

theorem Number.leading?_of_ne {s : String} (h : Text.trimStart s.toList ≠ []) :
    leading? s = (read? (Text.trimStart s.toList)).map fun r => r.1.value := by
  unfold leading?
  split
  · next hnil => exact absurd hnil h
  · rfl

/-- After white space, a blank string converts to zero, and any other string converts if it begins with a mantissa. It
converts to the number of the longest numeral in front, and that has one. -/
theorem Value.convert_string_longest (m : Option Nat) (s : String) :
    (Text.trimStart s.toList = [] → (⟨m, .string s⟩ : Value).convert .number = .ok (number 0)) ∧
    (Text.trimStart s.toList ≠ [] →
      ((∃ w, (⟨m, .string s⟩ : Value).convert .number = .ok w) ↔
        ∃ p, p <+: Text.trimStart s.toList ∧ IsMantissa p) ∧
      ∀ w, (⟨m, .string s⟩ : Value).convert .number = .ok w →
        ∃ p n, Longest p (Text.trimStart s.toList) n ∧ value? p = some n.value ∧ w = number n.value) := by
  rw [convert_string]
  constructor
  · intro hblank
    rw [Number.leading?, hblank]
    rfl
  · intro hrest
    rw [Number.leading?_of_ne hrest, ← read?_isSome_iff]
    cases hread : read? (Text.trimStart s.toList) with
    | none =>
      refine ⟨⟨?_, ?_⟩, ?_⟩
      · rintro ⟨w, ⟨⟩⟩
      · rintro ⟨r, ⟨⟩⟩
      · rintro w ⟨⟩
    | some r =>
      obtain ⟨n, rest⟩ := r
      refine ⟨⟨fun _ => ⟨_, rfl⟩, fun _ => ⟨_, rfl⟩⟩, ?_⟩
      rintro w ⟨⟩
      obtain ⟨p, _, hp⟩ := read?_longest hread
      exact ⟨p, n, hp, value?_of_spelled hp.2.1, rfl⟩

/-- A digit is no white space. -/
theorem Text.isBlank_digit {c : Char} (h : c.isDigit = true) : isBlank c = false := by
  have hdigit : 48 ≤ c.toNat ∧ c.toNat ≤ 57 := by simpa [Char.isDigit, UInt32.le_iff_toNat_le] using h
  have hapart : ∀ r ∈ blankRanges, r.2 < 48 ∨ 57 < r.1 := by decide
  refine List.any_eq_false.2 fun r hr hin => ?_
  simp only [Bool.and_eq_true, decide_eq_true_eq] at hin
  have hr := hapart r hr
  omega

/-- The text of a number lexeme is a numeral, and nothing is in front of its first digit. -/
theorem Lexeme.front_number_spelled {cs rest : List Char} {l : Lexeme} (h : front cs = .lexeme l rest)
    (hk : l.kind = .number) : (∃ n, Spelled l.data n) ∧ l.data ≠ [] ∧ Text.trimStart l.data = l.data := by
  obtain ⟨c, r, rfl, hd, hn, _⟩ := front_number_cases h hk
  obtain ⟨ds, f, x, htext, hds, hf, hx⟩ := number_parts (r := r) hd
  have hdata : l.data = ds ++ f ++ x := by
    have hne : l.kind ≠ .string := by rw [hk]; exact Token.Kind.noConfusion
    rw [← htext, hn, data, if_neg hne]
  obtain ⟨d, ds', rfl⟩ := List.exists_cons_of_ne_nil hds.1
  rw [hdata]
  refine ⟨spelled_of_parts hds hf hx, by simp, ?_⟩
  show List.dropWhile Text.isBlank (d :: (ds' ++ f ++ x)) = _
  exact List.dropWhile_cons_of_neg (by simp [Text.isBlank_digit (hds.2 d List.mem_cons_self)])

/-- A number token that a scanner emits is a numeral. The parser reads it as the number that the string of the same
characters converts to, and the conversion takes all of them. -/
theorem Scanner.run_numbers (text : String) (origin : Location) (os : List Operation) (t : Token)
    (ht : .token (.ok t) ∈ ((start text origin).run os).1) (hk : t.kind = .number) :
    ∃ n, Spelled t.data n ∧ t.number = .ok n.value ∧
      (∀ m, (⟨m, .string (String.ofList t.data)⟩ : Value).convert .number = .ok (.number n.value)) ∧
      read? (Text.trimStart t.data) = some (n, []) := by
  obtain ⟨d, _, ⟨l, rest, hl, rfl⟩ | ⟨_, rfl⟩⟩ := (run_reaches os (reachedFrom_start text origin)).2 t ht
  · obtain ⟨⟨n, hn⟩, hne, htrim⟩ := Lexeme.front_number_spelled hl hk
    have hread : read? (Text.trimStart l.data) = some (n, []) := htrim.symm ▸ read?_of_spelled hn
    refine ⟨n, hn, ?_, fun m => ?_, hread⟩
    · have hvalue : value? (d.token l).data = some n.value := value?_of_spelled hn
      rw [Token.number, hvalue]
    · have hleading : Number.leading? (String.ofList l.data) = some n.value := by
        rw [Number.leading?_of_ne (by rwa [String.toList_ofList, htrim]), String.toList_ofList, hread]
        rfl
      show (⟨m, .string (String.ofList l.data)⟩ : Value).convert .number = _
      rw [Value.convert_string, hleading]
      rfl
  · cases hk

/-- The number `2e3` in front of a range. -/
theorem Scanner.run_numbers_exponent :
    let t : Token := ⟨.number, "2e3".toList, 1, ⟨0, 1⟩⟩
    .token (.ok t) ∈ ((start "[2e3..x]" ⟨0, 0⟩).run [.next, .next]).1 ∧
      ∃ n, Spelled t.data n ∧ t.number = .ok n.value ∧
        (∀ m, (⟨m, .string (String.ofList t.data)⟩ : Value).convert .number = .ok (.number n.value)) ∧
        read? (Text.trimStart t.data) = some (n, []) := by
  have htoken : (.token (.ok ⟨.number, "2e3".toList, 1, ⟨0, 1⟩⟩)) ∈ ((start "[2e3..x]" ⟨0, 0⟩).run [.next, .next]).1 :=
    List.mem_cons_of_mem _ (List.mem_singleton.2 rfl)
  exact ⟨htoken, run_numbers _ _ _ _ htoken rfl⟩

end ExprLang
