import ExprLang.Token.Lexeme

/-!
# Lexemes on their own

What the text of a lexeme looks like, and that it is found again before any text that does not
continue it.

* `Numeral.read?_of_spelled`: a numeral that is spelled out is read with its parts.
* `front_number`: the text of a number lexeme is a whole numeral, so it has a value.
-/

namespace ExprLang

/-- Characters of a class are taken up to the first one that is not. -/
theorem Lexeme.whileAll_append {p : Char → Bool} {cs r : List Char} (hcs : ∀ c ∈ cs, p c = true)
    (hr : ∀ c ∈ r.head?, p c = false) : (cs ++ r).takeWhile p = cs ∧ (cs ++ r).dropWhile p = r := by
  rw [List.takeWhile_append_of_pos hcs, List.dropWhile_append_of_pos hcs]
  cases r with
  | nil => simp
  | cons c r => simp [hr c rfl]

/-! ## Numerals in parts -/

namespace Numeral

/-- At least one digit and nothing else. -/
def IsDigits (ds : List Char) : Prop := ds ≠ [] ∧ ∀ c ∈ ds, c.isDigit = true

def IsFraction (cs : List Char) : Prop := cs = [] ∨ ∃ ds, IsDigits ds ∧ cs = '.' :: ds

def IsExponent (cs : List Char) : Prop :=
  cs = [] ∨ ∃ c sg ds, (c = 'e' ∨ c = 'E') ∧ (sg = [] ∨ sg = ['+'] ∨ sg = ['-']) ∧ IsDigits ds ∧ cs = c :: (sg ++ ds)

def IsSign (sg : List Char) : Prop := sg = [] ∨ sg = ['+'] ∨ sg = ['-']

theorem isSign_nil : IsSign [] := .inl rfl

/-- No digit is in front. -/
def NoDigit (cs : List Char) : Prop := ∀ c ∈ cs.head?, c.isDigit = false

theorem IsExponent.noDigit_append {x r : List Char} (hx : IsExponent x) (hr : NoDigit r) : NoDigit (x ++ r) := by
  rcases hx with rfl | ⟨c, sg, ds, hc, _, _, rfl⟩
  · exact hr
  · rintro a ⟨⟩
    rcases hc with rfl | rfl <;> rfl

theorem IsFraction.noDigit_append {f r : List Char} (hf : IsFraction f) (hr : NoDigit r) : NoDigit (f ++ r) := by
  rcases hf with rfl | ⟨ds, _, rfl⟩
  · exact hr
  · rintro a ⟨⟩
    rfl

theorem digits_append_of {ds r : List Char} (hd : ∀ c ∈ ds, c.isDigit = true) (hr : NoDigit r) :
    digits (ds ++ r) = ds ∧ afterDigits (ds ++ r) = r := Lexeme.whileAll_append hd hr

theorem isDigits_digits {cs : List Char} (h : digits cs ≠ []) : IsDigits (digits cs) :=
  ⟨h, List.all_eq_true.1 List.all_takeWhile⟩

theorem isExponent_exponentText (cs : List Char) : IsExponent (exponentText cs).1 := by
  unfold exponentText
  split
  · exact .inl rfl
  · next c r =>
    split
    · next h =>
      refine .inr ⟨c, (sign r).1, digits (sign r).2, h.1, ?_, isDigits_digits h.2, rfl⟩
      unfold sign
      split <;> simp
    · exact .inl rfl

/-- A sign is found in front of what does not begin with one. -/
theorem sign_append_of_unsigned {sg r : List Char} (hs : IsSign sg) (hr : ∀ c ∈ r.head?, c ≠ '+' ∧ c ≠ '-') :
    sign (sg ++ r) = (sg, r) := by
  rcases hs with rfl | rfl | rfl
  · show sign r = _
    unfold sign
    split
    · exact absurd rfl (hr _ rfl).1
    · exact absurd rfl (hr _ rfl).2
    · rfl
  · rfl
  · rfl

theorem IsDigits.unsigned {ds : List Char} (hd : IsDigits ds) (r : List Char) :
    ∀ c ∈ (ds ++ r).head?, c ≠ '+' ∧ c ≠ '-' := by
  obtain ⟨d, ds, rfl⟩ := List.exists_cons_of_ne_nil hd.1
  have hdigit := hd.2 d List.mem_cons_self
  rintro c ⟨⟩
  constructor <;> (rintro rfl; cases hdigit)

theorem sign_append_of {sg ds r : List Char} (hs : IsSign sg) (hd : IsDigits ds) :
    sign (sg ++ ds ++ r) = (sg, ds ++ r) := by
  rw [List.append_assoc]
  exact sign_append_of_unsigned hs (hd.unsigned r)

/-- An exponent is found in front of what is neither a digit nor the beginning of an exponent. -/
theorem exponentText_append_of {x r : List Char} (hx : IsExponent x) (hr : NoDigit r)
    (he : ∀ c ∈ r.head?, c ≠ 'e' ∧ c ≠ 'E') : exponentText (x ++ r) = (x, r) := by
  rcases hx with rfl | ⟨c, sg, ds, hc, hs, hd, rfl⟩
  · cases r with
    | nil => rfl
    | cons c r =>
      obtain ⟨h₁, h₂⟩ := he c rfl
      simp [exponentText, h₁, h₂]
  · obtain ⟨h₁, h₂⟩ := digits_append_of hd.2 hr
    show exponentText (c :: (sg ++ ds ++ r)) = _
    rw [exponentText, sign_append_of hs hd, h₁, h₂, if_pos ⟨hc, hd.1⟩]

/-! ## Numerals from end to end -/

/-- The text of a decimal and its digits before and after the point. -/
inductive IsDecimal : List Char → List Char → List Char → Prop where
  | whole {ds : List Char} (hd : IsDigits ds) : IsDecimal ds ds []
  | pointed {ds : List Char} (hd : IsDigits ds) : IsDecimal (ds ++ ['.']) ds []
  | broken {ds fs : List Char} (hd : IsDigits ds) (hf : IsDigits fs) : IsDecimal (ds ++ '.' :: fs) ds fs
  | fraction {fs : List Char} (hf : IsDigits fs) : IsDecimal ('.' :: fs) [] fs

/-- A text is a numeral from end to end, with these parts. -/
inductive Spelled : List Char → Numeral → Prop where
  | parts {sg d ds fs x : List Char} (hs : IsSign sg) (hd : IsDecimal d ds fs) (hx : IsExponent x) :
      Spelled (sg ++ d ++ x) ⟨sg = ['-'], ds, fs, exponentValue x⟩

/-- A decimal does not begin with a sign. -/
theorem IsDecimal.unsigned {d ds fs : List Char} (h : IsDecimal d ds fs) (r : List Char) :
    ∀ c ∈ (d ++ r).head?, c ≠ '+' ∧ c ≠ '-' := by
  cases h with
  | whole hd => exact hd.unsigned r
  | pointed hd | broken hd _ =>
    rw [List.append_assoc]
    exact hd.unsigned _
  | fraction _ =>
    rintro c ⟨⟩
    decide

theorem noDigit_exponent {x : List Char} (hx : IsExponent x) : NoDigit x := by
  simpa using hx.noDigit_append (r := []) fun c hc => by cases hc

/-- An exponent does not begin with a point. -/
theorem pointText_exponent {x : List Char} (hx : IsExponent x) : pointText x = ([], x) := by
  rcases hx with rfl | ⟨c, sg, es, hc, _, _, rfl⟩
  · rfl
  · rcases hc with rfl | rfl <;> rfl

theorem read?_of_spelled {p : List Char} {n : Numeral} (h : Spelled p n) : read? p = some (n, []) := by
  obtain @⟨sg, d, ds, fs, x, hs, hd, hx⟩ := h
  have hsign : sign (sg ++ d ++ x) = (sg, d ++ x) := by
    rw [List.append_assoc]
    exact sign_append_of_unsigned hs (hd.unsigned x)
  have hnoDigit : NoDigit x := noDigit_exponent hx
  have hpointed : ∀ t, NoDigit ('.' :: t) := by rintro t c ⟨⟩; rfl
  have hexp : exponentText x = (x, []) := by
    simpa using exponentText_append_of hx (r := []) (fun c hc => by cases hc) (by simp)
  have hparts : digits (d ++ x) = ds ∧ pointText (afterDigits (d ++ x)) = (fs, x) ∧ ¬(ds = [] ∧ fs = []) := by
    cases hd with
    | whole hd =>
      obtain ⟨h₁, h₂⟩ := digits_append_of hd.2 hnoDigit
      refine ⟨h₁, ?_, fun h => hd.1 h.1⟩
      rw [h₂, pointText_exponent hx]
    | pointed hd =>
      obtain ⟨h₁, h₂⟩ := digits_append_of hd.2 (hpointed _)
      obtain ⟨h₃, h₄⟩ := digits_append_of (List.forall_mem_nil _) hnoDigit
      rw [List.append_assoc]
      refine ⟨h₁, ?_, fun h => hd.1 h.1⟩
      exact (congrArg pointText h₂).trans (Prod.ext h₃ h₄)
    | broken hd hf =>
      obtain ⟨h₁, h₂⟩ := digits_append_of hd.2 (hpointed _)
      obtain ⟨h₃, h₄⟩ := digits_append_of hf.2 hnoDigit
      rw [List.append_assoc]
      refine ⟨h₁, ?_, fun h => hd.1 h.1⟩
      exact (congrArg pointText h₂).trans (Prod.ext h₃ h₄)
    | fraction hf =>
      obtain ⟨h₃, h₄⟩ := digits_append_of hf.2 hnoDigit
      exact ⟨rfl, Prod.ext h₃ h₄, fun h => hf.1 h.2⟩
  obtain ⟨hwhole, hpoint, hsome⟩ := hparts
  unfold read?
  simp only [hsign, hwhole, hpoint, hexp]
  rw [if_neg hsome]

theorem value?_of_spelled {p : List Char} {n : Numeral} (h : Spelled p n) : value? p = some n.value := by
  rw [value?, read?_of_spelled h]

/-- Digits, a fraction and an exponent are a numeral without a sign. -/
theorem spelled_of_parts {ds f x : List Char} (hd : IsDigits ds) (hf : IsFraction f) (hx : IsExponent x) :
    ∃ n, Spelled (ds ++ f ++ x) n := by
  rcases hf with rfl | ⟨fs, hfs, rfl⟩
  · rw [List.append_nil]
    have hspelled := Spelled.parts isSign_nil (.whole hd) hx
    exact ⟨_, hspelled⟩
  · have hspelled := Spelled.parts isSign_nil (.broken hd hfs) hx
    exact ⟨_, hspelled⟩

end Numeral

namespace Lexeme

open Numeral

/-- A string ends in its quote. -/
theorem quoted_closed {quote : Char} {cs body rest : List Char} (h : quoted quote cs = some (body, rest)) :
    ∃ data, body = data ++ [quote] := by
  fun_induction quoted quote cs generalizing body rest with
  | case1 => cases h
  | case2 => cases h
  | case3 c r ih =>
    obtain ⟨⟨b, t⟩, hb, he⟩ := Option.map_eq_some_iff.1 h
    cases he
    obtain ⟨data, rfl⟩ := ih hb
    exact ⟨'\\' :: c :: data, rfl⟩
  | case4 =>
    cases h
    exact ⟨[], rfl⟩
  | case5 c r _ _ _ ih =>
    obtain ⟨⟨b, t⟩, hb, he⟩ := Option.map_eq_some_iff.1 h
    cases he
    obtain ⟨data, rfl⟩ := ih hb
    exact ⟨c :: data, rfl⟩

theorem isFraction_fraction (cs : List Char) : IsFraction (fraction cs).1 := by
  unfold fraction
  split
  · next c r =>
    split
    · next h => exact .inr ⟨_, isDigits_digits (by simp [digits, h]), rfl⟩
    · exact .inl rfl
  · exact .inl rfl

/-- A number in a text consists of digits, a fraction and an exponent. -/
theorem number_parts {c : Char} {r : List Char} (h : c.isDigit = true) :
    ∃ ds f x, (number (c :: r)).1 = ds ++ f ++ x ∧ IsDigits ds ∧ IsFraction f ∧ IsExponent x :=
  ⟨_, _, _, rfl, isDigits_digits (by simp [digits, h]), isFraction_fraction _, isExponent_exponentText _⟩

/-- What does not touch a number begins with no digit, no exponent and no fraction. -/
theorem apart_of_not_touching {r : List Char} (h : touchesNumber r = false) :
    NoDigit r ∧ (∀ c ∈ r.head?, c ≠ 'e' ∧ c ≠ 'E') ∧ fraction r = ([], r) := by
  unfold touchesNumber at h
  split at h
  · exact ⟨fun c hc => (by cases hc; rfl), fun c hc => (by cases hc; decide), rfl⟩
  · next c t _ =>
    obtain ⟨hdot, hword⟩ := Bool.or_eq_false_iff.1 h
    refine ⟨fun d hd => ?_, fun d hd => ?_, ?_⟩
    · cases hd
      cases hdigit : c.isDigit with
      | false => rfl
      | true => simp [isWordPart, Char.isAlphanum, hdigit] at hword
    · cases hd
      constructor <;> (rintro rfl; cases hword)
    · unfold fraction
      split
      · next he =>
        cases he
        cases hdot
      · rfl
  · exact ⟨fun c hc => (by cases hc), fun c hc => (by cases hc), rfl⟩

theorem fraction_append_of {f x r : List Char} (hf : IsFraction f) (hx : IsExponent x) (hr : touchesNumber r = false) :
    fraction (f ++ (x ++ r)) = (f, x ++ r) := by
  obtain ⟨hdigit, _, hfrac⟩ := apart_of_not_touching hr
  rcases hf with rfl | ⟨ds, hds, rfl⟩
  · rcases hx with rfl | ⟨c, sg, es, hc, _, _, rfl⟩
    · exact hfrac
    · rcases hc with rfl | rfl <;> rfl
  · obtain ⟨d, ds', rfl⟩ := List.exists_cons_of_ne_nil hds.1
    obtain ⟨h₁, h₂⟩ := digits_append_of hds.2 (hx.noDigit_append hdigit)
    rw [List.cons_append] at h₁ h₂
    show fraction ('.' :: d :: (ds' ++ (x ++ r))) = _
    rw [fraction, if_pos (hds.2 d List.mem_cons_self), h₁, h₂]

/-- Digits, a fraction and an exponent are found in front of what does not touch a number. -/
theorem number_append_of {ds f x r : List Char} (hd : IsDigits ds) (hf : IsFraction f) (hx : IsExponent x)
    (hr : touchesNumber r = false) : number (ds ++ f ++ x ++ r) = (ds ++ f ++ x, r) := by
  obtain ⟨hdigit, hexp, _⟩ := apart_of_not_touching hr
  obtain ⟨h₁, h₂⟩ := digits_append_of hd.2 (hf.noDigit_append (hx.noDigit_append hdigit))
  rw [List.append_assoc, List.append_assoc, List.append_assoc, number]
  simp only [h₁, h₂, fraction_append_of hf hx hr, exponentText_append_of hx hdigit hexp]
  rw [List.append_assoc]

/-- A lexeme begins with a quote, a digit, a letter or a sign. -/
theorem front_cases {cs rest : List Char} {l : Lexeme} (h : front cs = .lexeme l rest) : ∃ c r, cs = c :: r ∧
    (((c = '"' ∨ c = '\x27') ∧ ∃ body, quoted c r = some (body, rest) ∧ l = ⟨.string, c :: body⟩) ∨
      (c.isDigit = true ∧ number cs = (l.text, rest) ∧ touchesNumber rest = false ∧ l.kind = .number) ∨
      (isWordStart c = true ∧ l = ⟨wordKind (cs.takeWhile isWordPart), cs.takeWhile isWordPart⟩ ∧
        rest = cs.dropWhile isWordPart) ∨
      (sign? cs = some l ∧ rest = cs.drop l.text.length)) := by
  unfold front at h
  split at h
  · cases h
  · next c r =>
    refine ⟨c, r, rfl, ?_⟩
    split at h
    · next hc =>
      split at h <;> cases h
      next hq => exact .inl ⟨hc, _, hq, rfl⟩
    · split at h
      · next hd =>
        dsimp only at h
        split at h <;> cases h
        next ht => exact .inr (.inl ⟨hd, rfl, by simpa using ht, rfl⟩)
      · split at h
        · next hw =>
          cases h
          exact .inr (.inr (.inl ⟨hw, rfl, rfl⟩))
        · split at h <;> cases h
          next hs => exact .inr (.inr (.inr ⟨hs, rfl⟩))

/-- Only a text that has ended has no lexeme and no fault in front. -/
theorem eq_nil_of_front {cs : List Char} (h : front cs = .ended) : cs = [] := by
  unfold front at h
  split at h
  · rfl
  · exfalso
    repeat' split at h
    all_goals cases h

theorem wordKind_mem (cs : List Char) : wordKind cs ∈ [Token.Kind.boolean, .null, .name] := by
  unfold wordKind
  split
  · simp
  · split <;> simp

theorem wordKind_ne {k : Token.Kind} (hk : k ∉ [Token.Kind.boolean, .null, .name]) (cs : List Char) : wordKind cs ≠ k :=
  fun h => hk (h ▸ wordKind_mem cs)

theorem sign?_kind {cs : List Char} {l : Lexeme} (h : sign? cs = some l) : (l.text, l.kind) ∈ signs := by
  obtain ⟨x, hx, rfl⟩ := Option.map_eq_some_iff.1 h
  exact List.mem_of_find?_eq_some hx

/-- No text begins with the end of the input. -/
theorem kind_ne_of_front {cs rest : List Char} {l : Lexeme} (h : front cs = .lexeme l rest) : l.kind ≠ .endOfInput := by
  obtain ⟨c, r, rfl, ⟨_, _, _, rfl⟩ | ⟨_, _, _, hk⟩ | ⟨_, rfl, _⟩ | ⟨hs, _⟩⟩ := front_cases h
  · exact Token.Kind.noConfusion
  · rw [hk]
    exact Token.Kind.noConfusion
  · exact wordKind_ne (by decide) _
  · have hsigns : ∀ x ∈ signs, x.2 ≠ .endOfInput := by decide
    exact hsigns _ (sign?_kind hs)

/-- A number begins with a digit and is what is taken for one. -/
theorem front_number_cases {cs rest : List Char} {l : Lexeme} (h : front cs = .lexeme l rest) (hk : l.kind = .number) :
    ∃ c r, cs = c :: r ∧ c.isDigit = true ∧ number cs = (l.text, rest) ∧ touchesNumber rest = false := by
  obtain ⟨c, r, rfl, ⟨_, _, _, rfl⟩ | ⟨hd, hn, ht, _⟩ | ⟨_, rfl, _⟩ | ⟨hs, _⟩⟩ := front_cases h
  · cases hk
  · exact ⟨c, r, rfl, hd, hn, ht⟩
  · exact absurd hk (wordKind_ne (by decide) _)
  · have hsigns : ∀ x ∈ signs, x.2 ≠ .number := by decide
    exact absurd hk (hsigns _ (sign?_kind hs))

theorem front_number {cs rest : List Char} {l : Lexeme} (h : front cs = .lexeme l rest) (hk : l.kind = .number) :
    ∃ v, value? l.text = some v := by
  obtain ⟨c, r, rfl, hd, hn, _⟩ := front_number_cases h hk
  obtain ⟨ds, f, x, htext, hds, hf, hx⟩ := number_parts (r := r) hd
  have htext : l.text = ds ++ f ++ x := by rw [← htext, hn]
  obtain ⟨n, hspelled⟩ := spelled_of_parts hds hf hx
  rw [htext]
  exact ⟨_, value?_of_spelled hspelled⟩

end Lexeme

end ExprLang
