import ExprLang.Proofs.Counting
import ExprLang.Proofs.Number.Whole
import ExprLang.Value.Access

/-!
# Access

An element is there if and only if it can be accessed. A subscript by a whole number gives what access to the element
gives, errors included (`subscript_eq_element`), and one by a text what access to the entry gives that takes undefined for a
missing one (`subscript_eq_entryOr`). `Value.access_agrees` compares all ways to a part of a value.
-/

namespace ExprLang.Value

open Number

variable {x d index key : Value} {i : Nat} {k : String} {place : Option Location}

/-- Access succeeds with what was found. -/
theorem locate_eq_ok_iff {found : Except Error (Option Value)} {text : String} {v : Value} :
    locate place (found >>= x.orOutOfBounds text) = .ok v ↔ found = .ok (some v) := by
  match found with
  | .ok (some _) => exact ⟨fun h => by cases h; rfl, fun h => by cases h; rfl⟩
  | .ok none | .error _ => exact ⟨fun h => (by cases h), fun h => (by cases h)⟩

/-! ## Elements -/

/-- Whether a value has positions. -/
def Positioned (x : Value) : Prop := x.kind = .string ∨ x.kind = .array

theorem exists_element? (h : x.Positioned) (i : Nat) : ∃ found, x.element? i = .ok found := by
  obtain ⟨m, c⟩ := x
  cases c with
  | string | array => exact ⟨_, rfl⟩
  | _ => simp [Positioned, kind, content] at h

theorem element?_refused (h : ¬x.Positioned) (i : Nat) :
    x.element? i = .error (.index none x.text x.kind (toString i) .number) := by
  obtain ⟨m, c⟩ := x
  cases c with
  | string | array => simp [Positioned, kind, content] at h
  | _ => rfl

theorem contains_iff : x.contains i = true ↔ ∃ v, x.element? i = .ok (some v) := by
  obtain ⟨m, c⟩ := x
  cases c with
  | string s =>
    show decide (i < s.length) = true ↔ ∃ v, Except.ok (Option.map _ s.toList[i]?) = Except.ok (some v)
    simp [String.length_toList.symm, List.getElem?_eq_some_iff]
  | array items =>
    show decide (i < items.length) = true ↔ ∃ v, Except.ok items[i]? = Except.ok (some v)
    simp [List.getElem?_eq_some_iff]
  | _ => simp [contains, element?, kind, content]

/-- A subscript by a whole number is access to the element. -/
theorem subscript_eq_element (origin : Value → Option Location) (hi : i < 2 ^ 53)
    (hindex : index.content = .number (Float.ofNat i)) : x.subscript origin index = x.element (origin x) i := by
  obtain ⟨m, c⟩ := x
  have hinteger : index.toInteger = .ok (i : Int) := by
    rw [toInteger, integer?, number?, hindex]
    show Except.ok (truncate (Float.ofNat i)) = _
    rw [(truncate_ofNat hi.le).1]
  have htext : index.text = toString i := by
    obtain ⟨n, _⟩ := index
    cases hindex
    exact text_ofNat hi
  have hkind : index.kind = .number := by rw [kind, hindex]
  cases c with
  | string s =>
    have hcounted : nth? s.toList (i : Int) = s.toList[i]? := rfl
    have hfound : element? ⟨m, .string s⟩ i = .ok (s.toList[i]?.map fun c => string c.toString) := rfl
    rw [(subscript_single origin (.inr hkind) hinteger).1 s rfl, htext, hcounted, element, hfound]
    cases s.toList[i]? <;> rfl
  | array items =>
    have hcounted : nth? items (i : Int) = items[i]? := rfl
    have hfound : element? ⟨m, .array items⟩ i = .ok items[i]? := rfl
    rw [(subscript_single origin (.inr hkind) hinteger).2 items rfl, htext, hcounted, element, hfound]
    cases items[i]? <;> rfl
  | _ =>
    rw [subscript, hindex, htext, hkind]
    rfl

/-! ## Entries -/

theorem containsKey_iff : x.containsKey k = true ↔ ∃ v, x.entry? k = .ok (some v) := by
  obtain ⟨m, c⟩ := x
  cases c with
  | map entries =>
    show Entries.contains entries k = true ↔ ∃ v, Except.ok (Entries.find? entries k) = Except.ok (some v)
    simp [Entries.contains, Option.isSome_iff_exists]
  | _ => simp [containsKey, entry?, content]

theorem exists_entry? (h : x.kind = .map) (k : String) : ∃ found, x.entry? k = .ok found := by
  obtain ⟨m, c⟩ := x
  cases c with
  | map => exact ⟨_, rfl⟩
  | _ => simp [kind, content] at h

theorem entry?_refused (h : x.kind ≠ .map) (k : String) :
    x.entry? k = .error (.index none x.text x.kind (Text.quote k) .string) := by
  obtain ⟨m, c⟩ := x
  cases c with
  | map => simp [kind, content] at h
  | _ => rfl

/-- A subscript by a text is access to the entry, which may be missing. -/
theorem subscript_eq_entryOr (origin : Value → Option Location) (hkey : key.content = .string k) :
    x.subscript origin key = x.entryOr (origin x) k undefined := by
  obtain ⟨m, c⟩ := x
  obtain ⟨n, _⟩ := key
  cases hkey
  cases c <;> rfl

/-! ## All ways of access -/

/-- An element is there if and only if access to it succeeds. In a string and in an array, access to an element, access
with a default and the subscript by its number then all find the same; if it is not there, access and subscript are out of
bounds, with the same texts, and the default stands in. Other values refuse a position. Entries of a map are accessed
likewise by their keys, but the subscript by a missing key is undefined. -/
theorem access_agrees (c : Context) (x d index key : Value) (hi : i < 2 ^ 53) (hindex : index.content = .number (Float.ofNat i))
    (hkey : key.content = .string k) :
    (x.contains i = true ↔ ∃ v, x.element (c.origin x) i = .ok v) ∧
    (x.Positioned → x.contains i = true → ∃ v, x.element (c.origin x) i = .ok v ∧
      x.elementOr (c.origin x) i d = .ok v ∧ x.subscript c.origin index = .ok v) ∧
    (x.Positioned → x.contains i = false →
      x.element (c.origin x) i = .error (.outOfBounds (c.origin x) x.text (toString i)) ∧
      x.elementOr (c.origin x) i d = .ok d ∧
      x.subscript c.origin index = .error (.outOfBounds (c.origin x) x.text (toString i))) ∧
    (¬x.Positioned → x.element (c.origin x) i = .error (.index (c.origin x) x.text x.kind (toString i) .number) ∧
      x.elementOr (c.origin x) i d = .error (.index (c.origin x) x.text x.kind (toString i) .number) ∧
      x.subscript c.origin index = .error (.index (c.origin x) x.text x.kind (toString i) .number)) ∧
    (x.containsKey k = true ↔ ∃ v, x.entry (c.origin x) k = .ok v) ∧
    (x.kind = .map → x.containsKey k = true → ∃ v, x.entry (c.origin x) k = .ok v ∧
      x.entryOr (c.origin x) k d = .ok v ∧ x.subscript c.origin key = .ok v) ∧
    (x.kind = .map → x.containsKey k = false →
      x.entry (c.origin x) k = .error (.outOfBounds (c.origin x) x.text (Text.quote k)) ∧
      x.entryOr (c.origin x) k d = .ok d ∧ x.subscript c.origin key = .ok undefined) ∧
    (x.kind ≠ .map → x.entry (c.origin x) k = .error (.index (c.origin x) x.text x.kind (Text.quote k) .string) ∧
      x.entryOr (c.origin x) k d = .error (.index (c.origin x) x.text x.kind (Text.quote k) .string) ∧
      x.subscript c.origin key = .error (.index (c.origin x) x.text x.kind (Text.quote k) .string)) := by
  refine ⟨?_, fun hx hin => ?_, fun hx hout => ?_, fun hx => ?_, ?_, fun hx hin => ?_, fun hx hout => ?_, fun hx => ?_⟩
  · simp only [contains_iff, element, locate_eq_ok_iff]
  · obtain ⟨v, hv⟩ := contains_iff.1 hin
    rw [subscript_eq_element c.origin hi hindex, element, elementOr, hv]
    exact ⟨v, rfl, rfl, rfl⟩
  · obtain ⟨found, hfound⟩ := exists_element? hx i
    cases found with
    | some v => rw [contains_iff.2 ⟨v, hfound⟩] at hout; cases hout
    | none =>
      rw [subscript_eq_element c.origin hi hindex, element, elementOr, hfound]
      exact ⟨rfl, rfl, rfl⟩
  · rw [subscript_eq_element c.origin hi hindex, element, elementOr, element?_refused hx]
    exact ⟨rfl, rfl, rfl⟩
  · simp only [containsKey_iff, entry, locate_eq_ok_iff]
  · obtain ⟨v, hv⟩ := containsKey_iff.1 hin
    rw [subscript_eq_entryOr c.origin hkey, entry, entryOr, entryOr, hv]
    exact ⟨v, rfl, rfl, rfl⟩
  · obtain ⟨found, hfound⟩ := exists_entry? hx k
    cases found with
    | some v => rw [containsKey_iff.2 ⟨v, hfound⟩] at hout; cases hout
    | none =>
      rw [subscript_eq_entryOr c.origin hkey, entry, entryOr, entryOr, hfound]
      exact ⟨rfl, rfl, rfl⟩
  · rw [subscript_eq_entryOr c.origin hkey, entry, entryOr, entryOr, entry?_refused hx]
    exact ⟨rfl, rfl, rfl⟩

/-- The last character of a text with a wide one, the character after it, and an entry that is missing. -/
theorem access_agrees_wide : 2 < 2 ^ 53 ∧ 3 < 2 ^ 53 ∧ (integer 2).content = .number (Float.ofNat 2) ∧
    (integer 3).content = .number (Float.ofNat 3) ∧ (string "k").content = .string "k" ∧
    (∃ v, (string "aßc").element none 2 = .ok v ∧ (string "aßc").elementOr none 2 null = .ok v ∧
      (string "aßc").subscript Context.empty.origin (integer 2) = .ok v) ∧
    (string "aßc").subscript Context.empty.origin (integer 3) = .error (.outOfBounds none "\"aßc\"" "3") ∧
    (map [("l", null)]).subscript Context.empty.origin (string "k") = .ok undefined := by
  have htwo : (2 : Nat) < 2 ^ 53 := by decide
  have hthree : (3 : Nat) < 2 ^ 53 := by decide
  obtain ⟨-, hin, -⟩ := access_agrees .empty (string "aßc") null (integer 2) (string "k") htwo rfl rfl
  obtain ⟨-, -, hout, -⟩ := access_agrees .empty (string "aßc") null (integer 3) (string "k") hthree rfl rfl
  obtain ⟨-, -, -, -, -, -, hmissing, -⟩ :=
    access_agrees .empty (map [("l", null)]) null (integer 2) (string "k") htwo rfl rfl
  exact ⟨htwo, hthree, rfl, rfl, rfl, hin (.inl rfl) (by decide), (hout (.inl rfl) (by decide)).2.2,
    (hmissing rfl (by decide)).2.2⟩

end ExprLang.Value
