import ExprLang.Proofs.Bare.Value
import ExprLang.Value.Compare

/-!
# Comparison without marks

The order of two values depends on their bare values only (`compare_bare`). Sorting the entries of
every map commutes with taking marks off (`sortKeys_bare`), so the two walks go through the same
pairs of parts.
-/

namespace ExprLang

namespace Value

/-! ## Leaves -/

@[simp] theorem isScalar_bare (v : Value) : v.bare.isScalar = v.isScalar := by simp [isScalar]

theorem compareScalars_bare {v w : Value} (hv : v.isScalar = true) (hw : w.isScalar = true) :
    v.bare.compareScalars w.bare = v.compareScalars w := by
  obtain ⟨m, c⟩ := v
  obtain ⟨n, d⟩ := w
  cases c with
  | boolean | string | number =>
    cases d with
    | boolean | string | number => rfl
    | _ => simp [isScalar, kind, content] at hw
  | _ => simp [isScalar, kind, content] at hv

theorem compareLeaves_bare (v w : Value) : v.bare.compareLeaves w.bare = v.compareLeaves w := by
  unfold compareLeaves
  simp only [kind_bare, isScalar_bare]
  cases h : v.isScalar && w.isScalar with
  | false => simp
  | true =>
    rw [Bool.and_eq_true] at h
    rw [compareScalars_bare h.1 h.2]

end Value

/-! ## Sorting -/

mutual

theorem Value.sortKeys_bare : ∀ v : Value, v.bare.sortKeys = v.sortKeys.bare
  | ⟨_, .array items⟩ => by
    rw [Value.bare, Value.sortKeys, Value.sortKeys, Value.bare, sortKeysItems_bare items]
  | ⟨_, .map entries⟩ => by
    rw [Value.bare, Value.sortKeys, Value.sortKeys, Value.bare, sortKeysEntries_bare entries]
    simp only [bareEntries_eq, Entries.sorted_mapValues]
  | ⟨_, .boolean _⟩ | ⟨_, .string _⟩ | ⟨_, .number _⟩ | ⟨_, .range _⟩ | ⟨_, .null⟩ | ⟨_, .undefined⟩ => rfl

theorem sortKeysItems_bare : ∀ vs : List Value, sortKeysItems (bareItems vs) = bareItems (sortKeysItems vs)
  | [] => rfl
  | v :: vs => by
    rw [bareItems, sortKeysItems, sortKeysItems, bareItems, Value.sortKeys_bare v, sortKeysItems_bare vs]

theorem sortKeysEntries_bare : ∀ es : List (String × Value),
    sortKeysEntries (bareEntries es) = bareEntries (sortKeysEntries es)
  | [] => rfl
  | (k, v) :: es => by
    rw [bareEntries, sortKeysEntries, sortKeysEntries, bareEntries, Value.sortKeys_bare v, sortKeysEntries_bare es]

end

/-! ## The walk through two values -/

theorem lexicographic_bare (ws : List Value) : ∀ vs : List Value,
    lexicographic Value.compareLeaves (vs.map Value.bare) (ws.map Value.bare) =
      lexicographic Value.compareLeaves vs ws := by
  induction ws with
  | nil => rintro (_ | ⟨v, vs⟩) <;> rfl
  | cons w ws ih =>
    rintro (_ | ⟨v, vs⟩)
    · rfl
    · simp only [List.map_cons, lexicographic, Value.compareLeaves_bare, ih]

/-- Whether a value is compared item by item. -/
def Value.isRun : Value → Bool
  | ⟨_, .array _⟩ | ⟨_, .range (.between _ _)⟩ => true
  | _ => false

/-- Whether two values are compared part by part. -/
def Value.meets (v w : Value) : Bool := v.isRun && w.isRun || v.kind == .map && w.kind == .map

theorem Value.compareSorted_of_not_meets {v w : Value} (h : v.meets w = false) :
    v.compareSorted w = v.compareLeaves w := by
  unfold compareSorted
  split
  case h_6 => rfl
  all_goals simp [meets, isRun, kind, content] at h

@[simp] theorem Value.isRun_bare (v : Value) : v.bare.isRun = v.isRun := by
  obtain ⟨m, c⟩ := v
  cases c with
  | range r => cases r <;> rfl
  | _ => rfl

theorem Value.compareSorted_bare_of_not_meets {v w : Value} (h : v.meets w = false) :
    v.bare.compareSorted w.bare = v.compareSorted w := by
  have hb : v.bare.meets w.bare = false := by simpa [meets] using h
  rw [compareSorted_of_not_meets h, compareSorted_of_not_meets hb, compareLeaves_bare]

mutual

theorem Value.compareSorted_bare : ∀ v w : Value, v.bare.compareSorted w.bare = v.compareSorted w
  | ⟨_, .array l⟩, ⟨_, d⟩ => by
    cases d with
    | array r => simp only [Value.bare, Value.compareSorted, compareItems_bare l r]
    | range r =>
      cases r with
      | between a b =>
        have h := compareItems_bare l (Value.integers a b)
        rw [bareItems_eq (Value.integers a b), Value.map_bare_integers] at h
        simp only [Value.bare, Value.compareSorted, h]
      | _ => exact Value.compareSorted_bare_of_not_meets rfl
    | _ => exact Value.compareSorted_bare_of_not_meets rfl
  | ⟨_, .range r⟩, ⟨_, d⟩ => by
    cases r with
    | between a b =>
      cases d with
      | array r =>
        have h := lexicographic_bare r (Value.integers a b)
        rw [Value.map_bare_integers, ← bareItems_eq] at h
        simp only [Value.bare, Value.compareSorted, h]
      | range s =>
        cases s with
        | between => rfl
        | _ => exact Value.compareSorted_bare_of_not_meets rfl
      | _ => exact Value.compareSorted_bare_of_not_meets rfl
    | _ => exact Value.compareSorted_bare_of_not_meets rfl
  | ⟨_, .map l⟩, ⟨_, d⟩ => by
    cases d with
    | map r => simp only [Value.bare, Value.compareSorted, compareEntries_bare l r]
    | _ => exact Value.compareSorted_bare_of_not_meets rfl
  | ⟨_, .boolean _⟩, _ | ⟨_, .string _⟩, _ | ⟨_, .number _⟩, _ | ⟨_, .null⟩, _ | ⟨_, .undefined⟩, _ =>
    Value.compareSorted_bare_of_not_meets rfl

theorem compareItems_bare : ∀ vs ws : List Value, compareItems (bareItems vs) (bareItems ws) = compareItems vs ws
  | [], [] | [], _ :: _ | _ :: _, [] => rfl
  | v :: vs, w :: ws => by
    simp only [bareItems, compareItems, Value.compareSorted_bare v w, compareItems_bare vs ws]

theorem compareEntries_bare : ∀ es fs : List (String × Value),
    compareEntries (bareEntries es) (bareEntries fs) = compareEntries es fs
  | [], [] | [], _ :: _ | _ :: _, [] => rfl
  | (k, v) :: es, (l, w) :: fs => by
    simp only [bareEntries, compareEntries, Value.compareSorted_bare v w, compareEntries_bare es fs]

end

theorem Value.compare_bare (v w : Value) : v.bare.compare w.bare = v.compare w := by
  rw [Value.compare, Value.compare, Value.sortKeys_bare, Value.sortKeys_bare, Value.compareSorted_bare]

end ExprLang
