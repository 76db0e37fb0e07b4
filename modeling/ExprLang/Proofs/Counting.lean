import ExprLang.Proofs.Ranges

/-!
# What an index counts to

An index counts from the front, or backwards from the end if it is negative (`nth?`): `nth?_eq_some_iff` says which
element each integer stands for. A range is a walk from its first to its last integer, one step at a time
(`Range.Walks`), and takes an open end from the number of positions (`Range.Visits`). A string or an array gives what
the integers count to (`Value.subscript_counts`), and the division by which positions can be computed is never one by
zero (`wrapped?_eq`).
-/

namespace ExprLang

/-! ## Counting -/

/-- The element that an integer counts to: `0` is the first one, `-1` the last one. -/
def nth? {α : Type} (xs : List α) : Int → Option α
  | .ofNat i => xs[i]?
  | .negSucc i => xs.reverse[i]?

section

variable {α : Type} {xs : List α} {j : Int}

/-- Selecting by the position of an index is counting. -/
theorem pick?_position? (xs : List α) (j : Int) : Value.pick? xs (position? xs.length j) = nth? xs j := by
  cases j with
  | ofNat i =>
    show Value.pick? xs (position? xs.length i) = xs[i]?
    unfold position?
    by_cases hi : i < xs.length
    · rw [if_pos (by omega)]
      rfl
    · rw [if_neg (by omega), if_neg (by omega), List.getElem?_eq_none (by omega)]
      rfl
  | negSucc i =>
    show Value.pick? xs (position? xs.length (Int.negSucc i)) = xs.reverse[i]?
    unfold position?
    rw [if_neg (by omega)]
    by_cases hi : i < xs.length
    · have hplace : ((xs.length : Int) + Int.negSucc i).toNat = xs.length - 1 - i := by omega
      rw [if_pos (by omega), hplace, List.getElem?_reverse hi]
      rfl
    · rw [if_neg (by omega), List.getElem?_eq_none (by rw [List.length_reverse]; omega)]
      rfl

theorem nth?_eq_some_iff {x : α} :
    nth? xs j = some x ↔ ∃ i : Nat, xs[i]? = some x ∧ (j = i ∨ j = i - (xs.length : Int)) := by
  cases j with
  | ofNat k =>
    constructor
    · intro h
      exact ⟨k, h, .inl rfl⟩
    · rintro ⟨i, hi, h⟩
      have hlt := (List.getElem?_eq_some_iff.1 hi).1
      rw [Int.ofNat_eq_natCast] at h
      obtain rfl : i = k := by omega
      exact hi
  | negSucc k =>
    show xs.reverse[k]? = some x ↔ _
    constructor
    · intro h
      have hlt := (List.getElem?_eq_some_iff.1 h).1
      rw [List.length_reverse] at hlt
      rw [List.getElem?_reverse hlt] at h
      exact ⟨_, h, .inr (by omega)⟩
    · rintro ⟨i, hi, h⟩
      have hlt := (List.getElem?_eq_some_iff.1 hi).1
      rw [List.getElem?_reverse (by omega), ← hi]
      congr 1
      omega

end

/-! ## Positions by division -/

/-- The remainder of a division that rounds towards zero, if it is not one by zero. -/
def remainder? (i n : Int) : Option Int := if n = 0 then none else some (i.tmod n)

/-- The position of an index computed with remainders; without a position, the number of positions. -/
def wrapped? (size : Nat) (i : Int) : Option Nat :=
  if -size ≤ i ∧ i < size then do
    let around ← remainder? i size
    let place ← remainder? (size + around) size
    return place.toNat
  else some size

/-- There is a division only where there are positions, and it gives the position. -/
theorem wrapped?_eq (size : Nat) (i : Int) : wrapped? size i = some ((position? size i).getD size) := by
  unfold wrapped? position?
  by_cases hreach : -(size : Int) ≤ i ∧ i < size
  · have hsize : (size : Int) ≠ 0 := by omega
    rw [if_pos hreach, remainder?, if_neg hsize, Option.bind_eq_bind, Option.bind_some, remainder?, if_neg hsize]
    show some _ = _
    by_cases hi : 0 ≤ i
    · rw [if_pos ⟨hi, hreach.2⟩, Int.tmod_eq_of_lt hi hreach.2, Int.tmod_eq_emod_of_nonneg (by omega), Int.add_emod_left,
        Int.emod_eq_of_lt hi hreach.2]
      rfl
    · rw [if_neg (by omega), if_pos ⟨hreach.1, by omega⟩]
      by_cases hfirst : i = -(size : Int)
      · rw [hfirst, Int.neg_tmod, Int.tmod_self]
        simp
      · have haround : i.tmod size = i := by
          rw [← Int.neg_neg i, Int.neg_tmod, Int.tmod_eq_of_lt (by omega) (by omega)]
        rw [haround, Int.tmod_eq_of_lt (by omega) (by omega)]
        rfl
  · rw [if_neg hreach, if_neg (by omega), if_neg (by omega)]
    rfl

/-! ## Walks -/

namespace Range

/-- The integers on the way from a first to a last one. -/
inductive Walks : Int → Int → List Int → Prop
  | arrived (i : Int) : Walks i i [i]
  | up {i last : Int} {is : List Int} : i < last → Walks (i + 1) last is → Walks i last (i :: is)
  | down {i last : Int} {is : List Int} : last < i → Walks (i - 1) last is → Walks i last (i :: is)

/-- The integers that a range visits among so many positions. -/
inductive Visits (size : Nat) : Range → List Int → Prop
  | between {first last : Int} {is : List Int} : Walks first last is → Visits size (.between first last) is
  | startingAt {first : Int} {is : List Int} : Walks first (size - 1) is → Visits size (.startingAt first) is
  | endingAt {last : Int} {is : List Int} : Walks (size - 1) last is → Visits size (.endingAt last) is

theorem walks_steps (first last : Int) : Walks first last ((List.range (count first last)).map (step first last)) := by
  -- Every step brings the bounds closer by one.
  induction hdistance : (last - first).natAbs generalizing first with
  | zero =>
    obtain rfl : first = last := by omega
    have hhead : step first first 0 = first := by simp [step]
    rw [count, hdistance, List.range_one, List.map_singleton, hhead]
    exact .arrived first
  | succ n ih =>
    rw [count, hdistance, List.range_succ_eq_map, List.map_cons, List.map_map]
    by_cases hup : first < last
    · have hclose : (last - (first + 1)).natAbs = n := by omega
      have hrest := ih (first + 1) hclose
      rw [count, hclose] at hrest
      have htail : (List.range (n + 1)).map (step first last ∘ Nat.succ) =
          (List.range (n + 1)).map (step (first + 1) last) := by
        refine List.map_congr_left fun k _ => ?_
        rw [Function.comp_apply, step, step, if_pos (by omega), if_pos (by omega)]
        omega
      have hhead : step first last 0 = first := by simp [step]
      rw [hhead, htail]
      exact .up hup hrest
    · have hclose : (last - (first - 1)).natAbs = n := by omega
      have hrest := ih (first - 1) hclose
      rw [count, hclose] at hrest
      have htail : (List.range (n + 1)).map (step first last ∘ Nat.succ) =
          (List.range (n + 1)).map (step (first - 1) last) := by
        refine List.map_congr_left fun k hk => ?_
        have hk : k < n + 1 := List.mem_range.1 hk
        rw [Function.comp_apply, step, step, if_neg (by omega)]
        split <;> omega
      have hhead : step first last 0 = first := by simp [step]
      rw [hhead, htail]
      exact .down (by omega) hrest

theorem Walks.unique {first last : Int} {is js : List Int} (h : Walks first last is) (h' : Walks first last js) :
    is = js := by
  induction h generalizing js with
  | arrived i =>
    cases h' with
    | arrived => rfl
    | up hlt => omega
    | down hlt => omega
  | up hlt _ ih =>
    cases h' with
    | arrived => omega
    | up _ h' => rw [ih h']
    | down hlt' => omega
  | down hlt _ ih =>
    cases h' with
    | arrived => omega
    | up hlt' => omega
    | down _ h' => rw [ih h']

theorem visits_items (size : Nat) (r : Range) : r.Visits size (r.items size) := by
  cases r with
  | startingAt first => exact .startingAt (walks_steps first (size - 1))
  | endingAt last => exact .endingAt (walks_steps (size - 1) last)
  | between first last => exact .between (walks_steps first last)

theorem Visits.eq_items {size : Nat} {r : Range} {is : List Int} (h : r.Visits size is) : is = r.items size := by
  cases h with
  | startingAt h => exact h.unique (walks_steps _ _)
  | endingAt h => exact h.unique (walks_steps _ _)
  | between h => exact h.unique (walks_steps _ _)

end Range

/-! ## Subscripts -/

namespace Value

variable {x index : Value} {j : Int}

/-- Booleans and numbers have an integer. -/
theorem exists_toInteger (h : index.kind = .boolean ∨ index.kind = .number) : ∃ j, index.toInteger = .ok j := by
  obtain ⟨m, c⟩ := index
  cases c with
  | boolean | number => exact ⟨_, rfl⟩
  | _ => simp [kind, content] at h

/-- The part of a string or an array at what a single integer counts to. -/
theorem subscript_single (origin : Value → Option Location) (hkind : index.kind = .boolean ∨ index.kind = .number)
    (hj : index.toInteger = .ok j) :
    (∀ s, x.content = .string s → x.subscript origin index = match nth? s.toList j with
      | some c => .ok (string c.toString)
      | none => .error (.outOfBounds (origin x) x.text index.text)) ∧
      ∀ items, x.content = .array items → x.subscript origin index = match nth? items j with
        | some v => .ok v
        | none => .error (.outOfBounds (origin x) x.text index.text) := by
  obtain ⟨m, c⟩ := x
  obtain ⟨n, d⟩ := index
  constructor
  · rintro s rfl
    cases d with
    | boolean | number =>
      show (toInteger _ >>= _) = _
      rw [hj, ← pick?_position?]
      rfl
    | _ => simp [kind, content] at hkind
  · rintro items rfl
    cases d with
    | boolean | number =>
      show (toInteger _ >>= _) = _
      rw [hj, ← pick?_position?]
      rfl
    | _ => simp [kind, content] at hkind

theorem map_position? {α : Type} (xs : List α) (is : List Int) :
    (is.map (position? xs.length)).filterMap (pick? xs) = is.filterMap (nth? xs) ∧
      (is.map (position? xs.length)).mapM (pick? xs) = is.mapM (nth? xs) := by
  have hcount : pick? xs ∘ position? xs.length = nth? xs := funext (pick?_position? xs)
  rw [List.filterMap_map, hcount]
  refine ⟨rfl, ?_⟩
  induction is with
  | nil => rfl
  | cons i is ih => rw [List.map_cons, List.mapM_cons, List.mapM_cons, pick?_position?, ih]

/-- The parts of a string or an array at what the integers of a range count to. -/
theorem subscript_range (origin : Value → Option Location) {r : Range} (hr : index.content = .range r) :
    (∀ s, x.content = .string s → x.subscript origin index =
      .ok (string (String.ofList ((r.items s.toList.length).filterMap (nth? s.toList))))) ∧
      ∀ items, x.content = .array items → x.subscript origin index = match (r.items items.length).mapM (nth? items) with
        | some vs => .ok (array vs)
        | none => .error (.outOfBounds (origin x) x.text index.text) := by
  obtain ⟨m, c⟩ := x
  obtain ⟨n, d⟩ := index
  cases hr
  constructor
  · rintro s rfl
    rw [← (map_position? s.toList _).1]
    rfl
  · rintro items rfl
    rw [← (map_position? items _).2]
    rfl

/-- A single integer `j` selects the element `j` of the characters of a string or the items of an array, or the element
`n + j` of `n` if it is negative, and there is an error if there is none. A range selects what the integers that it visits
count to, one after the other: a string skips those that count to nothing, an array refuses them. The division by which
the position of an index can be computed is never one by zero, and gives the position that is used. -/
theorem subscript_counts (origin : Value → Option Location) (x index : Value) :
    (∀ (items : List Value) (j : Int) v, nth? items j = some v ↔
      ∃ i : Nat, items[i]? = some v ∧ (j = i ∨ j = i - (items.length : Int))) ∧
    (∀ s, x.content = .string s →
      (index.kind = .boolean ∨ index.kind = .number → ∃ j, index.toInteger = .ok j ∧
        x.subscript origin index = match nth? s.toList j with
          | some c => .ok (string c.toString)
          | none => .error (.outOfBounds (origin x) x.text index.text)) ∧
      ∀ r, index.content = .range r → (∃ is, r.Visits s.toList.length is) ∧ ∀ is, r.Visits s.toList.length is →
        x.subscript origin index = .ok (string (String.ofList (is.filterMap (nth? s.toList))))) ∧
    (∀ items, x.content = .array items →
      (index.kind = .boolean ∨ index.kind = .number → ∃ j, index.toInteger = .ok j ∧
        x.subscript origin index = match nth? items j with
          | some v => .ok v
          | none => .error (.outOfBounds (origin x) x.text index.text)) ∧
      ∀ r, index.content = .range r → (∃ is, r.Visits items.length is) ∧ ∀ is, r.Visits items.length is →
        x.subscript origin index = match is.mapM (nth? items) with
          | some vs => .ok (array vs)
          | none => .error (.outOfBounds (origin x) x.text index.text)) ∧
    ∀ (size : Nat) (j : Int), wrapped? size j = some ((position? size j).getD size) := by
  refine ⟨fun items j v => nth?_eq_some_iff, fun s hs => ⟨fun hkind => ?_, fun r hr => ?_⟩,
    fun items hitems => ⟨fun hkind => ?_, fun r hr => ?_⟩, wrapped?_eq⟩
  · obtain ⟨j, hj⟩ := exists_toInteger hkind
    exact ⟨j, hj, (subscript_single origin hkind hj).1 s hs⟩
  · exact ⟨⟨_, r.visits_items _⟩, fun is h => h.eq_items ▸ (subscript_range origin hr).1 s hs⟩
  · obtain ⟨j, hj⟩ := exists_toInteger hkind
    exact ⟨j, hj, (subscript_single origin hkind hj).2 items hitems⟩
  · exact ⟨⟨_, r.visits_items _⟩, fun is h => h.eq_items ▸ (subscript_range origin hr).2 items hitems⟩

/-- From the second of three characters backwards, past the first one and once more through all of them. -/
theorem subscript_counts_backwards :
    (string "aßc").subscript (fun _ => none) (range (.between 1 (-4))) = .ok (string "ßacßa") := by
  have hwalk : (Range.between 1 (-4)).Visits 3 [1, 0, -1, -2, -3, -4] := by
    refine .between ?_
    repeat refine .down (by decide) ?_
    exact .arrived _
  exact (((subscript_counts _ _ _).2.1 "aßc" rfl).2 _ rfl).2 _ hwalk

end Value

end ExprLang
