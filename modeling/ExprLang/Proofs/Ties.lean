import ExprLang.Proofs.Comparison
import ExprLang.Proofs.Printing.Source
import Mathlib.Data.List.Perm.Subperm

/-!
# Equal values are a tie

Equality and order look at values in two ways: equality finds the entries of a map by their keys and a range in an
array item by item, order sorts the entries and lists the range. Where there are no open ranges, values that are equal
are a tie, and the order of the entries in a map does not count.

* `Value.compareSorted_of_equals`: equal values, by their parts.
* `Value.Reordered.sortKeys`: sorting undoes every change in the order of entries.
* `Value.compare_equals`: the orders of equal and of reordered values.
-/

namespace ExprLang

/-! ## Entries with the same keys -/

theorem sortKeysEntries_eq (es : Entries Value) : sortKeysEntries es = Entries.mapValues Value.sortKeys es := by
  induction es with
  | nil => rfl
  | cons e es ih =>
    obtain ⟨k, v⟩ := e
    rw [sortKeysEntries, ih, Entries.mapValues_cons]

/-- Maps with the same keys are a tie if the values under each key are. -/
theorem compareEntries_of_keys_eq : ∀ {es fs : List (String × Value)}, Entries.keys es = Entries.keys fs →
    (∀ e ∈ es, ∀ f ∈ fs, e.1 = f.1 → e.2.compareSorted f.2 = .ok .eq) → compareEntries es fs = .ok .eq
  | [], [], _, _ => rfl
  | [], _ :: _, hkeys, _ | _ :: _, [], hkeys, _ => nomatch hkeys
  | (k, v) :: es, (l, w) :: fs, hkeys, h => by
    obtain ⟨hkey, hkeys⟩ := List.cons.inj hkeys
    have hvalue : v.compareSorted w = .ok .eq := h _ List.mem_cons_self _ List.mem_cons_self hkey
    have hkey : compare k l = .eq := by
      rw [show k = l from hkey]
      exact Std.ReflCmp.compare_self
    rw [compareEntries, hkey, hvalue]
    exact compareEntries_of_keys_eq hkeys fun e he f hf => h e (List.mem_cons_of_mem _ he) f (List.mem_cons_of_mem _ hf)

/-! ## Ranges and numbers -/

/-- A tie is one from the other side, too. -/
theorem Mirrored.tie {t : Except Error Ordering} (h : Mirrored false (.ok .eq) t) : t = .ok .eq := by
  have hboth : Outcome.Both (fun o p => p = Ordering.swap o) (.ok .eq) t := h
  cases hboth with
  | ok hswap => exact congrArg Except.ok hswap

theorem Number.order_self (x : Float) : order x x = .eq := by
  rcases beq_self x with h | h
  · exact order_of_beq h
  · exact order_of_isNaN h x

namespace Value

/-- Lengths are counted up to the largest unsigned 64-bit one, which no array reaches. -/
def ShortPart : Value → Prop
  | ⟨_, .array vs⟩ => vs.length < 18446744073709551615
  | _ => True

/-- A map without repeated keys, an array of a possible length, a range with both ends, or a value without parts. -/
structure RegularPart (v : Value) : Prop where
  distinct : v.DistinctKeys
  short : v.ShortPart
  closed : v.ClosedPart

/-- There is no open range in the value, and its maps and arrays are as every map and array is. -/
def Regular (v : Value) : Prop := v.Each RegularPart

/-- Items that match integers are a tie with them. -/
theorem lexicographic_of_isInteger {is : List Int} {vs : List Value} (hlength : vs.length = is.length)
    (h : ((is.zip vs).all fun p => p.2.isInteger p.1) = true) :
    lexicographic compareLeaves (is.map integer) (sortKeysItems vs) = .ok .eq := by
  induction is generalizing vs with
  | nil =>
    rw [List.length_nil, List.length_eq_zero_iff] at hlength
    rw [hlength]
    rfl
  | cons i is ih =>
    cases vs with
    | nil => cases hlength
    | cons v vs =>
      rw [List.zip_cons_cons, List.all_cons, Bool.and_eq_true] at h
      obtain ⟨m, c⟩ := v
      cases c with
      | number x =>
        have hbeq : (x == Number.ofInteger i) = true := h.1
        have hfirst : (integer i).compareLeaves (⟨m, .number x⟩ : Value).sortKeys = .ok .eq := by
          rw [Number.beq_comm] at hbeq
          exact congrArg Except.ok (Number.order_of_beq hbeq)
        rw [List.map_cons, sortKeysItems, lexicographic, hfirst]
        exact ih (Nat.succ.inj hlength) h.2
      | _ => cases h.1

theorem lexicographic_of_matchesItems {a b : Int} {vs : List Value} (hshort : vs.length < 18446744073709551615)
    (h : Range.matchesItems a b vs = true) :
    lexicographic compareLeaves (integers a b) (sortKeysItems vs) = .ok .eq := by
  rw [matchesItems_eq, Bool.and_eq_true, beq_iff_eq] at h
  refine lexicographic_of_isInteger ?_ h.2
  have hlength : vs.length = min (Range.count a b) 18446744073709551615 := h.1
  rw [Range.items_length]
  show vs.length = Range.count a b
  omega

theorem compareItems_of_matchesItems {a b : Int} {vs : List Value} (hshort : vs.length < 18446744073709551615)
    (h : Range.matchesItems a b vs = true) : compareItems (sortKeysItems vs) (integers a b) = .ok .eq := by
  have hmirrored := lexicographic_mirrored ((Range.between a b).items 0) (sortKeysItems vs)
  have htie := lexicographic_of_matchesItems hshort h
  rw [integers] at htie ⊢
  rw [htie] at hmirrored
  rw [compareItems_integers_right]
  exact hmirrored.tie

theorem lexicographic_self (is : List Int) :
    lexicographic compareLeaves (is.map integer) (is.map integer) = .ok .eq := by
  induction is with
  | nil => rfl
  | cons i is ih =>
    have hfirst : (integer i).compareLeaves (integer i) = .ok .eq := congrArg Except.ok (Number.order_self _)
    rw [List.map_cons, lexicographic, hfirst]
    exact ih

/-- Values without parts. -/
theorem compareSorted_of_equals_alone {v w : Value} (hv : (v.isScalar || v.isNull || v.isUndefined) = true)
    (h : v.equals w = true) : v.sortKeys.compareSorted w.sortKeys = .ok .eq := by
  obtain ⟨m, c⟩ := v
  obtain ⟨n, d⟩ := w
  cases c with
  | boolean b =>
    cases d with
    | boolean b' =>
      rw [beq_iff_eq.1 (show (b == b') = true from h)]
      exact congrArg Except.ok Std.ReflCmp.compare_self
    | _ => cases h
  | string s =>
    cases d with
    | string t =>
      rw [beq_iff_eq.1 (show (s == t) = true from h)]
      exact congrArg Except.ok Std.ReflCmp.compare_self
    | _ => cases h
  | number x =>
    cases d with
    | number y =>
      have hequal : (x == y || (x.isNaN && y.isNaN && m == n)) = true := h
      rw [Bool.or_eq_true, Bool.and_eq_true, Bool.and_eq_true] at hequal
      rcases hequal with hbeq | ⟨⟨hnan, -⟩, -⟩
      · exact congrArg Except.ok (Number.order_of_beq hbeq)
      · exact congrArg Except.ok (Number.order_of_isNaN hnan y)
    | _ => cases h
  | null =>
    cases d with
    | null => rfl
    | _ => cases h
  | undefined =>
    cases d with
    | undefined => rfl
    | _ => cases h
  | _ => cases hv

end Value

/-! ## Equal values -/

/-- Maps of one size in which each entry of the first has one under its key in the second have the same keys. -/
theorem Entries.keys_perm_of_find? {α β : Type} {es : Entries α} {fs : Entries β} (hes : Nodup es)
    (hlength : es.length = fs.length) (h : ∀ e ∈ es, ∃ w, find? fs e.1 = some w) : (keys es).Perm (keys fs) := by
  have hsubset : keys es ⊆ keys fs := by
    intro k hk
    obtain ⟨e, he, rfl⟩ := List.mem_map.1 hk
    obtain ⟨w, hw⟩ := h e he
    exact List.mem_map.2 ⟨_, mem_of_find? hw, rfl⟩
  exact (List.subperm_of_subset hes hsubset).perm_of_length_le (by simp [keys, hlength])

/-- Maps of one size are a tie if each value of the first is one with what is under its key in the second. -/
theorem compareEntries_sorted {es fs : Entries Value} (hes : Entries.Nodup es) (hfs : Entries.Nodup fs)
    (hlength : es.length = fs.length)
    (h : ∀ e ∈ es, ∃ w, Entries.find? fs e.1 = some w ∧ e.2.sortKeys.compareSorted w.sortKeys = .ok .eq) :
    compareEntries (Entries.sorted (sortKeysEntries es)) (Entries.sorted (sortKeysEntries fs)) = .ok .eq := by
  have hkeys := Entries.keys_perm_of_find? hes hlength fun e he => (h e he).imp fun _ hw => hw.1
  rw [sortKeysEntries_eq, sortKeysEntries_eq, Entries.sorted_mapValues, Entries.sorted_mapValues]
  refine compareEntries_of_keys_eq ?_ fun e he f hf hkey => ?_
  · rw [Entries.keys_mapValues, Entries.keys_mapValues, Entries.keys_sorted_of_perm hkeys]
  · obtain ⟨e', he', rfl⟩ := List.mem_map.1 he
    obtain ⟨f', hf', rfl⟩ := List.mem_map.1 hf
    obtain ⟨w, hw, htie⟩ := h e' ((Entries.sorted_perm es).mem_iff.1 he')
    have hfind : Entries.find? fs f'.1 = some f'.2 :=
      (Entries.find?_eq_some_iff hfs).2 ((Entries.sorted_perm fs).mem_iff.1 hf')
    have hkey : e'.1 = f'.1 := hkey
    rw [hkey, hfind] at hw
    rw [Option.some.inj hw]
    exact htie

mutual

theorem Value.compareSorted_of_equals : ∀ {v w : Value}, v.Regular → w.Regular → v.equals w = true →
    v.sortKeys.compareSorted w.sortKeys = .ok .eq
  | ⟨_, .array vs⟩, ⟨n, d⟩, hv, hw, h => by
    cases d with
    | array ws => exact compareItems_of_equals hv.2 hw.2 h
    | range r =>
      cases r with
      | between a b =>
        exact Value.compareItems_of_matchesItems hv.1.short h
      | _ => cases h
    | _ => cases h
  | ⟨_, .map es⟩, ⟨n, d⟩, hv, hw, h => by
    cases d with
    | map fs =>
      have hequal : (es.length == fs.length && equalEntries es fs) = true := h
      rw [Bool.and_eq_true, beq_iff_eq] at hequal
      exact compareEntries_sorted hv.1.distinct hw.1.distinct hequal.1
        (compareSorted_of_equalEntries hv.2 (eachEntry_iff.1 hw.2) hequal.2)
    | _ => cases h
  | ⟨_, .range r⟩, ⟨n, d⟩, hv, hw, h => by
    cases r with
    | between a b =>
      cases d with
      | array ws => exact Value.lexicographic_of_matchesItems hw.1.short h
      | range s =>
        have hrange : Range.between a b = s := of_decide_eq_true h
        subst hrange
        exact Value.lexicographic_self _
      | _ => cases h
    | _ => cases hv.closed
  | ⟨_, .boolean _⟩, ⟨n, d⟩, _, _, h | ⟨_, .string _⟩, ⟨n, d⟩, _, _, h | ⟨_, .number _⟩, ⟨n, d⟩, _, _, h
  | ⟨_, .null⟩, ⟨n, d⟩, _, _, h | ⟨_, .undefined⟩, ⟨n, d⟩, _, _, h => Value.compareSorted_of_equals_alone rfl h

theorem compareItems_of_equals : ∀ {vs ws : List Value}, EachItem Value.RegularPart vs →
    EachItem Value.RegularPart ws → equalItems vs ws = true →
    compareItems (sortKeysItems vs) (sortKeysItems ws) = .ok .eq
  | [], [], _, _, _ => rfl
  | [], _ :: _, _, _, h | _ :: _, [], _, _, h => nomatch h
  | v :: vs, w :: ws, hv, hw, h => by
    rw [equalItems, Bool.and_eq_true] at h
    rw [sortKeysItems, sortKeysItems, compareItems, Value.compareSorted_of_equals hv.1 hw.1 h.1]
    exact compareItems_of_equals hv.2 hw.2 h.2

theorem compareSorted_of_equalEntries : ∀ {es fs : List (String × Value)}, EachEntry Value.RegularPart es →
    (∀ f ∈ fs, f.2.Regular) → equalEntries es fs = true →
    ∀ e ∈ es, ∃ w, Entries.find? fs e.1 = some w ∧ e.2.sortKeys.compareSorted w.sortKeys = .ok .eq
  | [], _, _, _, _ => fun _ he => absurd he List.not_mem_nil
  | (k, v) :: es, fs, hv, hw, h => by
    rw [equalEntries, Bool.and_eq_true] at h
    refine List.forall_mem_cons.2 ⟨?_, compareSorted_of_equalEntries hv.2 hw h.2⟩
    cases hfind : Entries.find? fs k with
    | none =>
      rw [hfind] at h
      cases h.1
    | some w =>
      rw [hfind] at h
      exact ⟨w, rfl, Value.compareSorted_of_equals hv.1 (hw _ (Entries.mem_of_find? hfind)) h.1⟩

end

/-! ## Entries in another order -/

mutual

/-- Two values are the same but for marks and the order of entries in their maps. -/
def Value.Reordered : Value → Value → Prop
  | ⟨_, .array vs⟩, ⟨_, .array ws⟩ => ReorderedItems vs ws
  | ⟨_, .map es⟩, ⟨_, .map gs⟩ => ∃ fs, ReorderedEntries es fs ∧ fs.Perm gs
  | v, w => v.bare = w.bare

def ReorderedItems : List Value → List Value → Prop
  | [], [] => True
  | v :: vs, w :: ws => v.Reordered w ∧ ReorderedItems vs ws
  | _, _ => False

def ReorderedEntries : List (String × Value) → List (String × Value) → Prop
  | [], [] => True
  | (k, v) :: es, (l, w) :: fs => k = l ∧ v.Reordered w ∧ ReorderedEntries es fs
  | _, _ => False

end

/-- Marks do not count. -/
theorem Value.compareSorted_congr {v v' w w' : Value} (hv : v.bare = v'.bare) (hw : w.bare = w'.bare) :
    v.compareSorted w = v'.compareSorted w' := by
  rw [← compareSorted_bare, hv, hw, compareSorted_bare]

theorem Value.sortKeys_of_bare_eq {v w : Value} (h : v.bare = w.bare) : v.sortKeys.bare = w.sortKeys.bare := by
  rw [← sortKeys_bare, ← sortKeys_bare, h]

mutual

/-- Sorting undoes a change of order. -/
theorem Value.Reordered.sortKeys : ∀ {v w : Value}, v.Keyed → v.Reordered w → v.sortKeys.bare = w.sortKeys.bare
  | ⟨_, .array vs⟩, ⟨_, d⟩, hv, h => by
    cases d with
    | array ws => exact congrArg Value.array (ReorderedItems.sortKeys hv.2 h)
    | _ => exact Value.sortKeys_of_bare_eq h
  | ⟨_, .map es⟩, ⟨_, d⟩, hv, h => by
    cases d with
    | map gs =>
      obtain ⟨fs, hfs, hperm⟩ := h
      have hentries := ReorderedEntries.sortKeys hv.2 hfs
      have hmapped : (bareEntries (sortKeysEntries es)).Perm (bareEntries (sortKeysEntries gs)) := by
        rw [hentries]
        simp only [bareEntries_eq, sortKeysEntries_eq]
        exact (hperm.map _).map _
      have hdistinct : Entries.Nodup (bareEntries (sortKeysEntries es)) := by
        have hkeys : Entries.keys (bareEntries (sortKeysEntries es)) = Entries.keys es := by
          rw [bareEntries_eq, sortKeysEntries_eq, Entries.keys_mapValues, Entries.keys_mapValues]
        rw [Entries.Nodup, hkeys]
        exact hv.1
      have hsorted := Entries.sorted_eq_of_perm hmapped hdistinct
      rw [bareEntries_eq, bareEntries_eq, Entries.sorted_mapValues, Entries.sorted_mapValues] at hsorted
      show Value.map (bareEntries _) = Value.map (bareEntries _)
      rw [bareEntries_eq, bareEntries_eq, hsorted]
    | _ => exact Value.sortKeys_of_bare_eq h
  | ⟨_, .boolean _⟩, _, _, h | ⟨_, .string _⟩, _, _, h | ⟨_, .number _⟩, _, _, h | ⟨_, .range _⟩, _, _, h
  | ⟨_, .null⟩, _, _, h | ⟨_, .undefined⟩, _, _, h => Value.sortKeys_of_bare_eq h

theorem ReorderedItems.sortKeys : ∀ {vs ws : List Value}, EachItem Value.DistinctKeys vs → ReorderedItems vs ws →
    bareItems (sortKeysItems vs) = bareItems (sortKeysItems ws)
  | [], [], _, _ => rfl
  | v :: vs, w :: ws, hv, h => by
    rw [sortKeysItems, sortKeysItems, bareItems, bareItems, Value.Reordered.sortKeys hv.1 h.1,
      ReorderedItems.sortKeys hv.2 h.2]

theorem ReorderedEntries.sortKeys : ∀ {es fs : List (String × Value)}, EachEntry Value.DistinctKeys es →
    ReorderedEntries es fs → bareEntries (sortKeysEntries es) = bareEntries (sortKeysEntries fs)
  | [], [], _, _ => rfl
  | (k, v) :: es, (l, w) :: fs, hv, h => by
    rw [sortKeysEntries, sortKeysEntries, bareEntries, bareEntries, h.1, Value.Reordered.sortKeys hv.1 h.2.1,
      ReorderedEntries.sortKeys hv.2 h.2.2]

end

/-! ## The operator -/

namespace Value

/-- Values that are equal compare as equal, so each value with itself, and values whose entries are in another order
compare alike. -/
theorem compare_equals {v : Value} (hv : v.Regular) :
    (∀ w : Value, w.Regular → v.equals w = true → v.compare w = .ok .eq) ∧ v.compare v = .ok .eq ∧
      ∀ v' : Value, v.Reordered v' → ∀ u : Value, v'.compare u = v.compare u ∧ u.compare v' = u.compare v := by
  have hkeyed : v.Keyed := Each.mono (fun _ h => h.distinct) hv
  refine ⟨fun w hw h => compareSorted_of_equals hv hw h, compareSorted_of_equals hv hv (equals_self hkeyed), ?_⟩
  intro v' h u
  have hsorted : v'.sortKeys.bare = v.sortKeys.bare := (h.sortKeys hkeyed).symm
  exact ⟨compareSorted_congr hsorted rfl, compareSorted_congr rfl hsorted⟩

/-- A not-a-number under one key and a range under another. -/
theorem compare_equals_range :
    let v := map [("b", array [number 1, number 2]), ("a", number (0 / 0))]
    let w := map [("a", number (0 / 0)), ("b", range (.between 1 2))]
    let v' := map [("a", number (0 / 0)), ("b", array [number 1, number 2])]
    (v.Regular ∧ w.Regular ∧ v.equals w = true ∧ v.Reordered v') ∧ v.compare w = .ok .eq ∧ v.compare v = .ok .eq ∧
      v'.compare w = .ok .eq := by
  intro v w v'
  have hnumber : ∀ x, (number x).Regular := fun x => ⟨trivial, trivial, trivial⟩
  have harray : (array [number 1, number 2]).Regular :=
    ⟨⟨trivial, by show 2 < 18446744073709551615; decide, trivial⟩, hnumber 1, hnumber 2, trivial⟩
  have hrange : (range (.between 1 2)).Regular := ⟨trivial, trivial, trivial⟩
  have hv : v.Regular := ⟨⟨by show List.Nodup ["b", "a"]; decide, trivial, trivial⟩, harray, hnumber _, trivial⟩
  have hw : w.Regular := ⟨⟨by show List.Nodup ["a", "b"]; decide, trivial, trivial⟩, hnumber _, hrange, trivial⟩
  have hequal : v.equals w = true := by decide +kernel
  have hreordered : v.Reordered v' :=
    ⟨[("b", array [number 1, number 2]), ("a", number (0 / 0))], ⟨rfl, ⟨rfl, rfl, trivial⟩, rfl, rfl, trivial⟩,
      .swap ..⟩
  obtain ⟨hequals, hself, hreorder⟩ := compare_equals hv
  refine ⟨⟨hv, hw, hequal, hreordered⟩, hequals w hw hequal, hself, ?_⟩
  rw [(hreorder v' hreordered w).1]
  exact hequals w hw hequal

end Value

end ExprLang
