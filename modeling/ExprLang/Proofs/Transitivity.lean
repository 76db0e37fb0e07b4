import ExprLang.Proofs.Comparison

/-!
# Comparison through a third value

Between values whose scalars are all of one kind, not-a-number apart, comparison is transitive: what is not
greater than a value that is not greater than a third is not greater than the third, and that comparison does
not fail either. Null may stand anywhere among the parts, for it comes before everything.

* `Chained.andThen`: a part that is compared before the rest.
* `Value.exists_order`: scalars of one kind stand in one row.
* `Value.compareSorted_chained`: arrays and maps of any depth.
* `Value.compare_transitive`: the orders of three values.
-/

namespace ExprLang

/-! ## Orders of three values -/

/-- What is known of a first and a third value from the orders of the first and the second and of the second and the
third, if neither of these is descending. -/
def Chained (r s t : Except Error Ordering) : Prop :=
  ∀ o p, r = .ok o → s = .ok p → o ≠ .gt → p ≠ .gt → t = .ok (o.then p)

namespace Chained

variable {r s t r' s' t' : Except Error Ordering}

/-- The first value is not less than or equal to the second. -/
theorem left_falls (h : ∀ o, r = .ok o → o = .gt) : Chained r s t :=
  fun o _ hr _ ho _ => absurd (h o hr) ho

/-- The second value is not less than or equal to the third. -/
theorem right_falls (h : ∀ o, s = .ok o → o = .gt) : Chained r s t :=
  fun _ p _ hs _ hp => absurd (h p hs) hp

theorem left_error (e : Error) : Chained (.error e) s t := left_falls nofun

theorem left_gt : Chained (.ok .gt) s t := left_falls fun _ h => (Except.ok.inj h).symm

theorem right_error (e : Error) : Chained r (.error e) t := right_falls nofun

theorem right_gt : Chained r (.ok .gt) t := right_falls fun _ h => (Except.ok.inj h).symm

/-- The first two are equal. -/
theorem eq_left : Chained (.ok .eq) s s := by
  rintro o p ⟨⟩ hs - -
  exact hs

/-- The first one comes before everything. -/
theorem lt_left : Chained (.ok .lt) s (.ok .lt) := by
  rintro o p ⟨⟩ - - -
  rfl

theorem of_transCmp {α : Type} {cmp : α → α → Ordering} [Std.TransCmp cmp] (a b c : α) :
    Chained (.ok (cmp a b)) (.ok (cmp b c)) (.ok (cmp a c)) := by
  rintro o p ⟨⟩ ⟨⟩ hab hbc
  cases h : cmp a b with
  | lt => rw [Std.TransCmp.lt_of_lt_of_isLE h (Ordering.isLE_iff_ne_gt.2 hbc)]; rfl
  | eq => rw [Std.TransCmp.congr_left h]; rfl
  | gt => exact absurd h hab

/-- What is compared second only counts where the first is a tie. -/
theorem andThen (h : Chained r s t) (h' : Chained r' s' t') :
    Chained (r >>= fun | .eq => r' | o => pure o) (s >>= fun | .eq => s' | o => pure o)
      (t >>= fun | .eq => t' | o => pure o) := by
  cases r with
  | error e => exact left_error e
  | ok o =>
    cases s with
    | error e => exact right_error e
    | ok p =>
      cases o with
      | gt => exact left_gt
      | lt =>
        cases p with
        | gt => exact right_gt
        | lt | eq =>
          rw [h _ _ rfl rfl nofun nofun]
          exact lt_left
      | eq =>
        cases p with
        | gt => exact right_gt
        | lt =>
          rw [h _ _ rfl rfl nofun nofun]
          rintro o p - ⟨⟩ ho -
          cases o with
          | gt => exact absurd rfl ho
          | lt | eq => rfl
        | eq =>
          rw [h _ _ rfl rfl nofun nofun]
          exact h'

end Chained

/-! ## Values without parts -/

namespace Value

/-- The kinds that compare among themselves by a value of their own. -/
def scalarKinds : List Kind := [.boolean, .string, .number]

/-- A value of one kind, or null, or an array or a map; and no not-a-number. -/
def IsOf (k : Kind) (v : Value) : Prop := v.kind ∈ [k, .null, .array, .map] ∧ v.NotNaN

instance : DecidablePred NotNaN
  | ⟨_, .number x⟩ => inferInstanceAs (Decidable (x.isNaN = false))
  | ⟨_, .boolean _⟩ | ⟨_, .string _⟩ | ⟨_, .array _⟩ | ⟨_, .map _⟩ | ⟨_, .range _⟩ | ⟨_, .null⟩
  | ⟨_, .undefined⟩ => .isTrue trivial

instance (k : Kind) : DecidablePred (IsOf k) := fun v =>
  inferInstanceAs (Decidable (v.kind ∈ [k, .null, .array, .map] ∧ v.NotNaN))

/-- All scalars in a value are of one kind, and none is not-a-number. -/
def Uniform (k : Kind) (v : Value) : Prop := v.Each (IsOf k)

instance (k : Kind) (v : Value) : Decidable (v.Uniform k) := inferInstanceAs (Decidable (v.Each (IsOf k)))

variable {k : Kind} {u v w : Value}

theorem IsOf.sortKeys (h : v.IsOf k) : v.sortKeys.IsOf k := by
  refine ⟨by rw [kind_sortKeys]; exact h.1, ?_⟩
  obtain ⟨m, c⟩ := v
  cases c with
  | number => exact h.2
  | _ => trivial

theorem Uniform.sortKeys (h : v.Uniform k) : v.sortKeys.Uniform k := Each.sortKeys (fun _ hu => hu.sortKeys) h

/-- Scalars of one kind stand in one row. -/
theorem exists_order (hk : k ∈ scalarKinds) : ∃ cmp : Value → Value → Ordering, Std.TransCmp cmp ∧
    ∀ v w : Value, v.kind = k → w.kind = k → v.NotNaN → w.NotNaN → v.compareSorted w = .ok (cmp v w) := by
  simp only [scalarKinds, List.mem_cons, List.not_mem_nil, or_false] at hk
  rcases hk with rfl | rfl | rfl
  · refine ⟨compareOn boolean?, inferInstance, fun ⟨m, c⟩ ⟨n, d⟩ hv hw _ _ => ?_⟩
    cases c with
    | boolean =>
      cases d with
      | boolean => rfl
      | _ => cases hw
    | _ => cases hv
  · refine ⟨compareOn string?, inferInstance, fun ⟨m, c⟩ ⟨n, d⟩ hv hw _ _ => ?_⟩
    cases c with
    | string =>
      cases d with
      | string => rfl
      | _ => cases hw
    | _ => cases hv
  · let place (v : Value) := Number.place (v.number?.getD 0).toModel.unpack
    refine ⟨fun v w => Number.comparePlaces (place v) (place w), ?_, fun ⟨m, c⟩ ⟨n, d⟩ hv hw hx hy => ?_⟩
    · exact { eq_swap := Std.OrientedCmp.eq_swap, isLE_trans := Std.TransCmp.isLE_trans }
    · cases c with
      | number x =>
        cases d with
        | number y => exact congrArg Except.ok (Number.order_eq_comparePlaces hx hy)
        | _ => cases hw
      | _ => cases hv

/-- The scalars are of the one kind. -/
theorem IsOf.kind_eq (hv : v.IsOf k) (h : v.isScalar = true) : v.kind = k := by
  have hkind : v.kind = k ∨ v.kind = .null ∨ v.kind = .array ∨ v.kind = .map := by simpa using hv.1
  rcases hkind with hkind | hkind | hkind | hkind
  · exact hkind
  all_goals simp [isScalar, hkind] at h

theorem IsOf.kind_ne (hk : k ∈ scalarKinds) (hv : v.IsOf k) : v.kind ≠ .range ∧ v.kind ≠ .undefined := by
  have hkinds : ∀ k ∈ scalarKinds, ∀ l ∈ [k, .null, .array, .map], l ≠ .range ∧ l ≠ .undefined := by decide
  exact hkinds k hk _ hv.1

theorem not_meets_of_isScalar (hv : v.isScalar = true) (w : Value) : v.meets w = false := by
  obtain ⟨m, c⟩ := v
  cases c with
  | boolean | string | number => rfl
  | _ => cases hv

theorem not_meets_of_null (hv : v.kind = .null) (w : Value) : v.meets w = false := by
  obtain ⟨m, c⟩ := v
  cases c with
  | null => rfl
  | _ => cases hv

theorem compareLeaves_falls (hnull : u.kind ≠ .null) (hundefined : u.kind ≠ .undefined)
    (hscalars : (u.isScalar && v.isScalar) = false) : ∀ o, u.compareLeaves v = .ok o → o = .gt := by
  intro o ho
  unfold compareLeaves at ho
  split at ho
  case h_1 h _ | h_3 h _ => exact absurd h hnull
  case h_2 h _ | h_4 h _ => exact absurd h hundefined
  case h_5 | h_6 => exact (Except.ok.inj ho).symm
  case h_7 =>
    rw [hscalars] at ho
    cases ho

/-- Values that do not both have parts are not in rising order, unless the first is null or both are scalars. -/
theorem compareSorted_falls (hk : k ∈ scalarKinds) (hu : u.IsOf k) (hnull : u.kind ≠ .null)
    (hmeets : u.meets v = false) (hscalars : (u.isScalar && v.isScalar) = false) :
    ∀ o, u.compareSorted v = .ok o → o = .gt := by
  rw [compareSorted_of_not_meets hmeets]
  exact compareLeaves_falls hnull (hu.kind_ne hk).2 hscalars

/-- Null comes before everything else. -/
theorem compareSorted_null (hv : v.kind = .null) (w : Value) :
    v.compareSorted w = .ok (if w.kind = .null then .eq else .lt) := by
  obtain ⟨m, c⟩ := v
  obtain ⟨n, d⟩ := w
  cases c with
  | null => cases d <;> rfl
  | _ => cases hv

theorem null_chained (hk : k ∈ scalarKinds) (hu : u.kind = .null) (hv : v.IsOf k) :
    Chained (u.compareSorted v) (v.compareSorted w) (u.compareSorted w) := by
  rw [compareSorted_null hu, compareSorted_null hu]
  by_cases hvnull : v.kind = .null
  · rw [compareSorted_null hvnull, if_pos hvnull]
    exact .eq_left
  · by_cases hwnull : w.kind = .null
    · have hmeets : v.meets w = false := by
        rw [meets_comm]
        exact not_meets_of_null hwnull v
      have hscalars : (v.isScalar && w.isScalar) = false := by simp [isScalar, hwnull]
      exact .right_falls (compareSorted_falls hk hv hvnull hmeets hscalars)
    · rw [if_neg hvnull, if_neg hwnull]
      exact .lt_left

theorem scalar_chained (hk : k ∈ scalarKinds) (hu : u.IsOf k) (hv : v.IsOf k) (hw : w.IsOf k)
    (hscalar : u.isScalar = true) :
    Chained (u.compareSorted v) (v.compareSorted w) (u.compareSorted w) := by
  obtain ⟨cmp, htrans, horder⟩ := exists_order hk
  have hfalls : ∀ x y : Value, x.IsOf k → x.isScalar = true → y.isScalar = false →
      ∀ o, x.compareSorted y = .ok o → o = .gt := by
    intro x y hx hxs hys
    have hnull : x.kind ≠ .null := fun h => by simp [isScalar, h] at hxs
    exact compareSorted_falls hk hx hnull (not_meets_of_isScalar hxs y) (by rw [hys, Bool.and_false])
  cases hvs : v.isScalar with
  | false => exact .left_falls (hfalls u v hu hscalar hvs)
  | true =>
    cases hws : w.isScalar with
    | false => exact .right_falls (hfalls v w hv hvs hws)
    | true =>
      rw [horder u v (hu.kind_eq hscalar) (hv.kind_eq hvs) hu.2 hv.2,
        horder v w (hv.kind_eq hvs) (hw.kind_eq hws) hv.2 hw.2,
        horder u w (hu.kind_eq hscalar) (hw.kind_eq hws) hu.2 hw.2]
      exact .of_transCmp u v w

/-- What is compared with an array or a map, and is none, comes after it or not at all. -/
theorem composite_falls (hk : k ∈ scalarKinds) (hu : u.IsOf k) (hkind : u.kind = .array ∨ u.kind = .map)
    (hmeets : u.meets v = false) : ∀ o, u.compareSorted v = .ok o → o = .gt := by
  refine compareSorted_falls hk hu ?_ hmeets ?_
  · rcases hkind with h | h <;> rw [h] <;> exact nofun
  · rcases hkind with h | h <;> simp [isScalar, h]

end Value

/-! ## Values with parts -/

/-- Keys are compared before values. -/
theorem compareEntries_cons (i j : String) (v w : Value) (es fs : List (String × Value)) :
    compareEntries ((i, v) :: es) ((j, w) :: fs) = (do
      match ← Except.ok (compare i j) with
      | .eq => do
        match ← v.compareSorted w with
        | .eq => compareEntries es fs
        | o => return o
      | o => return o) := by
  rw [compareEntries]
  cases compare i j <;> rfl

mutual

theorem Value.compareSorted_chained {k : Kind} (hk : k ∈ Value.scalarKinds) : ∀ {u v w : Value},
    u.Uniform k → v.Uniform k → w.Uniform k →
    Chained (u.compareSorted v) (v.compareSorted w) (u.compareSorted w)
  | ⟨_, .array us⟩, ⟨m, c⟩, ⟨n, d⟩, hu, hv, hw => by
    -- Only another array meets an array, as there are no ranges; everything else comes after it or fails.
    cases c with
    | array vs =>
      cases d with
      | array ws => exact compareItems_chained hk hu.2 hv.2 hw.2
      | range => exact absurd rfl (hw.root.kind_ne hk).1
      | _ => exact .right_falls (Value.composite_falls hk hv.root (.inl rfl) rfl)
    | range => exact absurd rfl (hv.root.kind_ne hk).1
    | _ => exact .left_falls (Value.composite_falls hk hu.root (.inl rfl) rfl)
  | ⟨_, .map es⟩, ⟨m, c⟩, ⟨n, d⟩, hu, hv, hw => by
    cases c with
    | map fs =>
      cases d with
      | map gs => exact compareEntries_chained hk hu.2 hv.2 hw.2
      | _ => exact .right_falls (Value.composite_falls hk hv.root (.inr rfl) rfl)
    | _ => exact .left_falls (Value.composite_falls hk hu.root (.inr rfl) rfl)
  | ⟨_, .null⟩, _, _, _, hv, _ => Value.null_chained hk rfl hv.root
  | ⟨_, .boolean _⟩, _, _, hu, hv, hw | ⟨_, .string _⟩, _, _, hu, hv, hw | ⟨_, .number _⟩, _, _, hu, hv, hw =>
    Value.scalar_chained hk hu.root hv.root hw.root rfl
  | ⟨_, .range _⟩, _, _, hu, _, _ => absurd rfl (hu.root.kind_ne hk).1
  | ⟨_, .undefined⟩, _, _, hu, _, _ => absurd rfl (hu.root.kind_ne hk).2

theorem compareItems_chained {k : Kind} (hk : k ∈ Value.scalarKinds) : ∀ {us vs ws : List Value},
    EachItem (Value.IsOf k) us → EachItem (Value.IsOf k) vs → EachItem (Value.IsOf k) ws →
    Chained (compareItems us vs) (compareItems vs ws) (compareItems us ws)
  | [], [], _, _, _, _ => .eq_left
  | [], _ :: _, [], _, _, _ => .right_gt
  | [], _ :: _, _ :: _, _, _, _ => .lt_left
  | _ :: _, [], _, _, _, _ => .left_gt
  | _ :: _, _ :: _, [], _, _, _ => .right_gt
  | _ :: _, _ :: _, _ :: _, hu, hv, hw =>
    (Value.compareSorted_chained hk hu.1 hv.1 hw.1).andThen (compareItems_chained hk hu.2 hv.2 hw.2)

theorem compareEntries_chained {k : Kind} (hk : k ∈ Value.scalarKinds) : ∀ {es fs gs : List (String × Value)},
    EachEntry (Value.IsOf k) es → EachEntry (Value.IsOf k) fs → EachEntry (Value.IsOf k) gs →
    Chained (compareEntries es fs) (compareEntries fs gs) (compareEntries es gs)
  | [], [], _, _, _, _ => .eq_left
  | [], _ :: _, [], _, _, _ => .right_gt
  | [], _ :: _, _ :: _, _, _, _ => .lt_left
  | _ :: _, [], _, _, _, _ => .left_gt
  | _ :: _, _ :: _, [], _, _, _ => .right_gt
  | (i, _) :: _, (j, _) :: _, (l, _) :: _, hu, hv, hw => by
    have hvalues := (Value.compareSorted_chained hk hu.1 hv.1 hw.1).andThen (compareEntries_chained hk hu.2 hv.2 hw.2)
    have hkeys : Chained (.ok (compare i j)) (.ok (compare j l)) (.ok (compare i l)) := .of_transCmp i j l
    simp only [compareEntries_cons]
    exact hkeys.andThen hvalues

end

/-! ## The operator -/

namespace Value

/-- What is not greater than a second value that is not greater than a third is not greater than the third, and equal to
it only if both were equal. -/
theorem compare_transitive {k : Kind} (hk : k ∈ scalarKinds) {u v w : Value} (hu : u.Uniform k) (hv : v.Uniform k)
    (hw : w.Uniform k) {o p : Ordering} (huv : u.compare v = .ok o) (hvw : v.compare w = .ok p) (ho : o ≠ .gt)
    (hp : p ≠ .gt) : ∃ q, u.compare w = .ok q ∧ q ≠ .gt ∧ (q = .eq ↔ o = .eq ∧ p = .eq) := by
  have hchained := compareSorted_chained hk hu.sortKeys hv.sortKeys hw.sortKeys
  refine ⟨o.then p, hchained o p huv hvw ho hp, ?_, Ordering.then_eq_eq⟩
  cases o with
  | lt => exact nofun
  | eq => exact hp
  | gt => exact absurd rfl ho

/-- The items of the arrays under the last key decide first, then the number of entries. -/
theorem compare_transitive_maps :
    let u := map [("b", array [number 1]), ("a", null)]
    let v := map [("a", null), ("b", array [number 1, number 2])]
    let w := map [("c", number 0), ("b", array [number 1, number 2]), ("a", null)]
    .number ∈ scalarKinds ∧ (u.Uniform .number ∧ v.Uniform .number ∧ w.Uniform .number) ∧
      (u.compare v = .ok .lt ∧ v.compare w = .ok .lt) ∧ u.compare w = .ok .lt := by
  intro u v w
  have huniform : u.Uniform .number ∧ v.Uniform .number ∧ w.Uniform .number := by decide +kernel
  have hsorted : u.sortKeys = map [("a", null), ("b", array [number 1])] ∧ v.sortKeys = v ∧
      w.sortKeys = map [("a", null), ("b", array [number 1, number 2]), ("c", number 0)] := by
    simp [u, v, w, sortKeys, sortKeysEntries, sortKeysItems, Entries.sorted, List.mergeSort,
      List.MergeSort.Internal.splitInTwo, map, array, number, null, new]
  have hvalues : u.compare v = .ok .lt ∧ v.compare w = .ok .lt := by
    rw [compare, compare, hsorted.1, hsorted.2.1, hsorted.2.2]
    decide +kernel
  obtain ⟨q, hq, hne, heq⟩ :=
    compare_transitive (by decide) huniform.1 huniform.2.1 huniform.2.2 hvalues.1 hvalues.2 (by decide)
      (by decide)
  refine ⟨by decide, huniform, hvalues, ?_⟩
  cases q with
  | lt => exact hq
  | eq => exact absurd (heq.1 rfl).1 (by decide)
  | gt => exact absurd rfl hne

end Value

end ExprLang
