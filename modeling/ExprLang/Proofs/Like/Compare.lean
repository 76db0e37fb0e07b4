import ExprLang.Proofs.Like.Value

/-!
# The order of values that are built alike

Comparison sees neither the sign of a zero nor whether integers come from a range. `Value.levelled` takes both out of
a value, and a comparison of levelled values comes out as that of the values themselves (`compareSorted_levelled`).
Values that are built alike are the same once sorted and levelled (`Value.Like.standard_eq`), so they take the same
place in the order (`Value.Like.compare`).
-/

namespace ExprLang

open Outcome (Both)

/-! ## Levelled values -/

mutual

/-- The value without marks and signs of zeros, and with arrays in the place of ranges. -/
def Value.levelled : Value → Value
  | ⟨_, .boolean b⟩ => .boolean b
  | ⟨_, .string s⟩ => .string s
  | ⟨_, .number x⟩ => .number (Number.plain x)
  | ⟨_, .array vs⟩ => .array (levelledItems vs)
  | ⟨_, .map es⟩ => .map (levelledEntries es)
  | ⟨_, .range (.between first last)⟩ =>
    .array (((Range.between first last).items 0).map fun i => .number (Number.plain (Number.ofInteger i)))
  | ⟨_, .range r⟩ => .range r
  | ⟨_, .null⟩ => .null
  | ⟨_, .undefined⟩ => .undefined

def levelledItems : List Value → List Value
  | [] => []
  | v :: vs => v.levelled :: levelledItems vs

def levelledEntries : List (String × Value) → List (String × Value)
  | [] => []
  | (k, v) :: es => (k, v.levelled) :: levelledEntries es

end

@[simp] theorem levelledItems_eq (vs : List Value) : levelledItems vs = vs.map Value.levelled := by
  induction vs with
  | nil => rfl
  | cons v vs ih => rw [levelledItems, ih, List.map_cons]

@[simp] theorem levelledEntries_eq (es : Entries Value) : levelledEntries es = Entries.mapValues Value.levelled es := by
  induction es with
  | nil => rfl
  | cons e es ih => rw [levelledEntries, ih, Entries.mapValues_cons]

namespace Value

theorem levelled_between (m : Option Nat) (first last : Int) :
    levelled ⟨m, .range (.between first last)⟩ = array ((integers first last).map levelled) := by
  rw [integers, List.map_map]
  rfl

/-! ## Leaves -/

theorem boolean?_levelled (v : Value) : v.levelled.boolean? = v.boolean? := by
  obtain ⟨m, c⟩ := v
  cases c with
  | number x =>
    show some (Number.plain x != 0) = some (x != 0)
    rw [bne, bne, Number.beq_plain (Number.plain_plain x) rfl]
  | range r => cases r <;> rfl
  | _ => rfl

theorem number?_levelled (v : Value) :
    Option.Rel (fun x y => Number.plain x = Number.plain y) v.levelled.number? v.number? := by
  obtain ⟨m, c⟩ := v
  cases c with
  | boolean | null => exact .some rfl
  | number x => exact .some (Number.plain_plain x)
  | string s =>
    show Option.Rel _ (Number.leading? s) (Number.leading? s)
    cases Number.leading? s with
    | none => exact .none
    | some x => exact .some rfl
  | range r => cases r <;> exact .none
  | _ => exact .none

/-- What two values convert to is related, or neither converts. -/
theorem orConversionError_both {α β : Type} {R : α → β → Prop} {v w : Value} {target : Kind} {o : Option α} {o' : Option β}
    (h : Option.Rel R o o') : Both R (v.orConversionError target o) (w.orConversionError target o') := by
  cases h with
  | some h => exact .ok h
  | none => exact .error _ _

theorem compareScalars_levelled {v w : Value} (hv : v.isScalar = true) (hw : w.isScalar = true) :
    Both (· = ·) (v.levelled.compareScalars w.levelled) (v.compareScalars w) := by
  have hboolean : ∀ u : Value, Both (· = ·) u.levelled.toBoolean u.toBoolean := fun u => by
    rw [toBoolean, toBoolean, boolean?_levelled]
    cases u.boolean? with
    | some b => exact .ok rfl
    | none => exact .error _ _
  have hbooleans : Both (· = ·) (do return Ord.compare (← v.levelled.toBoolean) (← w.levelled.toBoolean))
      (do return Ord.compare (← v.toBoolean) (← w.toBoolean)) := by
    refine (hboolean v).bind ?_
    rintro a _ rfl
    exact (hboolean w).map _
  have hnumbers : Both (· = ·) (do return Number.order (← v.levelled.toNumber) (← w.levelled.toNumber))
      (do return Number.order (← v.toNumber) (← w.toNumber)) :=
    (orConversionError_both v.number?_levelled).bind fun x x' hx =>
      (orConversionError_both w.number?_levelled).bind fun y y' hy => .ok (Number.order_plain hx hy)
  obtain ⟨m, c⟩ := v
  obtain ⟨n, d⟩ := w
  cases c with
  | boolean b =>
    cases d with
    | boolean | string | number => exact hbooleans
    | _ => cases hw
  | string s =>
    cases d with
    | boolean => exact hbooleans
    | string t => exact .refl _
    | number => exact hnumbers
    | _ => cases hw
  | number x =>
    cases d with
    | boolean => exact hbooleans
    | string | number => exact hnumbers
    | _ => cases hw
  | _ => cases hv

theorem compareLeaves_levelled (v w : Value) : Both (· = ·) (v.levelled.compareLeaves w.levelled) (v.compareLeaves w) := by
  have hscalars := @compareScalars_levelled v w
  obtain ⟨m, c⟩ := v
  obtain ⟨n, d⟩ := w
  cases c with
  | null | undefined =>
    cases d with
    | range s => cases s <;> exact .refl _
    | _ => exact .refl _
  | boolean | string | number =>
    cases d with
    | null | undefined => exact .refl _
    | boolean | string | number => exact hscalars rfl rfl
    | range s => cases s <;> exact .error _ _
    | _ => exact .error _ _
  | range r =>
    cases r <;> cases d with
    | null | undefined => exact .refl _
    | range s => cases s <;> exact .error _ _
    | _ => exact .error _ _
  | _ =>
    cases d with
    | null | undefined => exact .refl _
    | range s => cases s <;> exact .error _ _
    | _ => exact .error _ _

/-! ## Values with parts -/

theorem isRun_levelled (v : Value) : v.levelled.isRun = v.isRun := by
  obtain ⟨m, c⟩ := v
  cases c with
  | range r => cases r <;> rfl
  | _ => rfl

theorem meets_levelled (v w : Value) : v.levelled.meets w.levelled = v.meets w := by
  have hmap : ∀ u : Value, (u.levelled.kind == .map) = (u.kind == .map) := fun u => by
    obtain ⟨m, c⟩ := u
    cases c with
    | range r => cases r <;> rfl
    | _ => rfl
  rw [meets, meets, isRun_levelled, isRun_levelled, hmap, hmap]

theorem compareSorted_levelled_of_not_meets {v w : Value} (h : v.meets w = false) :
    Both (· = ·) (v.levelled.compareSorted w.levelled) (v.compareSorted w) := by
  rw [compareSorted_of_not_meets h, compareSorted_of_not_meets (by rw [meets_levelled, h])]
  exact compareLeaves_levelled v w

end Value

/-- The next pair is compared in the same way, and then the rest is. -/
theorem compareNext_both {r t : Except Error Ordering} {k l : Except Error Ordering} (h : Both (· = ·) r t)
    (hrest : Both (· = ·) k l) :
    Both (· = ·) (do match ← r with | .eq => k | o => return o) (do match ← t with | .eq => l | o => return o) := by
  refine h.bind ?_
  rintro o _ rfl
  cases o with
  | eq => exact hrest
  | _ => exact .refl _

theorem compareItems_levelled_integers (is : List Int) : ∀ ws : List Value,
    Both (· = ·) (compareItems ((is.map Value.integer).map Value.levelled) (levelledItems ws))
      (compareItems (is.map Value.integer) ws) := by
  induction is with
  | nil => rintro (_ | ⟨w, ws⟩) <;> exact .refl _
  | cons i is ih =>
    rintro (_ | ⟨w, ws⟩)
    · exact .refl _
    · have hfirst := Value.compareSorted_levelled_of_not_meets (v := .integer i) (w := w) rfl
      exact compareNext_both hfirst (ih ws)

mutual

/-- Comparison of levelled values. -/
theorem Value.compareSorted_levelled : ∀ v w : Value,
    Both (· = ·) (v.levelled.compareSorted w.levelled) (v.compareSorted w)
  | ⟨_, .array l⟩, ⟨_, d⟩ => by
    cases d with
    | array r => exact compareItems_levelled l r
    | range r =>
      cases r with
      | between a b =>
        have h := compareItems_levelled l (Value.integers a b)
        rw [levelledItems_eq (Value.integers a b)] at h
        rw [Value.levelled_between]
        exact h
      | _ => exact Value.compareSorted_levelled_of_not_meets rfl
    | _ => exact Value.compareSorted_levelled_of_not_meets rfl
  | ⟨_, .range r⟩, ⟨_, d⟩ => by
    cases r with
    | between a b =>
      have hintegers : ∀ ws, Both (· = ·) (compareItems ((Value.integers a b).map Value.levelled) (levelledItems ws))
          (lexicographic Value.compareLeaves (Value.integers a b) ws) := fun ws => by
        rw [Value.integers, ← Value.compareItems_integers]
        exact compareItems_levelled_integers _ ws
      cases d with
      | array r =>
        rw [Value.levelled_between]
        exact hintegers r
      | range s =>
        cases s with
        | between c d =>
          have h := hintegers (Value.integers c d)
          rw [levelledItems_eq] at h
          rw [Value.levelled_between, Value.levelled_between]
          exact h
        | _ => exact Value.compareSorted_levelled_of_not_meets rfl
      | _ => exact Value.compareSorted_levelled_of_not_meets rfl
    | _ => exact Value.compareSorted_levelled_of_not_meets rfl
  | ⟨_, .map l⟩, ⟨_, d⟩ => by
    cases d with
    | map r => exact compareEntries_levelled l r
    | _ => exact Value.compareSorted_levelled_of_not_meets rfl
  | ⟨_, .boolean _⟩, _ | ⟨_, .string _⟩, _ | ⟨_, .number _⟩, _ | ⟨_, .null⟩, _ | ⟨_, .undefined⟩, _ =>
    Value.compareSorted_levelled_of_not_meets rfl

theorem compareItems_levelled : ∀ vs ws : List Value,
    Both (· = ·) (compareItems (levelledItems vs) (levelledItems ws)) (compareItems vs ws)
  | [], [] | [], _ :: _ | _ :: _, [] => .refl _
  | v :: vs, w :: ws => compareNext_both (Value.compareSorted_levelled v w) (compareItems_levelled vs ws)

theorem compareEntries_levelled : ∀ es fs : List (String × Value),
    Both (· = ·) (compareEntries (levelledEntries es) (levelledEntries fs)) (compareEntries es fs)
  | [], [] | [], _ :: _ | _ :: _, [] => .refl _
  | (k, v) :: es, (l, w) :: fs => by
    rw [levelledEntries, levelledEntries, compareEntries, compareEntries]
    cases compare k l with
    | eq => exact compareNext_both (Value.compareSorted_levelled v w) (compareEntries_levelled es fs)
    | _ => exact .refl _

end

/-! ## Values that are built alike -/

namespace Value

/-- The value with the entries of its maps in the order of their keys, levelled. -/
def standard (v : Value) : Value := v.sortKeys.levelled

theorem standard_array (m : Option Nat) (vs : List Value) : standard ⟨m, .array vs⟩ = array (vs.map standard) := by
  have hitems : levelledItems (sortKeysItems vs) = vs.map standard := by
    induction vs with
    | nil => rfl
    | cons v vs ih => rw [sortKeysItems, levelledItems, ih, List.map_cons, standard]
  exact congrArg array hitems

theorem standard_between (m : Option Nat) (first last : Int) :
    standard ⟨m, .range (.between first last)⟩ = array ((integers first last).map standard) := by
  rw [integers, List.map_map]
  rfl

theorem standard_map (m : Option Nat) (es : Entries Value) :
    standard ⟨m, .map es⟩ = map (Entries.sorted (Entries.mapValues standard es)) := by
  show map (levelledEntries (Entries.sorted (sortKeysEntries es))) = _
  rw [levelledEntries_eq, sortKeysEntries_eq, ← Entries.sorted_mapValues, Entries.mapValues, Entries.mapValues,
    List.map_map]
  rfl

theorem sorted_standard {es fs : Entries Value} (h : Entries.Matched (fun v w => v.standard = w.standard) es fs) :
    Entries.sorted (Entries.mapValues standard es) = Entries.sorted (Entries.mapValues standard fs) := by
  have hdistinct : ∀ {gs : Entries Value}, Entries.Nodup gs → Entries.Nodup (Entries.mapValues standard gs) := fun h => by
    rwa [Entries.Nodup, Entries.keys_mapValues]
  refine Entries.sorted_eq_of_perm ?_ (hdistinct h.left)
  refine Entries.perm_of_find? (hdistinct h.left) (hdistinct h.right) fun k => ?_
  rw [Entries.find?_mapValues, Entries.find?_mapValues]
  exact Option.Rel.map_eq (h.rel k) fun _ _ h => h

/-- Values that are built alike have one standard form. -/
theorem Like.standard_eq {v w : Value} (h : v.Like w) : v.standard = w.standard := by
  refine Like.induct (P := fun v w => v.standard = w.standard) (fun {m n c d} halike => ?_) h
  have hitems : ∀ {vs ws : List Value}, List.Forall₂ (fun v w => v.Like w ∧ v.standard = w.standard) vs ws →
      vs.map standard = ws.map standard := fun h => by
    refine List.forall₂_eq_eq_eq ▸ List.forall₂_map_left_iff.2 (List.forall₂_map_right_iff.2 ?_)
    exact h.imp fun _ _ h => h.2
  cases halike with
  | alone hc =>
    cases c with
    | array => exact absurd rfl hc.1
    | map => exact absurd rfl hc.2
    | range r => cases r <;> rfl
    | _ => rfl
  | number hxy => exact congrArg number hxy
  | array hvs =>
    rw [standard_array, standard_array]
    exact congrArg array (hitems hvs)
  | listed _ hvs =>
    rw [standard_array, standard_between]
    exact congrArg array (hitems hvs)
  | unlisted _ hvs =>
    rw [standard_between, standard_array]
    exact congrArg array (hitems hvs)
  | map hes hfs hrel =>
    rw [standard_map, standard_map, sorted_standard (.of_components ⟨hes, hfs, hrel⟩ fun _ _ _ h => h.2)]

/-- Values that are built alike have the same place in the order. -/
theorem Like.compare {v v' w w' : Value} (hv : v.Like v') (hw : w.Like w') :
    Both (· = ·) (v.compare w) (v'.compare w') := by
  have hstandard : v.standard.compareSorted w.standard = v'.standard.compareSorted w'.standard := by
    rw [hv.standard_eq, hw.standard_eq]
  have hleft := (compareSorted_levelled v.sortKeys w.sortKeys).symm
  have hright := compareSorted_levelled v'.sortKeys w'.sortKeys
  exact hleft.trans (hstandard ▸ hright)

end Value

end ExprLang
