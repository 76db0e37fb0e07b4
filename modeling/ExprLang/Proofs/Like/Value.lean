import ExprLang.Proofs.Number.Plain
import ExprLang.Proofs.Number.Rounding
import ExprLang.Proofs.Paired
import ExprLang.Proofs.Ties

/-!
# Values that are built alike

Equality is no equivalence: a range equals the array of its integers, which may be rounded to the
numbers of another range, and not-a-number differs from itself. `Value.Like` relates the values that
stand in the same place of two equal things. Its two sides are equal once not-a-number equals itself
(`Like.equals`), and equal values are alike (`like_of_equals`).
-/

namespace ExprLang

/-! ## Components -/

namespace Value

/-- The items of an array, the integers of a range, the values in a map. -/
def components : Value → List Value
  | ⟨_, .array vs⟩ => vs
  | ⟨_, .map es⟩ => es.map Prod.snd
  | ⟨_, .range (.between first last)⟩ => integers first last
  | _ => []

theorem of_components_integer {P : Value → Prop} (h : ∀ v : Value, (∀ u ∈ v.components, P u) → P v) (i : Int) :
    P (integer i) :=
  h _ fun _ hu => absurd hu List.not_mem_nil

mutual

/-- What follows for a value if it follows for all its components. -/
theorem induct {P : Value → Prop} (h : ∀ v : Value, (∀ u ∈ v.components, P u) → P v) : ∀ v : Value, P v
  | ⟨_, .array vs⟩ => h _ (induct_items h vs)
  | ⟨_, .map es⟩ => h _ (induct_entries h es)
  | ⟨_, .range (.between _ _)⟩ => h _ (List.forall_mem_map.2 fun i _ => of_components_integer h i)
  | ⟨_, .range (.startingAt _)⟩ | ⟨_, .range (.endingAt _)⟩ | ⟨_, .boolean _⟩ | ⟨_, .string _⟩ | ⟨_, .number _⟩
  | ⟨_, .null⟩ | ⟨_, .undefined⟩ => h _ fun _ hu => absurd hu List.not_mem_nil

theorem induct_items {P : Value → Prop} (h : ∀ v : Value, (∀ u ∈ v.components, P u) → P v) : ∀ vs : List Value, ∀ u ∈ vs, P u
  | [] => fun _ hu => absurd hu List.not_mem_nil
  | v :: vs => List.forall_mem_cons.2 ⟨induct h v, induct_items h vs⟩

theorem induct_entries {P : Value → Prop} (h : ∀ v : Value, (∀ u ∈ v.components, P u) → P v) :
    ∀ es : List (String × Value), ∀ u ∈ es.map Prod.snd, P u
  | [] => fun _ hu => absurd hu List.not_mem_nil
  | (_, v) :: es => List.forall_mem_cons.2 ⟨induct h v, induct_entries h es⟩

end

end Value

/-! ## The relation -/

/-- Contents of equal values over parts that are related. -/
inductive Content.Like (R : Value → Value → Prop) : Content Value → Content Value → Prop
  | alone {c : Content Value} : (Value.new c).Partless → Like R c c
  | number {x y : Float} : Number.plain x = Number.plain y → Like R (.number x) (.number y)
  | array {vs ws : List Value} : List.Forall₂ R vs ws → Like R (.array vs) (.array ws)
  | map {es fs : Entries Value} : Entries.Nodup es → Entries.Nodup fs →
      (∀ k, Option.Rel R (Entries.find? es k) (Entries.find? fs k)) → Like R (.map es) (.map fs)
  | listed {first last : Int} {vs : List Value} : vs.length < 18446744073709551615 →
      List.Forall₂ R vs (Value.integers first last) → Like R (.array vs) (.range (.between first last))
  | unlisted {first last : Int} {vs : List Value} : vs.length < 18446744073709551615 →
      List.Forall₂ R (Value.integers first last) vs → Like R (.range (.between first last)) (.array vs)

/-- The values are built alike: marks, the order of entries and the sign of a zero may differ, and an array may stand for
a range. -/
inductive Value.Like : Value → Value → Prop
  | mk {m n : Option Nat} {c d : Content Value} : c.Like Like d → Like ⟨m, c⟩ ⟨n, d⟩

/-! ## Optional values -/

namespace Option.Rel

variable {α β γ δ : Type} {R : α → β → Prop} {o : Option α} {o' : Option β}

theorem of_eq {R : α → α → Prop} (hR : ∀ a, R a a) {o o' : Option α} (h : o = o') : Option.Rel R o o' := by
  subst h
  cases o with
  | some a => exact .some (hR a)
  | none => exact .none

theorem map {S : γ → δ → Prop} {f : α → γ} {g : β → δ} (h : Option.Rel R o o') (hfg : ∀ a b, R a b → S (f a) (g b)) :
    Option.Rel S (o.map f) (o'.map g) := by
  cases h with
  | some h => exact .some (hfg _ _ h)
  | none => exact .none

theorem map_eq {f : α → γ} {g : β → γ} (h : Option.Rel R o o') (hfg : ∀ a b, R a b → f a = g b) : o.map f = o'.map g := by
  cases h with
  | some h => exact congrArg some (hfg _ _ h)
  | none => rfl

end Option.Rel

/-! ## Matched entries -/

/-- Maps without repeated keys that have the same keys, and under each key values that are related. -/
structure Entries.Matched {α β : Type} (R : α → β → Prop) (es : Entries α) (fs : Entries β) : Prop where
  left : Nodup es
  right : Nodup fs
  rel (k : String) : Option.Rel R (find? es k) (find? fs k)

namespace Entries.Matched

variable {α β : Type} {R S : α → β → Prop} {es es' : Entries α} {fs fs' : Entries β}

/-- What follows for the parts of maps, one by one. -/
theorem of_components (h : Matched R es fs) (hparts : ∀ v ∈ es.map Prod.snd, ∀ w, R v w → S v w) : Matched S es fs where
  left := h.left
  right := h.right
  rel k := by
    have hrel := h.rel k
    generalize hv : find? es k = o at hrel ⊢
    generalize find? fs k = o' at hrel ⊢
    cases hrel with
    | some h => exact .some (hparts _ (List.mem_map_of_mem (mem_of_find? hv)) _ h)
    | none => exact .none

theorem keys_perm (h : Matched R es fs) : (keys es).Perm (keys fs) := by
  refine (List.perm_ext_iff_of_nodup h.left h.right).2 fun k => not_iff_not.1 ?_
  have hrel := h.rel k
  rw [← find?_eq_none_iff, ← find?_eq_none_iff]
  generalize find? es k = o at hrel ⊢
  generalize find? fs k = o' at hrel ⊢
  cases hrel <;> simp

theorem length_eq (h : Matched R es fs) : es.length = fs.length := by
  simpa [keys] using h.keys_perm.length_eq

/-- Maps of one size match if each value of the first is related to what is under its key in the second. -/
theorem of_find? (hes : Nodup es) (hfs : Nodup fs) (hlength : es.length = fs.length)
    (h : ∀ e ∈ es, ∃ w, find? fs e.1 = some w ∧ R e.2 w) : Matched R es fs where
  left := hes
  right := hfs
  rel k := by
    have hkeys := keys_perm_of_find? hes hlength fun e he => (h e he).imp fun _ hw => hw.1
    cases hv : find? es k with
    | none =>
      have hk : k ∉ keys fs := fun hk => find?_eq_none_iff.1 hv (hkeys.mem_iff.2 hk)
      rw [find?_eq_none_iff.2 hk]
      exact .none
    | some v =>
      obtain ⟨w, hw, hvw⟩ := h _ (mem_of_find? hv)
      rw [hw]
      exact .some hvw

/-- The values of one map are in the other. -/
theorem exists_of_mem (h : Matched R es fs) {e : String × α} (he : e ∈ es) :
    ∃ w, find? fs e.1 = some w ∧ R e.2 w := by
  have hrel := h.rel e.1
  rw [(find?_eq_some_iff h.left).2 he] at hrel
  generalize find? fs e.1 = o at hrel ⊢
  cases hrel with
  | some h => exact ⟨_, rfl, h⟩

theorem flip (h : Matched R es fs) : Matched (fun w v => R v w) fs es where
  left := h.right
  right := h.left
  rel k := by
    have hrel := h.rel k
    generalize find? es k = o at hrel ⊢
    generalize find? fs k = o' at hrel ⊢
    cases hrel with
    | some h => exact .some h
    | none => exact .none

theorem nil : Matched R [] [] := ⟨List.nodup_nil, List.nodup_nil, fun _ => .none⟩

theorem insert (h : Matched R es fs) (k : String) {v : α} {w : β} (hvw : R v w) :
    Matched R (Entries.insert es k v) (Entries.insert fs k w) where
  left := nodup_insert h.left k v
  right := nodup_insert h.right k w
  rel l := by
    rw [find?_insert, find?_insert]
    split
    · exact .some hvw
    · exact h.rel l

theorem union (h : Matched R es fs) (h' : Matched R es' fs') :
    Matched R (Entries.union es es') (Entries.union fs fs') where
  left := nodup_union h.left es'
  right := nodup_union h.right fs'
  rel k := by
    rw [find?_union h'.left, find?_union h'.right]
    have hrel := h'.rel k
    generalize find? es' k = o at hrel ⊢
    generalize find? fs' k = o' at hrel ⊢
    cases hrel with
    | some h => exact .some h
    | none => exact h.rel k

end Entries.Matched

/-! ## Likeness -/

namespace Value

theorem like_of_content {m n : Option Nat} {c : Content Value} (h : (new c).Partless) : Like ⟨m, c⟩ ⟨n, c⟩ :=
  .mk (.alone h)

theorem Partless.like {v : Value} (h : v.Partless) : v.Like v := by
  obtain ⟨m, c⟩ := v
  exact like_of_content h

theorem like_number {x y : Float} (h : Number.plain x = Number.plain y) : (number x).Like (number y) := .mk (.number h)

/-- A value without repeated keys is built like itself. -/
theorem Keyed.like {v : Value} (h : v.Keyed) : v.Like v := by
  induction v using induct with
  | h v ih =>
    obtain ⟨m, c⟩ := v
    cases c with
    | array vs => exact .mk (.array (List.forall₂_same.2 fun u hu => ih u hu ((each_array.1 h).2 u hu)))
    | map es =>
      obtain ⟨hnodup, hes⟩ := each_map.1 h
      refine .mk (.map hnodup hnodup fun k => ?_)
      cases hfind : Entries.find? es k with
      | none => exact .none
      | some u =>
        have hmem := Entries.mem_of_find? hfind
        exact .some (ih u (List.mem_map_of_mem hmem) (hes _ hmem))
    | _ => exact like_of_content ⟨Kind.noConfusion, Kind.noConfusion⟩

/-- What follows for values that are alike if it follows for all their components. -/
theorem Like.induct {P : Value → Value → Prop}
    (hP : ∀ {m n : Option Nat} {c d : Content Value}, c.Like (fun v w => v.Like w ∧ P v w) d → P ⟨m, c⟩ ⟨n, d⟩)
    {v w : Value} (h : v.Like w) : P v w := by
  induction v using Value.induct generalizing w with
  | h v ih =>
    have hboth : ∀ u ∈ v.components, ∀ x, u.Like x → u.Like x ∧ P u x := fun u hu x hux => ⟨hux, ih u hu hux⟩
    have hitems : ∀ {ws : List Value}, List.Forall₂ Like v.components ws →
        List.Forall₂ (fun v w => v.Like w ∧ P v w) v.components ws := fun h =>
      ((List.forall₂_and_left _ _).2 ⟨hboth, h⟩).imp fun _ x h => h.1 x h.2
    obtain @⟨m, n, c, d, halike⟩ := h
    cases halike with
    | alone hc => exact hP (.alone hc)
    | number hxy => exact hP (.number hxy)
    | array hvs => exact hP (.array (hitems hvs))
    | listed hshort hvs => exact hP (.listed hshort (hitems hvs))
    | unlisted hshort hvs => exact hP (.unlisted hshort (hitems hvs))
    | map hes hfs hrel =>
      have hmatched := Entries.Matched.of_components ⟨hes, hfs, hrel⟩ hboth
      exact hP (.map hes hfs hmatched.rel)

/-! ## Equal values -/

/-- Every array in the value has a length that an array can have. -/
def Short (v : Value) : Prop := v.Each ShortPart

theorem like_of_isInteger {i : Int} {v : Value} (h : v.isInteger i = true) : v.Like (integer i) := by
  obtain ⟨m, c⟩ := v
  cases c with
  | number x => exact .mk (.number (Number.plain_eq_iff.2 (.inl h)))
  | _ => cases h

theorem like_integer_of_isInteger {i : Int} {v : Value} (h : v.isInteger i = true) : (integer i).Like v := by
  obtain ⟨m, c⟩ := v
  cases c with
  | number x => exact .mk (.number (Number.plain_eq_iff.2 (.inl h)).symm)
  | _ => cases h

/-- The items that a range matches, one by one. -/
theorem forall₂_of_matchesItems {first last : Int} {vs : List Value} (hshort : vs.length < 18446744073709551615)
    (h : Range.matchesItems first last vs = true) :
    List.Forall₂ (fun i v => v.isInteger i = true) ((Range.between first last).items 0) vs := by
  rw [matchesItems_eq, Bool.and_eq_true, beq_iff_eq] at h
  have hlength : vs.length = min (Range.count first last) 18446744073709551615 := h.1
  refine List.forall₂_iff_zip.2 ⟨?_, fun {i v} hmem => ?_⟩
  · rw [Range.items_length]
    show Range.count first last = vs.length
    omega
  · exact List.all_eq_true.1 h.2 (i, v) hmem

theorem equalEntries_iff {es fs : Entries Value} : equalEntries es fs = true ↔
    ∀ e ∈ es, ∃ w, Entries.find? fs e.1 = some w ∧ e.2.equals w = true := by
  induction es with
  | nil => simp [equalEntries]
  | cons e es ih =>
    obtain ⟨k, v⟩ := e
    rw [equalEntries, Bool.and_eq_true, ih, List.forall_mem_cons]
    cases Entries.find? fs k <;> simp

theorem forall₂_of_equalItems {R : Value → Value → Prop} {vs ws : List Value} (h : equalItems vs ws = true)
    (hR : ∀ v ∈ vs, ∀ w ∈ ws, v.equals w = true → R v w) : List.Forall₂ R vs ws := by
  induction vs generalizing ws with
  | nil =>
    cases ws with
    | nil => exact .nil
    | cons => cases h
  | cons v vs ih =>
    cases ws with
    | nil => cases h
    | cons w ws =>
      rw [equalItems, Bool.and_eq_true] at h
      refine .cons (hR v List.mem_cons_self w List.mem_cons_self h.1) (ih h.2 fun v hv w hw => ?_)
      exact hR v (List.mem_cons_of_mem _ hv) w (List.mem_cons_of_mem _ hw)

/-- Equal values are built alike. -/
theorem like_of_equals {v w : Value} (hv : v.Keyed) (hw : w.Keyed) (hv' : v.Short) (hw' : w.Short)
    (h : v.equals w = true) : v.Like w := by
  induction v using induct generalizing w with
  | h v ih =>
    obtain ⟨m, c⟩ := v
    obtain ⟨n, d⟩ := w
    cases c with
    | array vs =>
      obtain ⟨-, hvs⟩ := each_array.1 hv
      obtain ⟨hshort, hvs'⟩ := each_array.1 hv'
      cases d with
      | array ws =>
        obtain ⟨-, hws⟩ := each_array.1 hw
        obtain ⟨-, hws'⟩ := each_array.1 hw'
        exact .mk (.array (forall₂_of_equalItems h fun v hv w hw => ih v hv (hvs v hv) (hws w hw) (hvs' v hv) (hws' w hw)))
      | range r =>
        cases r with
        | between first last =>
          refine .mk (.listed hshort ?_)
          rw [integers, List.forall₂_map_right_iff]
          exact (forall₂_of_matchesItems hshort h).flip.imp fun _ _ h => like_of_isInteger h
        | _ => cases h
      | _ => cases h
    | map es =>
      obtain ⟨hnodup, hes⟩ := each_map.1 hv
      obtain ⟨-, hes'⟩ := each_map.1 hv'
      cases d with
      | map fs =>
        obtain ⟨hnodup', hfs⟩ := each_map.1 hw
        obtain ⟨-, hfs'⟩ := each_map.1 hw'
        have hequal : (es.length == fs.length && equalEntries es fs) = true := h
        rw [Bool.and_eq_true, beq_iff_eq] at hequal
        have hmatched : Entries.Matched Like es fs := .of_find? hnodup hnodup' hequal.1 fun e he => by
          obtain ⟨w, hw, hvw⟩ := equalEntries_iff.1 hequal.2 e he
          have hmem := Entries.mem_of_find? hw
          exact ⟨w, hw, ih e.2 (List.mem_map_of_mem he) (hes e he) (hfs _ hmem) (hes' e he) (hfs' _ hmem) hvw⟩
        exact .mk (.map hmatched.left hmatched.right hmatched.rel)
      | _ => cases h
    | range r =>
      cases d with
      | array ws =>
        obtain ⟨hshort, -⟩ := each_array.1 hw'
        cases r with
        | between first last =>
          refine .mk (.unlisted hshort ?_)
          rw [integers, List.forall₂_map_left_iff]
          exact (forall₂_of_matchesItems hshort h).imp fun _ _ h => like_integer_of_isInteger h
        | _ => cases h
      | range s =>
        have hrange : r = s := by cases r <;> exact of_decide_eq_true h
        rw [hrange]
        exact like_of_content ⟨Kind.noConfusion, Kind.noConfusion⟩
      | _ => cases r <;> cases h
    | number x =>
      cases d with
      | number y =>
        have hequal : (x == y || (x.isNaN && y.isNaN && m == n)) = true := h
        rw [Bool.or_eq_true, Bool.and_eq_true, Bool.and_eq_true] at hequal
        exact .mk (.number (Number.plain_eq_iff.2 (hequal.imp_right fun h => h.1)))
      | _ => cases h
    | boolean b =>
      cases d with
      | boolean b' =>
        rw [beq_iff_eq.1 (show (b == b') = true from h)]
        exact like_of_content ⟨Kind.noConfusion, Kind.noConfusion⟩
      | _ => cases h
    | string s =>
      cases d with
      | string t =>
        rw [beq_iff_eq.1 (show (s == t) = true from h)]
        exact like_of_content ⟨Kind.noConfusion, Kind.noConfusion⟩
      | _ => cases h
    | null | undefined =>
      cases d <;> first | exact like_of_content ⟨Kind.noConfusion, Kind.noConfusion⟩ | cases h

/-! ## The other way round -/

theorem Like.equals_number {m n : Option Nat} {x y : Float} (h : Number.plain x = Number.plain y) :
    (bare ⟨m, .number x⟩).equals (bare ⟨n, .number y⟩) = true := by
  show (x == y || (x.isNaN && y.isNaN && (none : Option Nat) == none)) = true
  rw [Bool.or_eq_true, Bool.and_eq_true, Bool.and_eq_true]
  exact (Number.plain_eq_iff.1 h).imp_right fun h => ⟨h, rfl⟩

theorem bare_of_partless {m n : Option Nat} {c : Content Value} (h : (new c).Partless) : bare ⟨m, c⟩ = bare ⟨n, c⟩ := by
  cases c with
  | array => exact absurd rfl h.1
  | map => exact absurd rfl h.2
  | _ => rfl

theorem Like.equals_alone {m n : Option Nat} {c : Content Value} (h : (new c).Partless) :
    (bare ⟨m, c⟩).equals (bare ⟨n, c⟩) = true := by
  rw [bare_of_partless h]
  cases c with
  | array => exact absurd rfl h.1
  | map => exact absurd rfl h.2
  | _ => exact equals_self trivial

theorem equalItems_of_forall₂ {vs ws : List Value} (h : List.Forall₂ (fun v w => v.bare.equals w.bare = true) vs ws) :
    equalItems (vs.map bare) (ws.map bare) = true := by
  induction h with
  | nil => rfl
  | cons hv _ ih =>
    rw [List.map_cons, List.map_cons, equalItems, hv, ih]
    rfl

/-- A range that is no longer than an array can be equals what the array of its integers equals. -/
theorem matchesItems_of_short {first last : Int} {vs : List Value} (hshort : vs.length < 18446744073709551615)
    (hlength : vs.length = (integers first last).length) :
    Range.matchesItems first last vs = equalItems vs (integers first last) ∧
      Range.matchesItems first last vs = equalItems (integers first last) vs := by
  have hcount : (Range.between first last).length 0 = ((Range.between first last).items 0).length := by
    rw [integers, List.length_map, Range.items_length] at hlength
    have hlength : vs.length = Range.count first last := hlength
    rw [Range.items_length]
    show min (Range.count first last) 18446744073709551615 = Range.count first last
    omega
  rw [matchesItems_eq, hcount, integers, (equalItems_integers _ vs).1, (equalItems_integers _ vs).2]
  exact ⟨rfl, rfl⟩

theorem Like.equals_map {m n : Option Nat} {es fs : Entries Value}
    (h : Entries.Matched (fun v w => v.bare.equals w.bare = true) es fs) :
    (bare ⟨m, .map es⟩).equals (bare ⟨n, .map fs⟩) = true := by
  rw [bare, bare, bareEntries_eq, bareEntries_eq, Value.equals, Bool.and_eq_true, beq_iff_eq]
  refine ⟨by simp [Entries.mapValues, h.length_eq], equalEntries_iff.2 fun e he => ?_⟩
  obtain ⟨f, hf, rfl⟩ := List.mem_map.1 he
  obtain ⟨w, hw, hequal⟩ := h.exists_of_mem hf
  refine ⟨w.bare, ?_, hequal⟩
  rw [Entries.find?_mapValues, hw]
  rfl

/-- Values that are built alike are equal, if marks are taken off and so every not-a-number equals itself. -/
theorem Like.equals {v w : Value} (h : v.Like w) : v.bare.equals w.bare = true := by
  refine Like.induct (P := fun v w => v.bare.equals w.bare = true) (fun {m n c d} halike => ?_) h
  have hitems : ∀ {vs ws : List Value}, List.Forall₂ (fun v w => v.Like w ∧ v.bare.equals w.bare = true) vs ws →
      equalItems (vs.map bare) (ws.map bare) = true := fun h => equalItems_of_forall₂ (h.imp fun _ _ h => h.2)
  cases halike with
  | alone hc => exact equals_alone hc
  | number hxy => exact equals_number hxy
  | array hvs =>
    rw [bare, bare, bareItems_eq, bareItems_eq]
    exact hitems hvs
  | map hes hfs hrel =>
    exact equals_map (Entries.Matched.of_components ⟨hes, hfs, hrel⟩ fun _ _ _ h => h.2)
  | @listed first last vs hshort hvs =>
    have hequal := hitems hvs
    rw [map_bare_integers, ← (matchesItems_of_short _ _).1] at hequal
    · rw [bare, bareItems_eq]
      exact hequal
    · rwa [List.length_map]
    · rw [List.length_map, hvs.length_eq]
  | @unlisted first last vs hshort hvs =>
    have hequal := hitems hvs
    rw [map_bare_integers, ← (matchesItems_of_short _ _).2] at hequal
    · rw [bare, bare, bareItems_eq]
      exact hequal
    · rwa [List.length_map]
    · rw [List.length_map, hvs.length_eq]

end Value

end ExprLang
