import ExprLang.Evaluation
import ExprLang.Proofs.Bare.Step
import ExprLang.Proofs.Entries

/-!
# What values hand on

`Value.Each P` says that a value and all its parts have the property `P`. A step makes its result of
scalars, of parts of its operands and of new arrays and maps over them. So a property that these new
containers have (`Heritable`) goes from the operands of every step to its result: `each_apply`,
`each_afterLeft`, `each_subscript`, `each_splice`.
-/

namespace ExprLang

/-! ## Properties of all parts -/

mutual

/-- Whether a value and all its parts have a property. -/
def Value.Each (P : Value → Prop) : Value → Prop
  | ⟨m, .array items⟩ => P ⟨m, .array items⟩ ∧ EachItem P items
  | ⟨m, .map entries⟩ => P ⟨m, .map entries⟩ ∧ EachEntry P entries
  | ⟨m, .boolean b⟩ => P ⟨m, .boolean b⟩
  | ⟨m, .string s⟩ => P ⟨m, .string s⟩
  | ⟨m, .number x⟩ => P ⟨m, .number x⟩
  | ⟨m, .range r⟩ => P ⟨m, .range r⟩
  | ⟨m, .null⟩ => P ⟨m, .null⟩
  | ⟨m, .undefined⟩ => P ⟨m, .undefined⟩

def EachItem (P : Value → Prop) : List Value → Prop
  | [] => True
  | v :: vs => v.Each P ∧ EachItem P vs

def EachEntry (P : Value → Prop) : List (String × Value) → Prop
  | [] => True
  | (_, v) :: es => v.Each P ∧ EachEntry P es

end

section

variable {P : Value → Prop}

theorem eachItem_iff {vs : List Value} : EachItem P vs ↔ ∀ v ∈ vs, v.Each P := by
  induction vs with
  | nil => simp [EachItem]
  | cons v vs ih => rw [EachItem, List.forall_mem_cons, ih]

theorem eachEntry_iff {es : List (String × Value)} : EachEntry P es ↔ ∀ f ∈ es, f.2.Each P := by
  induction es with
  | nil => simp [EachEntry]
  | cons f es ih => rw [EachEntry, List.forall_mem_cons, ih]

namespace Value

variable {m : Option Nat}

theorem each_array {vs : List Value} : Each P ⟨m, .array vs⟩ ↔ P ⟨m, .array vs⟩ ∧ ∀ v ∈ vs, v.Each P := by
  rw [Each, eachItem_iff]

theorem each_map {es : List (String × Value)} : Each P ⟨m, .map es⟩ ↔ P ⟨m, .map es⟩ ∧ ∀ f ∈ es, f.2.Each P := by
  rw [Each, eachEntry_iff]

end Value

end

mutual

theorem Value.Each.mono {P Q : Value → Prop} (h : ∀ v, P v → Q v) : ∀ {v : Value}, v.Each P → v.Each Q
  | ⟨_, .array _⟩, hv => ⟨h _ hv.1, EachItem.mono h hv.2⟩
  | ⟨_, .map _⟩, hv => ⟨h _ hv.1, EachEntry.mono h hv.2⟩
  | ⟨_, .boolean _⟩, hv | ⟨_, .string _⟩, hv | ⟨_, .number _⟩, hv | ⟨_, .range _⟩, hv | ⟨_, .null⟩, hv
  | ⟨_, .undefined⟩, hv => h _ hv

theorem EachItem.mono {P Q : Value → Prop} (h : ∀ v, P v → Q v) : ∀ {vs : List Value}, EachItem P vs → EachItem Q vs
  | [], _ => trivial
  | _ :: _, hvs => ⟨Value.Each.mono h hvs.1, EachItem.mono h hvs.2⟩

theorem EachEntry.mono {P Q : Value → Prop} (h : ∀ v, P v → Q v) :
    ∀ {es : List (String × Value)}, EachEntry P es → EachEntry Q es
  | [], _ => trivial
  | (_, _) :: _, hes => ⟨Value.Each.mono h hes.1, EachEntry.mono h hes.2⟩

end

/-! ## Checking all parts -/

mutual

def Value.decideEach (P : Value → Prop) [DecidablePred P] : ∀ v : Value, Decidable (v.Each P)
  | ⟨m, .array items⟩ =>
    have := decideEachItem P items
    inferInstanceAs (Decidable (P ⟨m, .array items⟩ ∧ EachItem P items))
  | ⟨m, .map entries⟩ =>
    have := decideEachEntry P entries
    inferInstanceAs (Decidable (P ⟨m, .map entries⟩ ∧ EachEntry P entries))
  | ⟨m, .boolean b⟩ => inferInstanceAs (Decidable (P ⟨m, .boolean b⟩))
  | ⟨m, .string s⟩ => inferInstanceAs (Decidable (P ⟨m, .string s⟩))
  | ⟨m, .number x⟩ => inferInstanceAs (Decidable (P ⟨m, .number x⟩))
  | ⟨m, .range r⟩ => inferInstanceAs (Decidable (P ⟨m, .range r⟩))
  | ⟨m, .null⟩ => inferInstanceAs (Decidable (P ⟨m, .null⟩))
  | ⟨m, .undefined⟩ => inferInstanceAs (Decidable (P ⟨m, .undefined⟩))

def decideEachItem (P : Value → Prop) [DecidablePred P] : ∀ vs : List Value, Decidable (EachItem P vs)
  | [] => isTrue trivial
  | v :: vs =>
    have := v.decideEach P
    have := decideEachItem P vs
    inferInstanceAs (Decidable (v.Each P ∧ EachItem P vs))

def decideEachEntry (P : Value → Prop) [DecidablePred P] : ∀ es : List (String × Value), Decidable (EachEntry P es)
  | [] => isTrue trivial
  | (_, v) :: es =>
    have := v.decideEach P
    have := decideEachEntry P es
    inferInstanceAs (Decidable (v.Each P ∧ EachEntry P es))

end

instance (P : Value → Prop) [DecidablePred P] (v : Value) : Decidable (v.Each P) := v.decideEach P

/-! ## Lists of results -/

theorem Option.exists_of_mem_mapM {α β : Type} {f : α → Option β} {xs : List α} {ys : List β}
    (h : xs.mapM f = some ys) : ∀ y ∈ ys, ∃ x ∈ xs, f x = some y := by
  induction xs generalizing ys with
  | nil =>
    cases h
    exact fun _ hy => absurd hy List.not_mem_nil
  | cons x xs ih =>
    rw [List.mapM_cons] at h
    obtain ⟨z, hz, h⟩ := Option.bind_eq_some_iff.1 h
    obtain ⟨zs, hzs, h⟩ := Option.bind_eq_some_iff.1 h
    cases h
    refine List.forall_mem_cons.2 ⟨⟨x, List.mem_cons_self, hz⟩, fun y hy => ?_⟩
    obtain ⟨w, hw, hy⟩ := ih hzs y hy
    exact ⟨w, List.mem_cons_of_mem _ hw, hy⟩

theorem Except.exists_of_mem_mapM {ε α β : Type} {f : α → Except ε β} {xs : List α} {ys : List β}
    (h : xs.mapM f = .ok ys) : ∀ y ∈ ys, ∃ x ∈ xs, f x = .ok y := by
  induction xs generalizing ys with
  | nil =>
    cases h
    exact fun _ hy => absurd hy List.not_mem_nil
  | cons x xs ih =>
    rw [List.mapM_cons] at h
    obtain ⟨z, hz, h⟩ := Except.bind_ok.1 h
    obtain ⟨zs, hzs, h⟩ := Except.bind_ok.1 h
    cases h
    refine List.forall_mem_cons.2 ⟨⟨x, List.mem_cons_self, hz⟩, fun y hy => ?_⟩
    obtain ⟨w, hw, hy⟩ := ih hzs y hy
    exact ⟨w, List.mem_cons_of_mem _ hw, hy⟩

/-! ## Results without parts -/

/-- Neither an array nor a map. -/
def Value.Partless (v : Value) : Prop := v.kind ≠ .array ∧ v.kind ≠ .map

/-- A new value without parts. -/
structure Value.Plain (v : Value) : Prop where
  new : v.mark = none
  partless : v.Partless

namespace Value

variable {l r v w : Value}

theorem plain_undefined : undefined.Plain := ⟨rfl, Kind.noConfusion, Kind.noConfusion⟩

theorem plain_boolean (b : Bool) : (boolean b).Plain := ⟨rfl, Kind.noConfusion, Kind.noConfusion⟩

theorem plain_string (s : String) : (string s).Plain := ⟨rfl, Kind.noConfusion, Kind.noConfusion⟩

theorem plain_number (x : Float) : (number x).Plain := ⟨rfl, Kind.noConfusion, Kind.noConfusion⟩

theorem plain_range (r : Range) : (range r).Plain := ⟨rfl, Kind.noConfusion, Kind.noConfusion⟩

theorem orInvalidOperand_ok {o : Option Value} : v.orInvalidOperand o = .ok w ↔ o = some w := by
  cases o <;> simp [orInvalidOperand]

theorem orInvalidOperands_ok {o : Option Value} : l.orInvalidOperands r o = .ok w ↔ o = some w := by
  cases o <;> simp [orInvalidOperands]

theorem arithmetic_plain {f : Float → Float → Float} (h : l.arithmetic f r = .ok w) : w.Plain := by
  unfold arithmetic at h
  split at h
  · cases h
    exact plain_undefined
  · obtain ⟨p, -, rfl⟩ := Option.map_eq_some_iff.1 (orInvalidOperands_ok.1 h)
    exact plain_number _

theorem bitwise_plain {f : Int → Int → Int} (h : l.bitwise f r = .ok w) : w.Plain := by
  unfold bitwise at h
  split at h
  · cases h
    exact plain_undefined
  · obtain ⟨i, -, h⟩ := Option.bind_eq_some_iff.1 (orInvalidOperands_ok.1 h)
    obtain ⟨j, -, h⟩ := Option.bind_eq_some_iff.1 h
    cases h
    exact plain_number _

theorem comparison_plain {test : Ordering → Bool} (h : l.comparison test r = .ok w) : w.Plain := by
  unfold comparison at h
  cases ho : l.compare r with
  | ok o =>
    rw [ho] at h
    cases h
    exact plain_boolean _
  | error e =>
    rw [ho] at h
    cases h

theorem rangeTo_plain (h : l.rangeTo r = .ok w) : w.Plain := by
  unfold rangeTo at h
  split at h
  · cases h
    exact plain_undefined
  · obtain ⟨i, -, h⟩ := Except.bind_ok.1 h
    obtain ⟨j, -, h⟩ := Except.bind_ok.1 h
    cases h
    exact plain_range _

/-- A sum has no parts, or is made of both operands. -/
theorem add_cases (h : l.add r = .ok w) : w.Plain ∨ l.concatenation? r = some w := by
  unfold add at h
  split at h
  · cases h
    exact .inl plain_undefined
  · rw [orInvalidOperands_ok, Option.or_eq_some_iff] at h
    rcases h with h | ⟨-, h⟩
    · obtain ⟨p, -, rfl⟩ := Option.map_eq_some_iff.1 h
      exact .inl (plain_number _)
    · exact .inr h

end Value

/-- A group hands on its operand, any other unary operator makes a value without parts. -/
theorem UnaryOp.apply_cases {op : UnaryOp} {v w : Value} (h : op.apply v = .ok w) : op = .group ∧ w = v ∨ w.Plain := by
  unfold apply at h
  split at h
  · cases h
    exact .inr Value.plain_undefined
  · cases op with
    | plus | minus =>
      obtain ⟨x, -, rfl⟩ := Option.map_eq_some_iff.1 (Value.orInvalidOperand_ok.1 h)
      exact .inr (Value.plain_number _)
    | not =>
      dsimp only at h
      split at h
      · cases h
        exact .inr (Value.plain_boolean _)
      · cases h
    | bitNot =>
      dsimp only at h
      split at h
      · obtain ⟨i, -, rfl⟩ := Option.map_eq_some_iff.1 (Value.orInvalidOperand_ok.1 h)
        exact .inr (Value.plain_number _)
      · cases h
    | group =>
      cases h
      exact .inl ⟨rfl, rfl⟩
    | startingAt | endingAt =>
      obtain ⟨i, -, h⟩ := Except.bind_ok.1 h
      cases h
      exact .inr (Value.plain_range _)

/-- A logical operator makes values without parts only. -/
def Demand.Plain : Demand → Prop
  | done r => ∀ w, r = .ok w → w.Plain
  | right finish => ∀ v w, finish v = .ok w → w.Plain

theorem Value.logical_plain (decisive : Bool) (l : Value) : (l.logical decisive).Plain := by
  unfold logical
  split
  · rintro w ⟨⟩
    exact plain_undefined
  · split
    · rintro w ⟨⟩
      exact plain_boolean _
    · intro r w h
      dsimp only at h
      split at h
      · cases h
        exact plain_boolean _
      · split at h
        · cases h
          exact plain_undefined
        · cases h

/-! ## Subscripts -/

/-- What a subscript may take out of a value. -/
inductive Value.Selects : Value → Value → Prop
  | partless {v w : Value} : w.Partless → Selects v w
  | item {m : Option Nat} {vs : List Value} {w : Value} : w ∈ vs → Selects ⟨m, .array vs⟩ w
  | items {m : Option Nat} {vs ws : List Value} : (∀ w ∈ ws, w ∈ vs) → Selects ⟨m, .array vs⟩ (array ws)
  | entry {m : Option Nat} {es : Entries Value} {k : String} {w : Value} : (k, w) ∈ es → Selects ⟨m, .map es⟩ w
  | entries {m : Option Nat} {es fs : Entries Value} : Entries.Nodup fs → (∀ f ∈ fs, f ∈ es) →
      Selects ⟨m, .map es⟩ (map fs)

namespace Value

theorem mem_of_pick? {α : Type} {xs : List α} {p : Option Nat} {x : α} (h : pick? xs p = some x) : x ∈ xs := by
  obtain ⟨i, -, hi⟩ := Option.bind_eq_some_iff.1 h
  exact List.mem_of_getElem? hi

theorem mem_of_mapM_pick? {α : Type} {xs ys : List α} {ps : List (Option Nat)} (h : ps.mapM (pick? xs) = some ys) :
    ∀ y ∈ ys, y ∈ xs := fun y hy => by
  obtain ⟨p, -, hp⟩ := Option.exists_of_mem_mapM h y hy
  exact mem_of_pick? hp

theorem submap_selects {origin : Value → Option Location} {es : Entries Value} {keys : List Value}
    {found fs : Entries Value} (h : submap origin es keys found = .ok fs) (hnodup : Entries.Nodup found)
    (hfound : ∀ f ∈ found, f ∈ es) : Entries.Nodup fs ∧ ∀ f ∈ fs, f ∈ es := by
  induction keys generalizing found with
  | nil =>
    cases h
    exact ⟨hnodup, hfound⟩
  | cons key keys ih =>
    rw [submap] at h
    split at h
    · split at h
      · next v hv =>
        refine ih h (Entries.nodup_insert hnodup _ v) fun f hf => ?_
        rcases Entries.mem_insert hf with hf | rfl
        · exact hfound f hf
        · exact Entries.mem_of_find? hv
      · exact ih h hnodup hfound
    · cases h

theorem subscript_selects {origin : Value → Option Location} {base index w : Value}
    (h : base.subscript origin index = .ok w) : base.Selects w := by
  obtain ⟨m, c⟩ := base
  obtain ⟨n, d⟩ := index
  cases c with
  | string s =>
    cases d with
    | boolean | number =>
      obtain ⟨i, -, h⟩ := Except.bind_ok.1 h
      split at h
      · cases h
        exact .partless (plain_string _).partless
      · cases h
    | array | range =>
      obtain ⟨ps, -, h⟩ := Except.bind_ok.1 h
      cases h
      exact .partless (plain_string _).partless
    | _ => cases h
  | array items =>
    cases d with
    | boolean | number =>
      obtain ⟨i, -, h⟩ := Except.bind_ok.1 h
      split at h
      · next hv =>
        cases h
        exact .item (mem_of_pick? hv)
      · cases h
    | array | range =>
      obtain ⟨ps, -, h⟩ := Except.bind_ok.1 h
      split at h
      · next hvs =>
        cases h
        exact .items (mem_of_mapM_pick? hvs)
      · cases h
    | _ => cases h
  | map entries =>
    cases d with
    | string k =>
      obtain rfl : (Entries.find? entries k).getD undefined = w := Except.ok.inj h
      cases hv : Entries.find? entries k with
      | none => exact .partless plain_undefined.partless
      | some v => exact .entry (Entries.mem_of_find? hv)
    | array keys =>
      obtain ⟨fs, hfs, h⟩ := Except.bind_ok.1 h
      cases h
      obtain ⟨hnodup, hsub⟩ := submap_selects hfs List.nodup_nil fun _ hf => absurd hf List.not_mem_nil
      exact .entries hnodup hsub
    | _ => cases h
  | _ => cases h

end Value

/-! ## Heritable properties -/

/-- A property that does not see marks, that values without parts have, and that new containers have
whose parts come from containers with it. -/
structure Value.Heritable (P : Value → Prop) : Prop where
  bare (v : Value) : P v.bare ↔ P v
  partless {v : Value} : v.Partless → P v
  append {vs ws : List Value} : P (.array vs) → P (.array ws) → P (.array (vs ++ ws))
  select {vs ws : List Value} : P (.array vs) → (∀ w ∈ ws, w ∈ vs) → P (.array ws)
  entries {es : Entries Value} : Entries.Nodup es → P (.map es)
  union {es fs : Entries Value} : P (.map es) → P (.map fs) → P (.map (Entries.union es fs))

section

variable {P : Value → Prop}

mutual

theorem Value.each_bare (hP : ∀ v, P v.bare ↔ P v) : ∀ v : Value, v.bare.Each P ↔ v.Each P
  | ⟨m, .array vs⟩ => by
    have h := hP ⟨m, .array vs⟩
    rw [Value.bare] at h ⊢
    rw [Value.Each, Value.Each, h, eachItem_bare hP vs]
  | ⟨m, .map es⟩ => by
    have h := hP ⟨m, .map es⟩
    rw [Value.bare] at h ⊢
    rw [Value.Each, Value.Each, h, eachEntry_bare hP es]
  | ⟨m, .boolean b⟩ => hP ⟨m, .boolean b⟩
  | ⟨m, .string s⟩ => hP ⟨m, .string s⟩
  | ⟨m, .number x⟩ => hP ⟨m, .number x⟩
  | ⟨m, .range r⟩ => hP ⟨m, .range r⟩
  | ⟨m, .null⟩ => hP ⟨m, .null⟩
  | ⟨m, .undefined⟩ => hP ⟨m, .undefined⟩

theorem eachItem_bare (hP : ∀ v, P v.bare ↔ P v) : ∀ vs : List Value, EachItem P (bareItems vs) ↔ EachItem P vs
  | [] => Iff.rfl
  | v :: vs => by rw [bareItems, EachItem, EachItem, Value.each_bare hP v, eachItem_bare hP vs]

theorem eachEntry_bare (hP : ∀ v, P v.bare ↔ P v) : ∀ es : List (String × Value),
    EachEntry P (bareEntries es) ↔ EachEntry P es
  | [] => Iff.rfl
  | (k, v) :: es => by rw [bareEntries, EachEntry, EachEntry, Value.each_bare hP v, eachEntry_bare hP es]

end

variable (hP : Value.Heritable P)

include hP

theorem Value.each_stamp (v : Value) (n : Nat) : (v.stamp n).1.Each P ↔ v.Each P := by
  rw [← each_bare hP.bare (v.stamp n).1, bare_stamp, each_bare hP.bare]

/-! ## What steps hand on -/

theorem Value.Partless.each {v : Value} (h : v.Partless) : v.Each P := by
  obtain ⟨m, c⟩ := v
  cases c with
  | array => exact absurd rfl h.1
  | map => exact absurd rfl h.2
  | _ => exact hP.partless h

/-- The parts of a container do not depend on its mark. -/
theorem Value.each_new {m : Option Nat} {c : Content Value} : Each P ⟨m, c⟩ ↔ (new c).Each P := by
  rw [← each_bare hP.bare ⟨m, c⟩, ← each_bare hP.bare (new c)]
  cases c <;> rfl

theorem Value.each_concatenation {l r w : Value} (hl : l.Each P) (hr : r.Each P) (h : l.concatenation? r = some w) :
    w.Each P := by
  obtain ⟨m, c⟩ := l
  obtain ⟨n, d⟩ := r
  rw [each_new hP] at hl hr
  cases c with
  | string s =>
    cases d with
    | string t =>
      cases h
      exact Partless.each hP ⟨Kind.noConfusion, Kind.noConfusion⟩
    | _ => cases h
  | array vs =>
    cases d with
    | array ws =>
      cases h
      obtain ⟨hvs, hv⟩ := each_array.1 hl
      obtain ⟨hws, hw⟩ := each_array.1 hr
      exact each_array.2 ⟨hP.append hvs hws, List.forall_mem_append.2 ⟨hv, hw⟩⟩
    | _ => cases h
  | map es =>
    cases d with
    | map fs =>
      cases h
      obtain ⟨hes, he⟩ := each_map.1 hl
      obtain ⟨hfs, hf⟩ := each_map.1 hr
      exact each_map.2 ⟨hP.union hes hfs, fun g hg => (Entries.mem_union hg).elim (he g) (hf g)⟩
    | _ => cases h
  | _ => cases h

theorem UnaryOp.each_apply {op : UnaryOp} {v w : Value} (hv : v.Each P) (h : op.apply v = .ok w) : w.Each P := by
  rcases apply_cases h with ⟨-, rfl⟩ | hw
  · exact hv
  · exact hw.partless.each hP

/-- Whatever a demand gives has the property, if the right operand has it. -/
def Demand.Each (P : Value → Prop) : Demand → Prop
  | done r => ∀ w, r = .ok w → w.Each P
  | right finish => ∀ v w, v.Each P → finish v = .ok w → w.Each P

theorem BinaryOp.each_afterLeft {op : BinaryOp} {v : Value} (hv : v.Each P) : (op.afterLeft v).Each P := by
  have logical : ∀ decisive, (v.logical decisive).Each P := fun decisive => by
    have h := v.logical_plain decisive
    generalize v.logical decisive = d at h
    cases d with
    | done r => exact fun w hw => (h w hw).partless.each hP
    | right finish => exact fun u w _ hw => (h u w hw).partless.each hP
  cases op with
  | add => exact fun u w hu hw => (Value.add_cases hw).elim (·.partless.each hP) (Value.each_concatenation hP hv hu)
  | subtract | multiply | divide | modulo => exact fun u w _ hw => (Value.arithmetic_plain hw).partless.each hP
  | and | or => exact logical _
  | bitAnd | bitXor | bitOr | shiftLeft | shiftRight => exact fun u w _ hw => (Value.bitwise_plain hw).partless.each hP
  | less | lessOrEqual | greater | greaterOrEqual | equal | notEqual =>
    exact fun u w _ hw => (Value.comparison_plain hw).partless.each hP
  | range => exact fun u w _ hw => (Value.rangeTo_plain hw).partless.each hP
  | guarded =>
    show v.guarded.Each P
    unfold Value.guarded
    split
    · rintro w ⟨⟩
      exact Value.plain_undefined.partless.each hP
    · split
      · rintro u w hu ⟨⟩
        exact hu
      · rintro w ⟨⟩
        exact Value.plain_undefined.partless.each hP
      · rintro w ⟨⟩

/-- What an item contributes to an array is no range. -/
theorem Value.each_splice {v : Value} {vs : List Value} (hv : v.Each P) (h : v.splice = .ok vs) :
    ∀ w ∈ vs, w.kind ≠ .range ∧ w.Each P := by
  obtain ⟨m, c⟩ := v
  cases c with
  | range r =>
    cases r with
    | between first last =>
      cases h
      rintro w hw
      obtain ⟨i, -, rfl⟩ := List.mem_map.1 hw
      exact ⟨Kind.noConfusion, (plain_number _).partless.each hP⟩
    | _ => cases h
  | _ =>
    cases h
    exact List.forall_mem_singleton.2 ⟨Kind.noConfusion, hv⟩

theorem Value.Selects.each {v w : Value} (h : v.Selects w) (hv : v.Each P) : w.Each P := by
  cases h with
  | partless h => exact h.each hP
  | item h => exact (each_array.1 hv).2 w h
  | items h =>
    obtain ⟨hvs, hv⟩ := each_array.1 ((each_new hP).1 hv)
    exact each_array.2 ⟨hP.select hvs h, fun u hu => hv u (h u hu)⟩
  | entry h => exact (each_map.1 hv).2 _ h
  | entries hnodup h => exact each_map.2 ⟨hP.entries hnodup, fun f hf => (each_map.1 hv).2 f (h f hf)⟩

end

end ExprLang
