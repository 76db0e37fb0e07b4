import ExprLang.Value.Convert

/-!
# Values without marks

`Value.bare` takes the mark off a value and off each of its parts. Marks only tell objects apart, so
two values with the same bare value have the same kind and text (`kind_bare`, `render_bare`) and
convert alike: to the same scalars (`boolean?_bare`, `string?_bare`, `number?_bare`) and to the same
items up to marks (`items?_bare`).
-/

namespace ExprLang

mutual

/-- The value with no mark on it and none on its parts. -/
def Value.bare : Value → Value
  | ⟨_, .boolean b⟩ => ⟨none, .boolean b⟩
  | ⟨_, .string s⟩ => ⟨none, .string s⟩
  | ⟨_, .number x⟩ => ⟨none, .number x⟩
  | ⟨_, .array items⟩ => ⟨none, .array (bareItems items)⟩
  | ⟨_, .map entries⟩ => ⟨none, .map (bareEntries entries)⟩
  | ⟨_, .range r⟩ => ⟨none, .range r⟩
  | ⟨_, .null⟩ => ⟨none, .null⟩
  | ⟨_, .undefined⟩ => ⟨none, .undefined⟩

def bareItems : List Value → List Value
  | [] => []
  | v :: vs => v.bare :: bareItems vs

def bareEntries : List (String × Value) → List (String × Value)
  | [] => []
  | (k, v) :: es => (k, v.bare) :: bareEntries es

end

@[simp] theorem bareItems_eq (vs : List Value) : bareItems vs = vs.map Value.bare := by
  induction vs with
  | nil => rfl
  | cons v vs ih => rw [bareItems, ih, List.map_cons]

/-! ## Entries -/

namespace Entries

variable {α β : Type} (f : α → β)

/-- The entries with a function applied to every value. -/
def mapValues (es : Entries α) : Entries β := es.map fun e => (e.1, f e.2)

@[simp] theorem mapValues_cons (k : String) (v : α) (es : Entries α) :
    mapValues f ((k, v) :: es) = (k, f v) :: mapValues f es := rfl

theorem find?_mapValues (es : Entries α) (k : String) : find? (mapValues f es) k = (find? es k).map f := by
  induction es with
  | nil => rfl
  | cons e es ih =>
    obtain ⟨l, v⟩ := e
    rw [find?] at ih ⊢
    rw [find?, mapValues_cons, List.lookup_cons, List.lookup_cons]
    cases h : k == l with
    | true => rfl
    | false => exact ih

theorem insert_mapValues (es : Entries α) (k : String) (v : α) :
    insert (mapValues f es) k (f v) = mapValues f (insert es k v) := by
  induction es with
  | nil => rfl
  | cons e es ih =>
    obtain ⟨l, w⟩ := e
    rw [mapValues_cons, insert, insert, ih]
    split <;> rfl

theorem union_mapValues (es fs : Entries α) : union (mapValues f es) (mapValues f fs) = mapValues f (union es fs) := by
  unfold union
  induction fs generalizing es with
  | nil => rfl
  | cons e fs ih =>
    obtain ⟨k, v⟩ := e
    rw [mapValues_cons, List.foldl_cons, List.foldl_cons, insert_mapValues, ih]

/-- Sorting looks at the keys alone. -/
theorem sorted_mapValues (es : Entries α) : sorted (mapValues f es) = mapValues f (sorted es) := by
  unfold sorted mapValues
  exact (List.map_mergeSort (f := fun e : String × α => (e.1, f e.2)) fun _ _ _ _ => rfl).symm

end Entries

@[simp] theorem bareEntries_eq (es : Entries Value) : bareEntries es = Entries.mapValues Value.bare es := by
  induction es with
  | nil => rfl
  | cons e es ih => obtain ⟨k, v⟩ := e; rw [bareEntries, ih, Entries.mapValues_cons]

namespace Value

/-! ## Bare values -/

mutual

theorem bare_bare : ∀ v : Value, v.bare.bare = v.bare
  | ⟨_, .array items⟩ => by simp only [bare, bareItems_bareItems items]
  | ⟨_, .map entries⟩ => by simp only [bare, bareEntries_bareEntries entries]
  | ⟨_, .boolean _⟩ | ⟨_, .string _⟩ | ⟨_, .number _⟩ | ⟨_, .range _⟩ | ⟨_, .null⟩ | ⟨_, .undefined⟩ => rfl

theorem bareItems_bareItems : ∀ vs : List Value, bareItems (bareItems vs) = bareItems vs
  | [] => rfl
  | v :: vs => by rw [bareItems, bareItems, bare_bare v, bareItems_bareItems vs]

theorem bareEntries_bareEntries : ∀ es : List (String × Value), bareEntries (bareEntries es) = bareEntries es
  | [] => rfl
  | (k, v) :: es => by rw [bareEntries, bareEntries, bare_bare v, bareEntries_bareEntries es]

end

@[simp] theorem bare_boolean (b : Bool) : (boolean b).bare = boolean b := rfl

@[simp] theorem bare_string (s : String) : (string s).bare = string s := rfl

@[simp] theorem bare_number (x : Float) : (number x).bare = number x := rfl

@[simp] theorem bare_integer (i : Int) : (integer i).bare = integer i := rfl

@[simp] theorem bare_array (items : List Value) : (array items).bare = array (items.map bare) := by
  simp [array, new, bare]

@[simp] theorem bare_map (entries : Entries Value) : (map entries).bare = map (Entries.mapValues bare entries) := by
  simp [map, new, bare]

@[simp] theorem map_bare_integers (first last : Int) : (integers first last).map bare = integers first last := by
  simp [integers]

/-! ## Stamping -/

mutual

/-- Making an object of a value gives it marks and nothing else. -/
theorem bare_stamp : ∀ (v : Value) (n : Nat), (v.stamp n).1.bare = v.bare
  | ⟨some _, _⟩, _ => by rw [stamp]; rfl
  | ⟨none, .array items⟩, n => by
    rw [stamp, bare, ← bareItems_stampItems items n]
    rfl
  | ⟨none, .map entries⟩, n => by
    rw [stamp, bare, ← bareEntries_stampEntries entries n]
    rfl
  | ⟨none, .boolean _⟩, _ | ⟨none, .string _⟩, _ | ⟨none, .number _⟩, _ | ⟨none, .range _⟩, _ | ⟨none, .null⟩, _
  | ⟨none, .undefined⟩, _ => rfl

theorem bareItems_stampItems : ∀ (vs : List Value) (n : Nat), bareItems (stampItems vs n).1 = bareItems vs
  | [], _ => rfl
  | v :: vs, n => by
    rw [stampItems, bareItems, ← bare_stamp v n, ← bareItems_stampItems vs (v.stamp n).2]
    rfl

theorem bareEntries_stampEntries : ∀ (es : List (String × Value)) (n : Nat),
    bareEntries (stampEntries es n).1 = bareEntries es
  | [], _ => rfl
  | (k, v) :: es, n => by
    rw [stampEntries, bareEntries, ← bare_stamp v n, ← bareEntries_stampEntries es (v.stamp n).2]
    rfl

end

/-! ## What does not depend on marks -/

@[simp] theorem kind_bare (v : Value) : v.bare.kind = v.kind := by
  obtain ⟨m, c⟩ := v
  cases c <;> rfl

@[simp] theorem isUndefined_bare (v : Value) : v.bare.isUndefined = v.isUndefined := by simp [isUndefined]

mutual

theorem render_bare : ∀ (layout : Layout) (v : Value), v.bare.render layout = v.render layout
  | _, ⟨_, .array []⟩ | _, ⟨_, .map []⟩ => rfl
  | layout, ⟨_, .array (v :: vs)⟩ => by
    rw [bare, bareItems, render, render, ← bareItems, renderItems_bare layout.inner (v :: vs)]
  | layout, ⟨_, .map ((k, v) :: es)⟩ => by
    rw [bare, bareEntries, render, render, ← bareEntries, renderEntries_bare layout.inner ((k, v) :: es)]
  | _, ⟨_, .boolean _⟩ | _, ⟨_, .string _⟩ | _, ⟨_, .number _⟩ | _, ⟨_, .range _⟩ | _, ⟨_, .null⟩
  | _, ⟨_, .undefined⟩ => rfl

theorem renderItems_bare : ∀ (layout : Layout) (vs : List Value),
    renderItems layout (bareItems vs) = renderItems layout vs
  | _, [] => rfl
  | layout, v :: vs => by rw [bareItems, renderItems, renderItems, render_bare layout v, renderItems_bare layout vs]

theorem renderEntries_bare : ∀ (layout : Layout) (es : List (String × Value)),
    renderEntries layout (bareEntries es) = renderEntries layout es
  | _, [] => rfl
  | layout, (k, v) :: es => by
    rw [bareEntries, renderEntries, renderEntries, render_bare layout v, renderEntries_bare layout es]

end

@[simp] theorem text_bare (v : Value) : v.bare.text = v.text := render_bare .line v

/-! ## Conversions -/

@[simp] theorem boolean?_bare (v : Value) : v.bare.boolean? = v.boolean? := by
  obtain ⟨m, c⟩ := v
  cases c <;> rfl

@[simp] theorem string?_bare (v : Value) : v.bare.string? = v.string? := by
  obtain ⟨m, c⟩ := v
  cases c <;> rfl

@[simp] theorem number?_bare (v : Value) : v.bare.number? = v.number? := by
  obtain ⟨m, c⟩ := v
  cases c <;> rfl

@[simp] theorem integer?_bare (v : Value) : v.bare.integer? = v.integer? := by simp [integer?]

theorem items?_bare (v : Value) : v.bare.items? = v.items?.map (·.map bare) := by
  obtain ⟨m, c⟩ := v
  cases c with
  | array items => simp [bare, items?, content]
  | range r => cases r <;> simp [bare, items?, content]
  | _ => rfl

@[simp] theorem conversionError_bare (v : Value) (target : Kind) :
    v.bare.conversionError target = v.conversionError target := by simp [conversionError]

theorem orConversionError_bare {α : Type} (v : Value) (target : Kind) (r : Option α) :
    v.bare.orConversionError target r = v.orConversionError target r := by
  cases r <;> simp [orConversionError]

@[simp] theorem toBoolean_bare (v : Value) : v.bare.toBoolean = v.toBoolean := by
  simp [toBoolean, orConversionError_bare]

@[simp] theorem toText_bare (v : Value) : v.bare.toText = v.toText := by
  simp [toText, orConversionError_bare]

@[simp] theorem toInteger_bare (v : Value) : v.bare.toInteger = v.toInteger := by
  simp [toInteger, orConversionError_bare]

theorem toItems_bare (v : Value) : v.bare.toItems = v.toItems.map (·.map bare) := by
  rw [toItems, toItems, items?_bare, orConversionError_bare]
  cases v.items? <;> rfl

end Value

end ExprLang
