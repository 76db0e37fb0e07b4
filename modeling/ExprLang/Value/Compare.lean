import ExprLang.Value.Convert

/-!
# Equality and order

Two values are equal if they are built alike: map entries in any order, and a bounded range like the
array of its integers. Not-a-number equals itself only within one object, that is, with the same
mark.

Comparison coerces scalars: with a boolean to booleans, else with a number to numbers. Arrays
compare item by item, maps entry by entry in the order of their keys, bounded ranges as their
arrays. Null and undefined come before everything else. Any other pair has no order.
-/

namespace ExprLang

/-! ## Equality -/

/-- Whether an array consists of the integers between two bounds. -/
def Range.matchesItems (first last : Int) (items : List Value) : Bool :=
  items.length == (Range.between first last).length 0 &&
    (((Range.between first last).items 0).zip items).all fun
      | (i, ⟨_, .number x⟩) => x == Number.ofInteger i
      | _ => false

mutual

def Value.equals : Value → Value → Bool
  | ⟨_, .boolean a⟩, ⟨_, .boolean b⟩ => a == b
  | ⟨_, .string s⟩, ⟨_, .string t⟩ => s == t
  | ⟨m, .number x⟩, ⟨n, .number y⟩ => x == y || (x.isNaN && y.isNaN && m == n)
  | ⟨_, .array l⟩, ⟨_, .array r⟩ => equalItems l r
  | ⟨_, .map l⟩, ⟨_, .map r⟩ => l.length == r.length && equalEntries l r
  | ⟨_, .range (.between a b)⟩, ⟨_, .array items⟩ => Range.matchesItems a b items
  | ⟨_, .array items⟩, ⟨_, .range (.between a b)⟩ => Range.matchesItems a b items
  | ⟨_, .range r⟩, ⟨_, .range s⟩ => r == s
  | ⟨_, .null⟩, ⟨_, .null⟩ => true
  | ⟨_, .undefined⟩, ⟨_, .undefined⟩ => true
  | _, _ => false

def equalItems : List Value → List Value → Bool
  | [], [] => true
  | v :: vs, w :: ws => v.equals w && equalItems vs ws
  | _, _ => false

/-- Whether each entry has an equal one under its key among the others. -/
def equalEntries : List (String × Value) → List (String × Value) → Bool
  | [], _ => true
  | (k, v) :: es, fs =>
    (match Entries.find? fs k with
      | some w => v.equals w
      | none => false) && equalEntries es fs

end

instance : BEq Value := ⟨Value.equals⟩

/-! ## Order -/

/-- The order of numbers; not-a-number counts as equal to every number. -/
def Number.order (x y : Float) : Ordering := if x < y then .lt else if y < x then .gt else .eq

namespace Value

def isScalar (v : Value) : Bool := v.kind ∈ [Kind.boolean, .number, .string]

/-- The order of two scalars after coercion. -/
def compareScalars (v w : Value) : Except Error Ordering :=
  match v.content, w.content with
  | .boolean _, _ | _, .boolean _ => do return compare (← v.toBoolean) (← w.toBoolean)
  | .string s, .string t => .ok (compare s t)
  | _, _ => do return Number.order (← v.toNumber) (← w.toNumber)

/-- The order of two values of which not both have parts to compare. -/
def compareLeaves (v w : Value) : Except Error Ordering :=
  match v.kind, w.kind with
  | .null, .null | .undefined, .undefined => .ok .eq
  | .null, _ | .undefined, _ => .ok .lt
  | _, .null | _, .undefined => .ok .gt
  | k, l =>
    if v.isScalar && w.isScalar then compareScalars v w else .error (.evaluation none none (.incomparable k l))

end Value

/-- The order of the first pair that is not equal, or of the lengths. -/
def lexicographic (order : Value → Value → Except Error Ordering) : List Value → List Value → Except Error Ordering
  | [], [] => .ok .eq
  | [], _ :: _ => .ok .lt
  | _ :: _, [] => .ok .gt
  | v :: vs, w :: ws => do
    match ← order v w with
    | .eq => lexicographic order vs ws
    | o => return o

mutual

/-- The value with the entries of every map in the order of their keys. -/
def Value.sortKeys : Value → Value
  | ⟨m, .array items⟩ => ⟨m, .array (sortKeysItems items)⟩
  | ⟨m, .map entries⟩ => ⟨m, .map (Entries.sorted (sortKeysEntries entries))⟩
  | v => v

def sortKeysItems : List Value → List Value
  | [] => []
  | v :: vs => v.sortKeys :: sortKeysItems vs

def sortKeysEntries : List (String × Value) → List (String × Value)
  | [] => []
  | (k, v) :: es => (k, v.sortKeys) :: sortKeysEntries es

end

mutual

/-- The order of two values whose maps are in the order of their keys. -/
def Value.compareSorted : Value → Value → Except Error Ordering
  | ⟨_, .array l⟩, ⟨_, .array r⟩ => compareItems l r
  | ⟨_, .array l⟩, ⟨_, .range (.between a b)⟩ => compareItems l (Value.integers a b)
  | ⟨_, .range (.between a b)⟩, ⟨_, .array r⟩ => lexicographic Value.compareLeaves (Value.integers a b) r
  | ⟨_, .range (.between a b)⟩, ⟨_, .range (.between c d)⟩ =>
    lexicographic Value.compareLeaves (Value.integers a b) (Value.integers c d)
  | ⟨_, .map l⟩, ⟨_, .map r⟩ => compareEntries l r
  | v, w => v.compareLeaves w

def compareItems : List Value → List Value → Except Error Ordering
  | [], [] => .ok .eq
  | [], _ :: _ => .ok .lt
  | _ :: _, [] => .ok .gt
  | v :: vs, w :: ws => do
    match ← v.compareSorted w with
    | .eq => compareItems vs ws
    | o => return o

def compareEntries : List (String × Value) → List (String × Value) → Except Error Ordering
  | [], [] => .ok .eq
  | [], _ :: _ => .ok .lt
  | _ :: _, [] => .ok .gt
  | (k, v) :: es, (l, w) :: fs =>
    match compare k l with
    | .eq => do
      match ← v.compareSorted w with
      | .eq => compareEntries es fs
      | o => return o
    | o => .ok o

end

def Value.compare (v w : Value) : Except Error Ordering := v.sortKeys.compareSorted w.sortKeys

end ExprLang
