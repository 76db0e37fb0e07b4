import ExprLang.Entries
import ExprLang.Range
import ExprLang.Value.Kind

/-!
# Values

A value is immutable. It may be an object: then it carries a mark, and every value with that mark is
the same object, wherever it is found. Operations build values without a mark; `Value.stamp` makes
objects of those by giving each a mark of its own and leaves the parts that are objects already as
they are. The parts of an object are objects.
-/

namespace ExprLang

inductive Content (α : Type) where
  | boolean (b : Bool)
  | string (s : String)
  | number (x : Float)
  | array (items : List α)
  | map (entries : List (String × α))
  | range (r : Range)
  | null
  | undefined

inductive Value where
  | mk (mark : Option Nat) (content : Content Value)

namespace Value

def mark : Value → Option Nat
  | ⟨m, _⟩ => m

def content : Value → Content Value
  | ⟨_, c⟩ => c

/-! ## Values that are no objects yet -/

def new (c : Content Value) : Value := ⟨none, c⟩

def boolean (b : Bool) : Value := new (.boolean b)

def string (s : String) : Value := new (.string s)

def number (x : Float) : Value := new (.number x)

def integer (i : Int) : Value := new (.number (Float.ofInt i))

def array (items : List Value) : Value := new (.array items)

def map (entries : Entries Value) : Value := new (.map entries)

def range (r : Range) : Value := new (.range r)

def null : Value := new .null

def undefined : Value := new .undefined

instance : Inhabited Value := ⟨undefined⟩

/-! ## Kind and length -/

def kind (v : Value) : Kind :=
  match v.content with
  | .boolean _ => .boolean
  | .string _ => .string
  | .number _ => .number
  | .array _ => .array
  | .map _ => .map
  | .range _ => .range
  | .null => .null
  | .undefined => .undefined

def isUndefined (v : Value) : Bool := v.kind == .undefined

def isNull (v : Value) : Bool := v.kind == .null

/-- How many parts a value has: one for a scalar, none for null, undefined and an open range. -/
def length (v : Value) : Nat :=
  match v.content with
  | .boolean _ | .number _ => 1
  | .string s => s.length
  | .array items => items.length
  | .map entries => entries.length
  | .range (.between first last) => (Range.between first last).length 0
  | .range _ | .null | .undefined => 0

end Value

/-! ## Objects -/

/-- The next free mark. -/
abbrev Supply := StateM Nat

/-- Makes an object of a content whose parts are objects. -/
def Supply.issue (c : Content Value) : Supply Value := fun n => (⟨some n, c⟩, n + 1)

mutual

def Value.stamp : Value → Supply Value
  | ⟨some m, c⟩ => pure ⟨some m, c⟩
  | ⟨none, .array items⟩ => do Supply.issue (.array (← stampItems items))
  | ⟨none, .map entries⟩ => do Supply.issue (.map (← stampEntries entries))
  | ⟨none, c⟩ => Supply.issue c

def stampItems : List Value → Supply (List Value)
  | [] => pure []
  | v :: vs => do return (← v.stamp) :: (← stampItems vs)

def stampEntries : List (String × Value) → Supply (List (String × Value))
  | [] => pure []
  | (k, v) :: es => do return (k, ← v.stamp) :: (← stampEntries es)

end

mutual

/-- The least number above every mark of a value and its parts. -/
def Value.nextMark : Value → Nat
  | ⟨m, .array items⟩ => max (m.elim 0 (· + 1)) (nextMarkItems items)
  | ⟨m, .map entries⟩ => max (m.elim 0 (· + 1)) (nextMarkEntries entries)
  | ⟨m, _⟩ => m.elim 0 (· + 1)

def nextMarkItems : List Value → Nat
  | [] => 0
  | v :: vs => max v.nextMark (nextMarkItems vs)

def nextMarkEntries : List (String × Value) → Nat
  | [] => 0
  | (_, v) :: es => max v.nextMark (nextMarkEntries es)

end

end ExprLang
