import ExprLang.Number.Integer
import ExprLang.Value.Convert

/-!
# Subscripts

A position counts from the front, or from the end if it is negative. An index list or a range
selects its positions one after the other: a string skips those that it does not have, an array
refuses them. A map takes one key, which may be missing, or a list of keys, of which it keeps those
that it has.
-/

namespace ExprLang

/-- The place of an index among `size` elements. -/
def position? (size : Nat) (i : Int) : Option Nat :=
  if 0 ≤ i ∧ i < size then some i.toNat
  else if -size ≤ i ∧ i < 0 then some (size + i).toNat
  else none

mutual

/-- The places that an index selects, lists and ranges in it flattened. -/
def Value.positions (size : Nat) : Value → Except Error (List (Option Nat))
  | ⟨_, .array items⟩ => positionsOf size items
  | ⟨_, .range r⟩ => .ok ((r.items size).map (position? size))
  | v => do return [position? size (← v.toInteger)]

def positionsOf (size : Nat) : List Value → Except Error (List (Option Nat))
  | [] => .ok []
  | v :: vs => do return (← v.positions size) ++ (← positionsOf size vs)

end

namespace Value

/-- The element at a place, if there is one. -/
def pick? {α : Type} (xs : List α) (p : Option Nat) : Option α := p.bind (xs[·]?)

/-- The entries under the given keys; a key that is no string is refused at its origin. -/
def submap (origin : Value → Option Location) (entries : Entries Value) :
    List Value → Entries Value → Except Error (Entries Value)
  | [], found => .ok found
  | key :: keys, found =>
    match key.content with
    | .string k =>
      match Entries.find? entries k with
      | some v => submap origin entries keys (Entries.insert found k v)
      | none => submap origin entries keys found
    | _ => .error ((key.conversionError .string).orLocation (origin key))

/-- The part of a value that an index selects; `origin` tells where a value comes from. -/
def subscript (origin : Value → Option Location) (base index : Value) : Except Error Value :=
  match base.content, index.content with
  | .string s, .boolean _ | .string s, .number _ => do
    let cs := s.toList
    match pick? cs (position? cs.length (← index.toInteger)) with
    | some c => return string c.toString
    | none => outside
  | .string s, .array _ | .string s, .range _ => do
    let cs := s.toList
    return string (String.ofList ((← index.positions cs.length).filterMap (pick? cs)))
  | .array items, .boolean _ | .array items, .number _ => do
    match pick? items (position? items.length (← index.toInteger)) with
    | some v => return v
    | none => outside
  | .array items, .array _ | .array items, .range _ => do
    match (← index.positions items.length).mapM (pick? items) with
    | some vs => return array vs
    | none => outside
  | .map entries, .string k => .ok ((Entries.find? entries k).getD undefined)
  | .map entries, .array keys => do return map (← submap origin entries keys [])
  | _, _ => .error (.index (origin base) base.text base.kind index.text index.kind)
where
  outside := .error (.outOfBounds (origin base) base.text index.text)

end Value

end ExprLang
