import ExprLang.Value.Convert

/-!
# Elements

The characters of a string and the items of an array by their position, the entries of a map by
their key. An error is located at the place where the value comes from, if that is known.
-/

namespace ExprLang.Value

/-- Whether a value has an element at a position. -/
def contains (v : Value) (i : Nat) : Bool := (v.kind == .string || v.kind == .array) && i < v.length

def containsKey (v : Value) (k : String) : Bool :=
  match v.content with
  | .map entries => Entries.contains entries k
  | _ => false

/-- The element at a position, if there is one; only strings and arrays have positions. -/
def element? (v : Value) (i : Nat) : Except Error (Option Value) :=
  match v.content with
  | .string s => .ok ((s.toList[i]?).map fun c => string c.toString)
  | .array items => .ok items[i]?
  | _ => .error (.index none v.text v.kind (toString i) .number)

/-- The entry under a key, if there is one; only maps have keys. -/
def entry? (v : Value) (k : String) : Except Error (Option Value) :=
  match v.content with
  | .map entries => .ok (Entries.find? entries k)
  | _ => .error (.index none v.text v.kind (Text.quote k) .string)

/-- A result whose errors are located at a place. -/
def locate {α : Type} (place : Option Location) : Except Error α → Except Error α
  | .ok a => .ok a
  | .error e => .error (e.orLocation place)

def outOfBounds (v : Value) (key : String) : Error := .outOfBounds none v.text key

/-- What was found, or else an error. -/
def orOutOfBounds (v : Value) (key : String) : Option Value → Except Error Value
  | some w => .ok w
  | none => .error (v.outOfBounds key)

def element (v : Value) (origin : Option Location) (i : Nat) : Except Error Value :=
  locate origin (v.element? i >>= v.orOutOfBounds (toString i))

def elementOr (v : Value) (origin : Option Location) (i : Nat) (default : Value) : Except Error Value :=
  locate origin ((·.getD default) <$> v.element? i)

def entry (v : Value) (origin : Option Location) (k : String) : Except Error Value :=
  locate origin (v.entry? k >>= v.orOutOfBounds (Text.quote k))

def entryOr (v : Value) (origin : Option Location) (k : String) (default : Value) : Except Error Value :=
  locate origin ((·.getD default) <$> v.entry? k)

end ExprLang.Value
