import ExprLang.Error
import ExprLang.Number.Numeral
import ExprLang.Text.Blank
import ExprLang.Value.Text

/-!
# Conversion

A value converts to its own kind as the same object. Scalars convert among each other where that
makes sense, null to the empty value of every kind but a range, and a bounded range to the array of
its integers. Dereferencing is stricter: it only looks into a value of the kind asked for, or reads
null as empty.
-/

namespace ExprLang

/-- The number at the front of a text, after white space; a blank text reads as zero. -/
def Number.leading? (s : String) : Option Float :=
  match Text.trimStart s.toList with
  | [] => some 0
  | cs => (Numeral.read? cs).map fun r => r.1.value

/-- A text stands for false if it is empty or the word itself, in any case. -/
def Text.truth (s : String) : Bool := !(s.isEmpty || s.toList.map Char.toLower == "false".toList)

namespace Value

/-! ## What a value converts to -/

def boolean? (v : Value) : Option Bool :=
  match v.content with
  | .boolean b => some b
  | .string s => some (Text.truth s)
  | .number x => some (x != 0)
  | .null => some false
  | _ => none

def string? (v : Value) : Option String :=
  match v.content with
  | .boolean _ | .number _ => some v.text
  | .string s => some s
  | .null => some ""
  | _ => none

def number? (v : Value) : Option Float :=
  match v.content with
  | .boolean b => some (if b then 1 else 0)
  | .string s => Number.leading? s
  | .number x => some x
  | .null => some 0
  | _ => none

def integer? (v : Value) : Option Int := v.number?.map Number.truncate

/-- The integers between two bounds, as numbers. -/
def integers (first last : Int) : List Value := ((Range.between first last).items 0).map integer

def items? (v : Value) : Option (List Value) :=
  match v.content with
  | .array items => some items
  | .range (.between first last) => some (integers first last)
  | .null => some []
  | _ => none

def entries? (v : Value) : Option (Entries Value) :=
  match v.content with
  | .map entries => some entries
  | .null => some []
  | _ => none

def convert? (v : Value) (target : Kind) : Option Value :=
  if v.kind = target then some v
  else match target with
    | .boolean => v.boolean?.map boolean
    | .string => v.string?.map string
    | .number => v.number?.map number
    | .array => v.items?.map array
    | .map => v.entries?.map map
    | .range | .null | .undefined => none

def conversionError (v : Value) (target : Kind) : Error := .conversion none v.text v.kind target

/-- A part of a value that exists if the value converts to a kind. -/
def orConversionError {α : Type} (v : Value) (target : Kind) : Option α → Except Error α
  | some a => .ok a
  | none => .error (v.conversionError target)

def convert (v : Value) (target : Kind) : Except Error Value := v.orConversionError target (v.convert? target)

def toBoolean (v : Value) : Except Error Bool := v.orConversionError .boolean v.boolean?

def toText (v : Value) : Except Error String := v.orConversionError .string v.string?

def toNumber (v : Value) : Except Error Float := v.orConversionError .number v.number?

def toInteger (v : Value) : Except Error Int := v.orConversionError .number v.integer?

def toItems (v : Value) : Except Error (List Value) := v.orConversionError .array v.items?

/-! ## Dereferencing -/

def dereferenceError (v : Value) (requested : Kind) : Error := .dereference none v.text v.kind requested

def asBoolean (v : Value) : Except Error Bool :=
  match v.content with
  | .boolean b => .ok b
  | .null => .ok false
  | _ => .error (v.dereferenceError .boolean)

def asString (v : Value) : Except Error String :=
  match v.content with
  | .string s => .ok s
  | .null => .ok ""
  | _ => .error (v.dereferenceError .string)

def asNumber (v : Value) : Except Error Float :=
  match v.content with
  | .number x => .ok x
  | .null => .ok 0
  | _ => .error (v.dereferenceError .number)

def asInteger (v : Value) : Except Error Int := Number.truncate <$> v.asNumber

def asArray (v : Value) : Except Error (List Value) :=
  match v.content with
  | .array items => .ok items
  | .null => .ok []
  | _ => .error (v.dereferenceError .array)

def asMap (v : Value) : Except Error (Entries Value) :=
  match v.content with
  | .map entries => .ok entries
  | .null => .ok []
  | _ => .error (v.dereferenceError .map)

def asRange (v : Value) : Except Error Range :=
  match v.content with
  | .range r => .ok r
  | _ => .error (v.dereferenceError .range)

def keys (v : Value) : Except Error (List String) := Entries.keys <$> v.asMap

/-- The items of an array as texts. -/
def texts (v : Value) : Except Error (List String) := do (← v.asArray).mapM toText

/-- The items of an array as texts, each once and in order. -/
def textSet (v : Value) : Except Error (List String) := do
  return ((← v.texts).mergeSort fun s t => s ≤ t).eraseReps

end Value

end ExprLang
