import ExprLang.Location
import ExprLang.Token.Kind
import ExprLang.Value.Kind

/-!
# Errors

What can go wrong, as causes; the wording is in `Error.message`. An error that an operation raises
need not know where it happened. On its way out of an expression it is given the location and the
text of the innermost expression around it, once: `inExpression_inExpression` says that enclosing
expressions change nothing more.
-/

namespace ExprLang

/-- What is wrong with a source. -/
inductive SyntaxFault where
  | unexpectedCharacter (c : Char)
  | unterminatedString
  | unexpectedToken (expected : List Token.Kind) (found : Token.Kind) (data : List Char)
  | missingCharacter (expected : Char) (found : Token.Kind) (data : List Char)
  | invalidNumber (data : List Char)
  | unknownModelKey (key : String)
  | missingModelPath
  | nestedTooDeeply
  /-- A fault in the words of the program around the language. -/
  | stated (message : String)
deriving DecidableEq

/-- Why an operation has no result. -/
inductive OperandFault where
  | invalidOperand (operand : Kind)
  | invalidOperands (left right : Kind)
  | incomparable (left right : Kind)
  | conversion (value : String) (source target : Kind)
  | dereference (value : String) (actual requested : Kind)
  /-- A fault in the words of the program around the language. -/
  | stated (message : String)
deriving DecidableEq

inductive Error where
  | parse (location : Location) (fault : SyntaxFault)
  | conversion (location : Option Location) (value : String) (source target : Kind)
  | dereference (location : Option Location) (value : String) (actual requested : Kind)
  | evaluation (location : Option Location) (expression : Option String) (fault : OperandFault)
  | index (location : Option Location) (value : String) (valueKind : Kind) (key : String) (keyKind : Kind)
  | outOfBounds (location : Option Location) (value key : String)
  | alreadyDeclared (name : String)
  | undeclared (name : String)
deriving DecidableEq

/-! ## Wording -/

/-- A token in a message: words and literals with their text, signs by their title. -/
def Token.describe (kind : Token.Kind) (data : List Char) : String :=
  if kind ∈ [Token.Kind.name, .string, .number, .boolean] then kind.title ++ " '" ++ String.ofList data ++ "'"
  else kind.title

def SyntaxFault.message : SyntaxFault → String
  | unexpectedCharacter c => "Unexpected character: '" ++ c.toString ++ "'"
  | unterminatedString => "Unterminated string"
  | unexpectedToken expected found data =>
    "Expected " ++ Token.Kind.titles expected ++ ", but got " ++ Token.describe found data
  | missingCharacter expected found data =>
    "Expected '" ++ expected.toString ++ "', but got " ++ Token.describe found data
  | invalidNumber data => "Invalid number '" ++ String.ofList data ++ "'"
  | unknownModelKey key => "Unknown model definition key '" ++ key ++ "'"
  | missingModelPath => "Missing pathKey in model definition"
  | nestedTooDeeply => "Expression is nested too deeply"
  | stated message => message

def conversionMessage (value : String) (source target : Kind) : String :=
  "Cannot convert value '" ++ value ++ "' of type '" ++ source.name ++ "' to type '" ++ target.name ++ "'"

def dereferenceMessage (value : String) (actual requested : Kind) : String :=
  "Cannot dereference value '" ++ value ++ "' of type '" ++ actual.name ++ "' as type '" ++ requested.name ++ "'"

def OperandFault.message : OperandFault → String
  | invalidOperand operand => "Invalid type " ++ operand.name
  | invalidOperands left right => "Invalid operand types " ++ left.name ++ " and " ++ right.name
  | incomparable left right => "Cannot compare values of types " ++ left.name ++ " and " ++ right.name
  | conversion value source target => conversionMessage value source target
  | dereference value actual requested => dereferenceMessage value actual requested
  | stated message => message

namespace Error

def location : Error → Option Location
  | parse l _ => some l
  | conversion l _ _ _ | dereference l _ _ _ | evaluation l _ _ | index l _ _ _ _ | outOfBounds l _ _ => l
  | alreadyDeclared _ | undeclared _ => none

/-- The message of an error without its location. -/
def statement : Error → String
  | parse _ fault => fault.message
  | conversion _ value source target => conversionMessage value source target
  | dereference _ value actual requested => dereferenceMessage value actual requested
  | evaluation _ none fault => fault.message
  | evaluation _ (some expression) fault => "Cannot evaluate expression '" ++ expression ++ "': " ++ fault.message
  | index _ value valueKind key keyKind =>
    "Cannot index value '" ++ value ++ "' of type '" ++ valueKind.name ++ "' with '" ++ key ++ "' of type '" ++
      keyKind.name ++ "'"
  | outOfBounds _ value key => key ++ " is out of bounds for '" ++ value ++ "'"
  | alreadyDeclared name => "Variable '" ++ name ++ "' is already declared"
  | undeclared name => "Cannot assign to undeclared variable '" ++ name ++ "'"

def message (e : Error) : String :=
  match e.location with
  | some l => "At " ++ l.text ++ ": " ++ e.statement
  | none => e.statement

/-! ## Attribution -/

/-- Errors of the evaluation family. Conversions and dereferences join it when they are attributed to
an expression. -/
def isEvaluation : Error → Bool
  | evaluation _ _ _ | index _ _ _ _ _ | outOfBounds _ _ _ => true
  | _ => false

/-- Gives an error a location unless it has one. Faults of a declaration have no place. -/
def orLocation (fallback : Option Location) : Error → Error
  | conversion l v s t => conversion (l.or fallback) v s t
  | dereference l v a r => dereference (l.or fallback) v a r
  | evaluation l e f => evaluation (l.or fallback) e f
  | index l v k i j => index (l.or fallback) v k i j
  | outOfBounds l v i => outOfBounds (l.or fallback) v i
  | e => e

/-- Attributes an error to an expression with the given text and location. -/
def inExpression (text : String) (place : Option Location) : Error → Error
  | evaluation l none f => evaluation (l.or place) (some text) f
  | conversion l v s t => evaluation (l.or place) (some text) (.conversion v s t)
  | dereference l v a r => evaluation (l.or place) (some text) (.dereference v a r)
  | e => e.orLocation place

/-- Whether an error still waits for the text of an expression. -/
def awaitsExpression : Error → Bool
  | evaluation _ none _ | conversion _ _ _ _ | dereference _ _ _ _ => true
  | _ => false

theorem inExpression_of_not_awaits {e : Error} (h : e.awaitsExpression = false) (text : String)
    (place : Option Location) : e.inExpression text place = e.orLocation place := by
  cases e with
  | evaluation l ex f => cases ex <;> simp_all [awaitsExpression, inExpression]
  | _ => simp_all [awaitsExpression, inExpression]

theorem awaitsExpression_inExpression (e : Error) (text : String) (place : Option Location) :
    (e.inExpression text place).awaitsExpression = false := by
  cases e with
  | evaluation l ex f => cases ex <;> rfl
  | _ => rfl

/-- An expression around the one an error is attributed to leaves it alone, as soon as it has a location. -/
theorem inExpression_inExpression (e : Error) (text outer : String) (l : Location) (place : Option Location) :
    (e.inExpression text (some l)).inExpression outer place = e.inExpression text (some l) := by
  cases e with
  | evaluation m ex f => cases m <;> cases ex <;> rfl
  | conversion m | dereference m | index m | outOfBounds m => cases m <;> rfl
  | _ => rfl

end Error

end ExprLang
