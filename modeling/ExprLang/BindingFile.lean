import ExprLang.Evaluation
import ExprLang.Expr.Parser
import ExprLang.Text.Blank

/-!
# Binding files

A binding file declares variables, one on a line: a name, an equals sign and an expression, which
may use the names of earlier lines. Blank lines and lines that begin with `//` or `;` are passed
over. A line that fails is reported and declares nothing; the lines after it still count. All lines
share one context.
-/

namespace ExprLang.BindingFile

/-- Why a line declares nothing. -/
inductive Fault where
  | error (e : Error)
  | undefinedValue (name : String)

def Fault.message : Fault → String
  | error e => e.message
  | undefinedValue name => "'" ++ name ++ "' evaluates to undefined"

/-- A fault with the number of its line, counted from one. -/
structure LineFault where
  line : Nat
  fault : Fault

def LineFault.message (f : LineFault) : String := "line " ++ toString f.line ++ ": " ++ f.fault.message

/-- Whether a line is neither blank nor a comment. -/
def isBinding (line : List Char) : Bool :=
  match Text.trim line with
  | [] | ';' :: _ | '/' :: '/' :: _ => false
  | _ => true

/-- The name and the expression of a line. -/
def readLine (line : List Char) (number : Nat) : Except Error (String × Expr) := do
  let (name, c) := Cursor.expect [.name] ⟨line, 0, ⟨number, 1⟩⟩
  let name ← name
  let (assign, c) := c.expect [.assign]
  let _ ← assign
  return (String.ofList name.data, ← (Expr.read .strict c).1)

/-- Declares the variable of a line. -/
def loadLine (line : List Char) (number : Nat) (c : Context) : Except Fault Unit × Context :=
  match readLine line number with
  | .error e => (.error (.error e), c)
  | .ok (name, e) =>
    let (e, c) := c.adopt e
    match e.evaluate c with
    | (.error e, c) => (.error (.error e), c)
    | (.ok v, c) =>
      if v.isUndefined then (.error (.undefinedValue name), c)
      else
        let (declared, c) := c.declare name v
        (declared.mapError .error, c)

/-- Loads numbered lines one after the other; the faults in the order of the lines. -/
def loadLines : List (List Char × Nat) → Context → List LineFault × Context
  | [], c => ([], c)
  | (line, number) :: rest, c =>
    if isBinding line then
      let (outcome, c) := loadLine line number c
      let (faults, c) := loadLines rest c
      match outcome with
      | .ok () => (faults, c)
      | .error f => (⟨number, f⟩ :: faults, c)
    else loadLines rest c

/-- The variables of a binding file, and the lines that failed. -/
def load (text : String) : Store × List LineFault :=
  let (faults, c) := loadLines ((Text.lines text.toList).zipIdx 1) .empty
  (c.store, faults)

end ExprLang.BindingFile
