import ExprLang.Template

/-!
# Scanners

A scanner is a cursor that is moved by one operation after the other. It can be saved at any time
and later be put back to where it was saved. An operation gives an outcome, and what fails may have
moved the cursor too.
-/

namespace ExprLang

structure Scanner where
  cursor : Cursor
  /-- The cursors that were saved, the first one first. -/
  saved : List Cursor

namespace Scanner

inductive Operation where
  | next | peek | peekSecond
  | expect (kinds : List Token.Kind)
  | peekExpected (kinds : List Token.Kind)
  | expectByte (byte : UInt8)
  | hostText
  | parse (mode : ParseMode)
  | snapshot
  /-- Goes back to a saved cursor, if that many were saved. -/
  | restore (index : Nat)

inductive Outcome where
  | token (result : Except Error Token)
  | character (result : Except Error Unit)
  | host (opened : Bool) (text : List Char)
  | expression (result : Except Error Expr)
  | done

/-- A scanner before the first character of a text that begins somewhere in a larger one. -/
def start (text : String) (origin : Location) : Scanner := ⟨Cursor.start text origin, []⟩

def perform (s : Scanner) : Operation → Outcome × Scanner
  | .next => (.token s.cursor.next.1, { s with cursor := s.cursor.next.2 })
  | .peek => (.token s.cursor.peek, s)
  | .peekSecond => (.token s.cursor.peekSecond, s)
  | .expect kinds => (.token (s.cursor.expect kinds).1, { s with cursor := (s.cursor.expect kinds).2 })
  | .peekExpected kinds => (.token (s.cursor.peekExpected kinds), s)
  | .expectByte byte => (.character (s.cursor.expectByte byte).1, { s with cursor := (s.cursor.expectByte byte).2 })
  | .hostText => (.host s.cursor.hostText.1 s.cursor.hostText.2.1, { s with cursor := s.cursor.hostText.2.2 })
  | .parse mode => (.expression (Expr.read mode s.cursor).1, { s with cursor := (Expr.read mode s.cursor).2 })
  | .snapshot => (.done, { s with saved := s.saved ++ [s.cursor] })
  | .restore index => (.done, { s with cursor := s.saved[index]?.getD s.cursor })

/-- The outcomes of operations one after the other, and the scanner after them. -/
def run (s : Scanner) : List Operation → List Outcome × Scanner
  | [] => ([], s)
  | o :: os => ((s.perform o).1 :: ((s.perform o).2.run os).1, ((s.perform o).2.run os).2)

end Scanner

end ExprLang
