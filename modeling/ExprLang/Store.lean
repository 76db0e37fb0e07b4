import ExprLang.Error
import ExprLang.Value.Basic

/-!
# Variables

Names are declared once, in an order that is kept, and may then be assigned. A name that is not
declared has the value undefined. A declaration or an assignment that fails changes nothing.
-/

namespace ExprLang

structure Store where
  entries : Entries Value
  nodup : Entries.Nodup entries

namespace Store

def empty : Store := ⟨[], by simp [Entries.Nodup, Entries.keys]⟩

instance : Inhabited Store := ⟨empty⟩

def ofPairs (vars : List (String × Value)) : Store := ⟨Entries.ofPairs vars, Entries.nodup_ofPairs vars⟩

def names (s : Store) : List String := Entries.keys s.entries

def size (s : Store) : Nat := s.entries.length

def contains (s : Store) (name : String) : Bool := Entries.contains s.entries name

def lookup (s : Store) (name : String) : Value := (Entries.find? s.entries name).getD .undefined

def declare (s : Store) (name : String) (v : Value) : Except Error Store :=
  if s.contains name then .error (.alreadyDeclared name)
  else .ok ⟨Entries.insertNew s.entries name v, Entries.nodup_insertNew s.nodup name v⟩

def assign (s : Store) (name : String) (v : Value) : Except Error Store :=
  if s.contains name then .ok ⟨Entries.insert s.entries name v, Entries.nodup_insert s.nodup name v⟩
  else .error (.undeclared name)

end Store

end ExprLang
