import ExprLang.Expr.Basic
import ExprLang.Store

/-!
# Contexts

What an evaluation knows: the variables, the places where objects were produced, and the next free
mark. The trace is the history of productions, newest first. An object has its origin where it was
produced first, so recording it again, at a group or at a variable, changes nothing
(`origin_record`).
-/

namespace ExprLang

abbrev Trace := List (Nat × Location)

structure Context where
  store : Store
  trace : Trace
  next : Nat

abbrev Evaluation := ExceptT Error (StateM Context)

namespace Context

/-! ## Objects -/

/-- Runs a supply of marks on those of the context. -/
def supply {α : Type} (s : Supply α) (c : Context) : α × Context :=
  let (a, next) := s c.next
  (a, { c with next := next })

/-- The value as an object of the context. -/
def object (v : Value) (c : Context) : Value × Context := supply v.stamp c

/-- The expression with its values as objects of the context. -/
def adopt (e : Expr) (c : Context) : Expr × Context := supply e.stamp c

/-- A context over variables whose values become objects; new marks begin at `first`, or above those
of the values. -/
def ofStore (vars : Entries Value) (first : Nat) : Context :=
  let (entries, next) := stampEntries vars (max first (nextMarkEntries vars))
  ⟨Store.ofPairs entries, [], next⟩

def empty : Context := ofStore [] 0

/-- A context over the same variables that knows of no production. -/
def nested (c : Context) : Context := { c with trace := [] }

/-! ## Origins -/

/-- Where an object was produced first. -/
def origin (c : Context) (v : Value) : Option Location := v.mark.bind fun m => List.lookup m c.trace.reverse

/-- Records that a value was produced at a place. -/
def record (v : Value) (place : Option Location) (c : Context) : Context :=
  match v.mark, place with
  | some m, some l => { c with trace := (m, l) :: c.trace }
  | _, _ => c

/-- What is recorded stays. -/
theorem origin_record {c : Context} {v : Value} {l : Location} (h : c.origin v = some l) (w : Value)
    (place : Option Location) : (c.record w place).origin v = some l := by
  obtain ⟨m, hm, hl⟩ := Option.bind_eq_some_iff.1 h
  unfold record
  split
  · simp only [origin, hm, Option.bind_some, List.reverse_cons]
    rw [List.lookup_append, hl, Option.some_or]
  · exact h

/-! ## Variables -/

def lookup (name : String) (c : Context) : Value := c.store.lookup name

def declare (name : String) (v : Value) (c : Context) : Except Error Unit × Context :=
  let (v, c) := c.object v
  match c.store.declare name v with
  | .ok s => (.ok (), { c with store := s })
  | .error e => (.error e, c)

def assign (name : String) (v : Value) (c : Context) : Except Error Unit × Context :=
  let (v, c) := c.object v
  match c.store.assign name v with
  | .ok s => (.ok (), { c with store := s })
  | .error e => (.error e, c)

end Context

end ExprLang
