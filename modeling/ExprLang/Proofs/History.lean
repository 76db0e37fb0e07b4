import ExprLang.Context
import ExprLang.Proofs.Entries

/-!
# The history of a store

Variables are declared and assigned by one call after the other. The history of a store is the list of these
calls, each with what came of it. From the successful ones alone follows all that can be asked of a store that
was empty (`Tells`): its names are those that were declared, in that order, and a name has the value that it
was given last.

* `call_cases`: all that a call does, and when it fails.
* `Tells.call`: one call more; `run_tells`: any calls.
-/

namespace ExprLang.Store

/-! ## Calls -/

inductive Call where
  | declare (name : String) (value : Value)
  | assign (name : String) (value : Value)

namespace Call

def name : Call → String
  | declare x _ | assign x _ => x

def value : Call → Value
  | declare _ v | assign _ v => v

/-- The name that a call adds if it succeeds. -/
def declared? : Call → Option String
  | declare x _ => some x
  | assign _ _ => none

def on (s : Store) : Call → Except Error Store
  | declare x v => s.declare x v
  | assign x v => s.assign x v

/-- What comes of a call if these are the names that have been declared. -/
def verdict (names : List String) : Call → Except Error Unit
  | declare x _ => if x ∈ names then .error (.alreadyDeclared x) else .ok ()
  | assign x _ => if x ∈ names then .ok () else .error (.undeclared x)

end Call

/-- The outcome of a call, and the store after it. -/
def call (s : Store) (k : Call) : Except Error Unit × Store :=
  match k.on s with
  | .ok t => (.ok (), t)
  | .error e => (.error e, s)

/-- The calls that were made, in their order, each with its outcome. -/
abbrev History := List (Call × Except Error Unit)

/-- The history of calls one after the other, and the store after them. -/
def run (s : Store) : List Call → History × Store
  | [] => ([], s)
  | k :: ks => ((k, (s.call k).1) :: ((s.call k).2.run ks).1, ((s.call k).2.run ks).2)

namespace History

/-- The calls that succeeded. -/
def succeeded (h : History) : List Call := (h.filter fun p => p.2.isOk).map Prod.fst

/-- The names that were declared. -/
def names (h : History) : List String := h.succeeded.filterMap Call.declared?

/-- The value that a name was given last. -/
def value? (h : History) (x : String) : Option Value := (h.succeeded.reverse.find? (·.name == x)).map Call.value

variable (h : History) (k : Call)

theorem succeeded_ok : succeeded (h ++ [(k, .ok ())]) = h.succeeded ++ [k] := by
  rw [succeeded, List.filter_append, List.map_append]
  rfl

theorem succeeded_error (e : Error) : succeeded (h ++ [(k, .error e)]) = h.succeeded := by
  rw [succeeded, List.filter_append, List.map_append]
  exact List.append_nil _

theorem names_ok : names (h ++ [(k, .ok ())]) = h.names ++ k.declared?.toList := by
  rw [names, succeeded_ok, List.filterMap_append]
  cases k <;> rfl

theorem value?_ok (x : String) : value? (h ++ [(k, .ok ())]) x = if k.name = x then some k.value else h.value? x := by
  rw [value?, succeeded_ok, List.reverse_append, List.reverse_singleton, List.singleton_append, List.find?_cons]
  by_cases hx : k.name = x
  · rw [if_pos hx, hx, beq_self_eq_true]
    rfl
  · rw [if_neg hx, beq_false_of_ne hx]
    rfl

end History

/-! ## One call -/

variable {s : Store} {h : History}

theorem contains_iff {x : String} : s.contains x = true ↔ x ∈ s.names := Entries.contains_iff

/-- A call fails by what the names are and leaves the store as it was, or else it gives its name its value, and adds
the name if it declares it. -/
theorem call_cases (s : Store) (k : Call) :
    (∃ e, s.call k = (.error e, s) ∧ k.verdict s.names = .error e) ∨
    ∃ t : Store, s.call k = (.ok (), t) ∧ k.verdict s.names = .ok () ∧ t.names = s.names ++ k.declared?.toList ∧
      ∀ x, Entries.find? t.entries x = if k.name = x then some k.value else Entries.find? s.entries x := by
  unfold call
  cases k with
  | declare x v =>
    by_cases hx : x ∈ s.names
    · have hcall : (Call.declare x v).on s = .error (.alreadyDeclared x) := if_pos (contains_iff.2 hx)
      exact .inl ⟨_, by rw [hcall], if_pos hx⟩
    · have hnew : ¬ s.contains x = true := mt contains_iff.1 hx
      have hcall : (Call.declare x v).on s = .ok ⟨Entries.insertNew s.entries x v, _⟩ := if_neg hnew
      refine .inr ⟨_, by rw [hcall], if_neg hx, ?_, Entries.find?_insertNew hx v⟩
      show Entries.keys (Entries.insertNew s.entries x v) = Entries.keys s.entries ++ [x]
      rw [Entries.insertNew, if_neg (mt Entries.contains_iff.1 hx), Entries.keys, List.map_append]
      rfl
  | assign x v =>
    by_cases hx : x ∈ s.names
    · have hcall : (Call.assign x v).on s = .ok ⟨Entries.insert s.entries x v, _⟩ := if_pos (contains_iff.2 hx)
      refine .inr ⟨_, by rw [hcall], if_pos hx, ?_, Entries.find?_insert s.entries x v⟩
      show Entries.keys (Entries.insert s.entries x v) = Entries.keys s.entries ++ []
      rw [List.append_nil]
      exact (Entries.keys_insert s.entries x v).trans (if_pos hx)
    · have hcall : (Call.assign x v).on s = .error (.undeclared x) := if_neg (mt contains_iff.1 hx)
      exact .inl ⟨_, by rw [hcall], if_neg hx⟩

/-! ## All calls -/

/-- A store is what its history has made of the empty one. -/
structure Tells (s : Store) (h : History) : Prop where
  names : s.names = h.names
  find (x : String) : Entries.find? s.entries x = h.value? x
  /-- Whether a call succeeds depends on the names that were declared before it. -/
  outcome {i : Nat} {k : Call} {o : Except Error Unit} : h[i]? = some (k, o) → o = k.verdict (History.names (h.take i))

theorem tells_empty : empty.Tells [] where
  names := rfl
  find _ := rfl
  outcome h := by simp at h

theorem Tells.call (hs : s.Tells h) (k : Call) : (s.call k).2.Tells (h ++ [(k, (s.call k).1)]) := by
  have outcome {i : Nat} {l : Call} {o : Except Error Unit} (hverdict : (s.call k).1 = k.verdict s.names)
      (hi : (h ++ [(k, (s.call k).1)])[i]? = some (l, o)) :
      o = l.verdict (History.names ((h ++ [(k, (s.call k).1)]).take i)) := by
    rcases Nat.lt_or_ge i h.length with hlt | hge
    · rw [List.getElem?_append_left hlt] at hi
      rw [List.take_append_of_le_length (Nat.le_of_lt hlt)]
      exact hs.outcome hi
    · rw [List.getElem?_append_right hge] at hi
      obtain ⟨hindex, hlast⟩ := List.getElem?_eq_some_iff.1 hi
      obtain rfl : i = h.length := by
        rw [List.length_singleton] at hindex
        omega
      rw [List.take_left, ← hs.names]
      simp only [Nat.sub_self, List.getElem_cons_zero, Prod.mk.injEq] at hlast
      rw [← hlast.1, ← hlast.2, hverdict]
  rcases s.call_cases k with ⟨e, hcall, hverdict⟩ | ⟨t, hcall, hverdict, hnames, hfind⟩
  · rw [hcall] at outcome ⊢
    refine ⟨?_, fun x => ?_, outcome hverdict.symm⟩
    · rw [hs.names, History.names, History.names, History.succeeded_error]
    · rw [hs.find, History.value?, History.value?, History.succeeded_error]
  · rw [hcall] at outcome ⊢
    refine ⟨?_, fun x => ?_, outcome hverdict.symm⟩
    · rw [hnames, hs.names, History.names_ok]
    · rw [hfind, hs.find, History.value?_ok]

theorem Tells.run (hs : s.Tells h) (ks : List Call) : (s.run ks).2.Tells (h ++ (s.run ks).1) := by
  induction ks generalizing s h with
  | nil => rwa [Store.run, List.append_nil]
  | cons k ks ih =>
    have hrest := ih (hs.call k)
    rwa [List.append_assoc] at hrest

theorem run_calls (s : Store) (ks : List Call) : (s.run ks).1.map Prod.fst = ks := by
  induction ks generalizing s with
  | nil => rfl
  | cons k ks ih => exact congrArg (k :: ·) (ih _)

theorem call_of_error {k : Call} {e : Error} (h : (s.call k).1 = .error e) : (s.call k).2 = s := by
  rcases s.call_cases k with ⟨_, hcall, _⟩ | ⟨t, hcall, _⟩
  · rw [hcall]
  · rw [hcall] at h
    cases h

/-- In a context, too, a call fails or succeeds by its store, which gets the value as an object. -/
theorem call_context (c : Context) (x : String) (v : Value) :
    ((c.declare x v).1, (c.declare x v).2.store) = c.store.call (.declare x (c.object v).1) ∧
      ((c.assign x v).1, (c.assign x v).2.store) = c.store.call (.assign x (c.object v).1) := by
  have hstore : (c.object v).2.store = c.store := rfl
  unfold Context.declare Context.assign call Call.on
  simp only [hstore]
  constructor
  · cases c.store.declare x (c.object v).1 <;> rfl
  · cases c.store.assign x (c.object v).1 <;> rfl

/-- After any calls on an empty store each of them has failed or succeeded by the names that were declared before it.
What failed has changed nothing; from what succeeded the store has its names, in the order of their declarations, and the
last value of each. -/
theorem run_tells (ks : List Call) :
    let h := (empty.run ks).1
    let s := (empty.run ks).2
    h.map Prod.fst = ks ∧
      (∀ i (k : Call) o, h[i]? = some (k, o) → o = k.verdict (History.names (h.take i))) ∧
      (∀ k e, (s.call k).1 = .error e → (s.call k).2 = s) ∧
      s.names = h.names ∧ h.names.Nodup ∧
      (∀ x, s.lookup x = (h.value? x).getD .undefined) ∧
      (∀ x, s.contains x = true ↔ x ∈ s.names) ∧ s.size = s.names.length ∧
      ∀ (c : Context) x v, c.store = s →
        ((c.declare x v).1, (c.declare x v).2.store) = s.call (.declare x (c.object v).1) ∧
        ((c.assign x v).1, (c.assign x v).2.store) = s.call (.assign x (c.object v).1) := by
  intro h s
  have htells : s.Tells h := tells_empty.run ks
  refine ⟨run_calls empty ks, fun _ _ _ => htells.outcome, fun _ _ => call_of_error, htells.names, ?_, fun x => ?_,
    fun x => contains_iff, ?_, fun c x v hc => ?_⟩
  · rw [← htells.names]
    exact s.nodup
  · rw [lookup, htells.find]
  · rw [names, Entries.keys, List.length_map, size]
  · rw [← hc]
    exact call_context c x v

/-- Calls that fail between others that succeed: the third and the fourth are refused. -/
theorem run_tells_rebound :
    let ks := [Call.declare "b" .null, .declare "a" (.string "old"), .declare "b" (.boolean true), .assign "c" .null,
      .assign "a" (.string "new")]
    (empty.run ks).1[2]? = some (.declare "b" (.boolean true), .error (.alreadyDeclared "b")) ∧
      Call.verdict ["b", "a"] (.declare "b" (.boolean true)) = .error (.alreadyDeclared "b") ∧
      (empty.run ks).2.names = ["b", "a"] ∧ (empty.run ks).2.lookup "a" = .string "new" ∧
      (empty.run ks).2.lookup "b" = .null ∧ (empty.run ks).2.lookup "c" = .undefined := by
  intro ks
  have hrefused : (empty.run ks).1[2]? = some (.declare "b" (.boolean true), .error (.alreadyDeclared "b")) := rfl
  obtain ⟨-, houtcome, -, hnames, -, hlookup, -⟩ := run_tells ks
  exact ⟨hrefused, (houtcome 2 _ _ hrefused).symm, hnames, hlookup "a", hlookup "b", hlookup "c"⟩

end ExprLang.Store
