import ExprLang.Evaluation
import ExprLang.Proofs.Bare.Step

/-!
# What the step of a node raises

An error that a step raises is still to be attributed to an expression, and attributing it makes it
an error of the evaluation family (`Error.Raised`): it is no fault of a source or of a declaration.
Every step is looked at once, bottom up, to the four ways in which a node can fail by itself:

- `apply_raises`, `afterLeft_raises`: what an operator makes of its operands;
- `subscript_raises`: what an index selects;
- `splice_raises`: what an item contributes to an array.
-/

namespace ExprLang

/-! ## Errors still to be attributed -/

namespace Error

/-- The text of the expression that an error is attributed to. -/
def expression? : Error → Option String
  | .evaluation _ e _ => e
  | _ => none

/-- Attribution gives a text to an error of the kind that carries one, unless it has its text. -/
theorem expression?_inExpression (e : Error) (text : String) (place : Option Location) :
    (e.inExpression text place).expression? = match e.bare with
      | .evaluation _ _ _ => some (e.expression?.getD text)
      | _ => none := by
  cases e with
  | evaluation l x f => cases x <;> rfl
  | _ => rfl

/-- An error as a step raises it. -/
structure Raised (e : Error) : Prop where
  isEvaluation : e.bare.isEvaluation = true
  expression : e.expression? = none

theorem Raised.orLocation {e : Error} (h : e.Raised) (place : Option Location) : (e.orLocation place).Raised where
  isEvaluation := by rw [bare_orLocation, h.isEvaluation]
  expression := by
    cases e with
    | evaluation l x f => exact h.expression
    | _ => rfl

theorem Raised.invalidOperand (v : Value) : v.invalidOperand.Raised := ⟨rfl, rfl⟩

theorem Raised.invalidOperands (v w : Value) : (v.invalidOperands w).Raised := ⟨rfl, rfl⟩

theorem Raised.conversionError (v : Value) (target : Kind) : (v.conversionError target).Raised := ⟨rfl, rfl⟩

end Error

/-- If the outcome is an error, a step has raised it. -/
def Raises {α : Type} (r : Except Error α) : Prop := ∀ e, r = .error e → e.Raised

namespace Raises

variable {α β : Type}

theorem ok (a : α) : Raises (.ok a) := fun _ h => by cases h

theorem error {e : Error} (h : e.Raised) : Raises (.error e : Except Error α) := fun _ h' => by
  cases h'
  exact h

theorem bind {r : Except Error α} {k : α → Except Error β} (hr : Raises r) (hk : ∀ a, Raises (k a)) :
    Raises (r >>= k) := by
  cases r with
  | ok a => exact hk a
  | error e => exact error (hr e rfl)

theorem map {r : Except Error α} (hr : Raises r) (f : α → β) : Raises (f <$> r) := by
  cases r with
  | ok a => exact ok (f a)
  | error e => exact error (hr e rfl)

end Raises

/-! ## Conversions -/

namespace Value

theorem orConversionError_raises {α : Type} (v : Value) (target : Kind) (r : Option α) :
    Raises (v.orConversionError target r) := by
  cases r with
  | some a => exact .ok a
  | none => exact .error (.conversionError v target)

theorem toInteger_raises (v : Value) : Raises v.toInteger := v.orConversionError_raises _ _

/-- An item that is a range without a bound contributes nothing. -/
theorem splice_raises (v : Value) : Raises v.splice := by
  unfold splice
  split
  · exact v.orConversionError_raises _ _
  · exact .ok _

/-! ## Operators -/

theorem orInvalidOperand_raises (v : Value) (o : Option Value) : Raises (v.orInvalidOperand o) := by
  cases o with
  | some w => exact .ok w
  | none => exact .error (.invalidOperand v)

theorem orInvalidOperands_raises (v w : Value) (o : Option Value) : Raises (v.orInvalidOperands w o) := by
  cases o with
  | some u => exact .ok u
  | none => exact .error (.invalidOperands v w)

end Value

theorem UnaryOp.apply_raises (op : UnaryOp) (v : Value) : Raises (op.apply v) := by
  unfold apply
  split
  · exact .ok _
  · cases op with
    | plus | minus => exact v.orInvalidOperand_raises _
    | not =>
      dsimp only
      split
      · exact .ok _
      · exact .error (.invalidOperand v)
    | bitNot =>
      dsimp only
      split
      · exact v.orInvalidOperand_raises _
      · exact .error (.invalidOperand v)
    | group => exact .ok v
    | startingAt | endingAt => exact v.toInteger_raises.bind fun _ => .ok _

namespace Value

theorem arithmetic_raises (f : Float → Float → Float) (l r : Value) : Raises (l.arithmetic f r) := by
  unfold arithmetic
  split
  · exact .ok _
  · exact l.orInvalidOperands_raises r _

theorem add_raises (l r : Value) : Raises (l.add r) := by
  unfold add
  split
  · exact .ok _
  · exact l.orInvalidOperands_raises r _

theorem bitwise_raises (f : Int → Int → Int) (l r : Value) : Raises (l.bitwise f r) := by
  unfold bitwise
  split
  · exact .ok _
  · exact l.orInvalidOperands_raises r _

theorem rangeTo_raises (l r : Value) : Raises (l.rangeTo r) := by
  unfold rangeTo
  split
  · exact .ok _
  · exact l.toInteger_raises.bind fun _ => r.toInteger_raises.bind fun _ => .ok _

theorem compareScalars_raises (v w : Value) : Raises (compareScalars v w) := by
  unfold compareScalars
  split
  · exact (v.orConversionError_raises _ _).bind fun _ => (w.orConversionError_raises _ _).bind fun _ => .ok _
  · exact (v.orConversionError_raises _ _).bind fun _ => (w.orConversionError_raises _ _).bind fun _ => .ok _
  · exact .ok _
  · exact (v.orConversionError_raises _ _).bind fun _ => (w.orConversionError_raises _ _).bind fun _ => .ok _

theorem compareLeaves_raises (v w : Value) : Raises (v.compareLeaves w) := by
  unfold compareLeaves
  split
  · exact .ok _
  · exact .ok _
  · exact .ok _
  · exact .ok _
  · exact .ok _
  · exact .ok _
  · split
    · exact compareScalars_raises v w
    · exact .error ⟨rfl, rfl⟩

end Value

theorem lexicographic_raises (vs ws : List Value) : Raises (lexicographic Value.compareLeaves vs ws) := by
  induction vs generalizing ws with
  | nil => cases ws <;> exact .ok _
  | cons v vs ih =>
    cases ws with
    | nil => exact .ok _
    | cons w ws =>
      refine (v.compareLeaves_raises w).bind fun o => ?_
      cases o with
      | eq => exact ih ws
      | lt | gt => exact .ok _

theorem Value.compareSorted_raises_of_not_meets {v w : Value} (h : v.meets w = false) : Raises (v.compareSorted w) := by
  rw [compareSorted_of_not_meets h]
  exact v.compareLeaves_raises w

mutual

theorem Value.compareSorted_raises : ∀ v w : Value, Raises (v.compareSorted w)
  | ⟨_, .array l⟩, ⟨_, d⟩ => by
    cases d with
    | array r => exact compareItems_raises l r
    | range r =>
      cases r with
      | between a b => exact compareItems_raises l (Value.integers a b)
      | _ => exact Value.compareSorted_raises_of_not_meets rfl
    | _ => exact Value.compareSorted_raises_of_not_meets rfl
  | ⟨_, .range r⟩, ⟨_, d⟩ => by
    cases r with
    | between a b =>
      cases d with
      | array r => exact lexicographic_raises _ _
      | range s =>
        cases s with
        | between => exact lexicographic_raises _ _
        | _ => exact Value.compareSorted_raises_of_not_meets rfl
      | _ => exact Value.compareSorted_raises_of_not_meets rfl
    | _ => exact Value.compareSorted_raises_of_not_meets rfl
  | ⟨_, .map l⟩, ⟨_, d⟩ => by
    cases d with
    | map r => exact compareEntries_raises l r
    | _ => exact Value.compareSorted_raises_of_not_meets rfl
  | ⟨_, .boolean _⟩, _ | ⟨_, .string _⟩, _ | ⟨_, .number _⟩, _ | ⟨_, .null⟩, _ | ⟨_, .undefined⟩, _ =>
    Value.compareSorted_raises_of_not_meets rfl

theorem compareItems_raises : ∀ vs ws : List Value, Raises (compareItems vs ws)
  | [], [] | [], _ :: _ | _ :: _, [] => .ok _
  | v :: vs, w :: ws => (Value.compareSorted_raises v w).bind fun o => by
    cases o with
    | eq => exact compareItems_raises vs ws
    | lt | gt => exact .ok _

theorem compareEntries_raises : ∀ es fs : List (String × Value), Raises (compareEntries es fs)
  | [], [] | [], _ :: _ | _ :: _, [] => .ok _
  | (k, v) :: es, (l, w) :: fs => by
    rw [compareEntries]
    split
    · exact (Value.compareSorted_raises v w).bind fun o => by
        cases o with
        | eq => exact compareEntries_raises es fs
        | lt | gt => exact .ok _
    · exact .ok _

end

/-- A demand none of whose outcomes is an error of another kind. -/
def Demand.Raises : Demand → Prop
  | .done r => ExprLang.Raises r
  | .right finish => ∀ w, ExprLang.Raises (finish w)

namespace Value

theorem comparison_raises (test : Ordering → Bool) (l r : Value) : Raises (l.comparison test r) :=
  (compareSorted_raises _ _).map _

theorem logical_raises (decisive : Bool) (l : Value) : (l.logical decisive).Raises := by
  unfold logical
  split
  · exact .ok _
  · split
    · exact .ok _
    · intro r
      dsimp only
      split
      · exact .ok _
      · split
        · exact .ok _
        · exact .error (.invalidOperands l r)

theorem guarded_raises (condition : Value) : condition.guarded.Raises := by
  unfold guarded
  split
  · exact .ok _
  · split
    · exact fun w => .ok w
    · exact .ok _
    · next h => exact .error (condition.orConversionError_raises _ _ _ h)

end Value

theorem BinaryOp.afterLeft_raises (op : BinaryOp) (v : Value) : (op.afterLeft v).Raises := by
  cases op with
  | add => exact v.add_raises
  | subtract | multiply | divide | modulo => exact v.arithmetic_raises _
  | and | or => exact v.logical_raises _
  | bitAnd | bitXor | bitOr | shiftLeft | shiftRight => exact v.bitwise_raises _
  | less | lessOrEqual | greater | greaterOrEqual | equal | notEqual => exact v.comparison_raises _
  | range => exact v.rangeTo_raises
  | guarded => exact v.guarded_raises

/-! ## Subscripts -/

namespace Value

mutual

theorem positions_raises (size : Nat) : ∀ v : Value, Raises (v.positions size)
  | ⟨_, .array items⟩ => positionsOf_raises size items
  | ⟨_, .range _⟩ => .ok _
  | ⟨m, .boolean b⟩ => (toInteger_raises ⟨m, .boolean b⟩).bind fun _ => .ok _
  | ⟨m, .string s⟩ => (toInteger_raises ⟨m, .string s⟩).bind fun _ => .ok _
  | ⟨m, .number x⟩ => (toInteger_raises ⟨m, .number x⟩).bind fun _ => .ok _
  | ⟨m, .map es⟩ => (toInteger_raises ⟨m, .map es⟩).bind fun _ => .ok _
  | ⟨m, .null⟩ => (toInteger_raises ⟨m, .null⟩).bind fun _ => .ok _
  | ⟨m, .undefined⟩ => (toInteger_raises ⟨m, .undefined⟩).bind fun _ => .ok _

theorem positionsOf_raises (size : Nat) : ∀ vs : List Value, Raises (positionsOf size vs)
  | [] => .ok _
  | v :: vs => (positions_raises size v).bind fun _ => (positionsOf_raises size vs).bind fun _ => .ok _

end

variable (origin : Value → Option Location)

theorem submap_raises (entries : Entries Value) (keys : List Value) (found : Entries Value) :
    Raises (submap origin entries keys found) := by
  induction keys generalizing found with
  | nil => exact .ok _
  | cons key keys ih =>
    rw [submap]
    split
    · split
      · exact ih _
      · exact ih _
    · exact .error ((Error.Raised.conversionError key .string).orLocation _)

/-- The only errors of a step that may have a place already: that of the base, or of a key. -/
theorem subscript_raises (base index : Value) : Raises (base.subscript origin index) := by
  obtain ⟨m, c⟩ := base
  obtain ⟨n, d⟩ := index
  cases c with
  | string s =>
    cases d with
    | boolean | number =>
      refine (toInteger_raises _).bind fun i => ?_
      split
      · exact .ok _
      · exact .error ⟨rfl, rfl⟩
    | array | range => exact (positions_raises _ _).bind fun _ => .ok _
    | _ => exact .error ⟨rfl, rfl⟩
  | array items =>
    cases d with
    | boolean | number =>
      refine (toInteger_raises _).bind fun i => ?_
      split
      · exact .ok _
      · exact .error ⟨rfl, rfl⟩
    | array | range =>
      refine (positions_raises _ _).bind fun ps => ?_
      split
      · exact .ok _
      · exact .error ⟨rfl, rfl⟩
    | _ => exact .error ⟨rfl, rfl⟩
  | map entries =>
    cases d with
    | string k => exact .ok _
    | array keys => exact (submap_raises origin entries keys []).bind fun _ => .ok _
    | _ => exact .error ⟨rfl, rfl⟩
  | _ => exact .error ⟨rfl, rfl⟩

end Value

end ExprLang
