import ExprLang.Proofs.Bare.Compare
import ExprLang.Step.Binary
import ExprLang.Step.Subscript
import ExprLang.Step.Unary

/-!
# Steps without marks

A step does to bare values what it does to the values themselves (`apply_bare`, `afterLeft_bare`,
`subscript_agrees`). Only the location of a subscript's error comes from marks, so outcomes are
compared up to that: `Error.bare` leaves the cause of an error, without location and expression, and
`Agrees` relates two outcomes that are both values, the second the image of the first, or both
errors of one cause.
-/

namespace ExprLang

/-! ## Causes -/

/-- The error as an expression reports it, without location and expression. -/
def Error.bare : Error → Error
  | .conversion _ v s t => .evaluation none none (.conversion v s t)
  | .dereference _ v a r => .evaluation none none (.dereference v a r)
  | .evaluation _ _ f => .evaluation none none f
  | .index _ v k i j => .index none v k i j
  | .outOfBounds _ v i => .outOfBounds none v i
  | e => e

namespace Error

@[simp] theorem bare_bare (e : Error) : e.bare.bare = e.bare := by cases e <;> rfl

@[simp] theorem bare_orLocation (e : Error) (place : Option Location) : (e.orLocation place).bare = e.bare := by
  cases e <;> rfl

@[simp] theorem bare_inExpression (e : Error) (text : String) (place : Option Location) :
    (e.inExpression text place).bare = e.bare := by
  cases e with
  | evaluation l ex f => cases ex <;> rfl
  | _ => rfl

/-- Attribution brings an error into the family that its cause is in. -/
theorem isEvaluation_inExpression (e : Error) (text : String) (place : Option Location) :
    (e.inExpression text place).isEvaluation = e.bare.isEvaluation := by
  cases e with
  | evaluation l ex f => cases ex <;> rfl
  | _ => rfl

end Error

theorem Except.bind_ok {ε α β : Type} {r : Except ε α} {f : α → Except ε β} {b : β} :
    (r >>= f) = .ok b ↔ ∃ a, r = .ok a ∧ f a = .ok b := by
  cases r with
  | ok a => exact ⟨fun h => ⟨a, rfl, h⟩, fun ⟨_, ha, h⟩ => by cases ha; exact h⟩
  | error e => exact ⟨fun h => (by cases h), fun ⟨_, ha, _⟩ => (by cases ha)⟩

theorem Except.exists_ok_of_isSome {ε α : Type} {r : Except ε α} (h : r.toOption.isSome = true) : ∃ a, r = .ok a := by
  cases r with
  | ok a => exact ⟨a, rfl⟩
  | error e => cases h

theorem Except.exists_of_any {ε α : Type} {p : α → Bool} {r : Except ε α} (h : r.toOption.any p = true) :
    ∃ a, r = .ok a ∧ p a = true := by
  cases r with
  | ok a => exact ⟨a, rfl, h⟩
  | error e => cases h

/-! ## Outcomes that agree -/

/-- Both outcomes are values, related by `f`, or both are errors of one cause. -/
inductive Agrees {α β : Type} (f : α → β) : Except Error α → Except Error β → Prop
  | ok (a : α) : Agrees f (.ok a) (.ok (f a))
  | error {e e' : Error} (h : e.bare = e'.bare) : Agrees f (.error e) (.error e')

namespace Agrees

variable {α β γ δ : Type} {f : α → β} {g : γ → δ}

theorem map_self (f : α → β) (r : Except Error α) : Agrees f r (r.map f) := by
  cases r with
  | ok a => exact .ok a
  | error e => exact .error rfl

theorem eq_ok {a : α} {s : Except Error β} (h : Agrees f (.ok a) s) : s = .ok (f a) := by
  cases h
  rfl

theorem exists_ok {r : Except Error α} {b : β} (h : Agrees f r (.ok b)) : ∃ a, r = .ok a ∧ f a = b := by
  cases h with
  | ok a => exact ⟨a, rfl, rfl⟩

theorem refl (r : Except Error α) : Agrees id r r := by
  cases r with
  | ok a => exact .ok a
  | error e => exact .error rfl

theorem bind {r : Except Error α} {s : Except Error β} {k : α → Except Error γ} {l : β → Except Error δ}
    (h : Agrees f r s) (hk : ∀ a, Agrees g (k a) (l (f a))) : Agrees g (r >>= k) (s >>= l) := by
  cases h with
  | ok a => exact hk a
  | error h => exact .error h

theorem map {r : Except Error α} {s : Except Error β} (h : Agrees f r s) : Agrees id (f <$> r) s := by
  cases h with
  | ok a => exact .ok (f a)
  | error he => exact .error he

/-- An outcome agrees with what agrees with the same as it. -/
theorem of_common {r : Except Error α} {s t : Except Error β} (h : Agrees f r t) (h' : Agrees id s t) : Agrees f r s := by
  cases h with
  | ok a =>
    obtain ⟨b, rfl, rfl⟩ := h'.exists_ok
    exact .ok a
  | error he =>
    cases h' with
    | error he' => exact .error (he.trans he'.symm)

end Agrees

/-- Both outcomes are values that are related, or both are errors. -/
inductive Outcome.Both {α β : Type} (R : α → β → Prop) : Except Error α → Except Error β → Prop
  | ok {a : α} {b : β} (h : R a b) : Both R (.ok a) (.ok b)
  | error (e e' : Error) : Both R (.error e) (.error e')

namespace Outcome.Both

variable {α β γ δ : Type} {R R' : α → β → Prop} {Q : γ → δ → Prop} {r : Except Error α} {t : Except Error β}

theorem refl (r : Except Error α) : Both (· = ·) r r := by
  cases r with
  | ok a => exact .ok rfl
  | error e => exact .error e e

theorem mono (h : Both R r t) (hR : ∀ a b, R a b → R' a b) : Both R' r t := by
  cases h with
  | ok h => exact .ok (hR _ _ h)
  | error e e' => exact .error e e'

theorem bind {k : α → Except Error γ} {l : β → Except Error δ} (h : Both R r t)
    (hk : ∀ a b, R a b → Both Q (k a) (l b)) : Both Q (r >>= k) (t >>= l) := by
  cases h with
  | ok h => exact hk _ _ h
  | error e e' => exact .error e e'

theorem symm {r t : Except Error α} (h : Both (· = ·) r t) : Both (· = ·) t r := by
  cases h with
  | ok h => exact .ok h.symm
  | error e e' => exact .error e' e

theorem trans {r t q : Except Error α} (h : Both (· = ·) r t) (h' : Both (· = ·) t q) : Both (· = ·) r q := by
  cases h with
  | ok h =>
    rw [h]
    exact h'
  | error e =>
    cases h' with
    | error _ e' => exact .error e e'

theorem map {r t : Except Error α} (h : Both (· = ·) r t) (f : α → β) : Both (· = ·) (f <$> r) (f <$> t) := by
  cases h with
  | ok h => exact .ok (congrArg f h)
  | error e e' => exact .error e e'

theorem toOption_eq {r t : Except Error α} (h : Both (· = ·) r t) : r.toOption = t.toOption := by
  cases h with
  | ok h => rw [h]
  | error e e' => rfl

/-- Outcomes that agree with related outcomes. -/
theorem of_agrees {f : γ → α} {g : δ → β} {o : Except Error γ} {o' : Except Error δ} (h : Both R r t)
    (ho : Agrees f o r) (ho' : Agrees g o' t) : Both (fun c d => R (f c) (g d)) o o' := by
  cases h with
  | ok h =>
    obtain ⟨a, rfl, rfl⟩ := ho.exists_ok
    obtain ⟨b, rfl, rfl⟩ := ho'.exists_ok
    exact .ok h
  | error =>
    cases ho with
    | error =>
      cases ho' with
      | error => exact .error _ _

end Outcome.Both

/-! ## Operands -/

namespace Value

/-- A step that gives the same value for the bare operand. -/
theorem map_orInvalidOperand (v : Value) (o : Option Value) :
    (v.orInvalidOperand o).map bare = v.bare.orInvalidOperand (o.map bare) := by
  cases o <;> simp [orInvalidOperand, Except.map, invalidOperand]

theorem map_orInvalidOperands (l r : Value) (o : Option Value) :
    (l.orInvalidOperands r o).map bare = l.bare.orInvalidOperands r.bare (o.map bare) := by
  cases o <;> simp [orInvalidOperands, Except.map, invalidOperands]

theorem signed?_bare (v : Value) : v.bare.signed? = v.signed? := by simp [signed?]

theorem numbers?_bare (l r : Value) : l.bare.numbers? r.bare = l.numbers? r := by simp [numbers?, isNumeric]

end Value

/-! ## Unary operators -/

theorem UnaryOp.apply_bare (op : UnaryOp) (v : Value) : op.apply v.bare = (op.apply v).map Value.bare := by
  unfold apply
  rw [Value.isUndefined_bare]
  cases hu : v.isUndefined with
  | true => rfl
  | false =>
    cases op with
    | plus =>
      simp only [Bool.false_eq_true, ↓reduceIte, Value.map_orInvalidOperand, Value.signed?_bare]
      cases v.signed? <;> rfl
    | minus =>
      simp only [Bool.false_eq_true, ↓reduceIte, Value.map_orInvalidOperand, Value.signed?_bare]
      cases v.signed? <;> rfl
    | not =>
      obtain ⟨m, c⟩ := v
      cases c <;> rfl
    | bitNot =>
      simp only [Bool.false_eq_true, ↓reduceIte, Value.kind_bare, Value.integer?_bare]
      split
      · rw [Value.map_orInvalidOperand]
        cases v.integer? <;> rfl
      · simp [Except.map, Value.invalidOperand]
    | group => rfl
    | startingAt | endingAt =>
      simp only [Bool.false_eq_true, ↓reduceIte, Value.toInteger_bare]
      cases v.toInteger <;> rfl

/-! ## Binary operators -/

namespace Value

theorem arithmetic_bare (f : Float → Float → Float) (l r : Value) :
    l.bare.arithmetic f r.bare = (l.arithmetic f r).map bare := by
  unfold arithmetic
  rw [isUndefined_bare, isUndefined_bare, numbers?_bare]
  split
  · rfl
  · rw [map_orInvalidOperands]
    cases l.numbers? r <;> rfl

theorem concatenation?_bare (l r : Value) : l.bare.concatenation? r.bare = (l.concatenation? r).map bare := by
  obtain ⟨m, c⟩ := l
  obtain ⟨n, d⟩ := r
  cases c with
  | array vs => cases d <;> simp [bare, concatenation?, content]
  | map es => cases d <;> simp [bare, concatenation?, content, Entries.union_mapValues]
  | string s => cases d <;> rfl
  | _ => rfl

theorem add_bare (l r : Value) : l.bare.add r.bare = (l.add r).map bare := by
  unfold add
  rw [isUndefined_bare, isUndefined_bare, numbers?_bare, concatenation?_bare]
  split
  · rfl
  · rw [map_orInvalidOperands]
    cases l.numbers? r <;> rfl

theorem bitwise_bare (f : Int → Int → Int) (l r : Value) : l.bare.bitwise f r.bare = (l.bitwise f r).map bare := by
  unfold bitwise
  rw [isUndefined_bare, isUndefined_bare, integer?_bare, integer?_bare]
  split
  · rfl
  · rw [map_orInvalidOperands]
    cases l.integer? with
    | none => rfl
    | some i => cases r.integer? <;> rfl

theorem comparison_bare (test : Ordering → Bool) (l r : Value) :
    l.bare.comparison test r.bare = (l.comparison test r).map bare := by
  unfold comparison
  rw [compare_bare]
  cases l.compare r <;> rfl

theorem rangeTo_bare (l r : Value) : l.bare.rangeTo r.bare = (l.rangeTo r).map bare := by
  unfold rangeTo
  rw [isUndefined_bare, isUndefined_bare, toInteger_bare, toInteger_bare]
  split
  · rfl
  · cases l.toInteger with
    | error e => rfl
    | ok i => cases r.toInteger <;> rfl

end Value

/-- Two demands that do the same, the second to bare right operands. -/
inductive Demand.IsBare : Demand → Demand → Prop
  | done (r : Except Error Value) : IsBare (.done r) (.done (r.map Value.bare))
  | right {f g : Value → Except Error Value} (h : ∀ w, g w.bare = (f w).map Value.bare) : IsBare (.right f) (.right g)

namespace Value

@[simp] theorem isLogical_bare (v : Value) : v.bare.isLogical = v.isLogical := by simp [isLogical]

theorem logical_bare (decisive : Bool) (l : Value) : (l.logical decisive).IsBare (l.bare.logical decisive) := by
  unfold logical
  rw [isUndefined_bare, isLogical_bare, boolean?_bare]
  cases l.isUndefined with
  | true => exact .done (.ok undefined)
  | false =>
    cases l.isLogical && l.boolean? == some decisive with
    | true => exact .done (.ok (boolean decisive))
    | false =>
      refine .right fun w => ?_
      rw [isUndefined_bare, isLogical_bare, boolean?_bare]
      split
      · rfl
      · split
        · rfl
        · simp [Except.map, invalidOperands]

theorem guarded_bare (v : Value) : v.guarded.IsBare v.bare.guarded := by
  unfold guarded
  simp only [isUndefined_bare, toBoolean_bare]
  split
  · exact .done (.ok undefined)
  · split
    · exact .right fun w => rfl
    · exact .done (.ok undefined)
    · exact .done (.error _)

end Value

theorem BinaryOp.afterLeft_bare (op : BinaryOp) (v : Value) : (op.afterLeft v).IsBare (op.afterLeft v.bare) := by
  cases op with
  | add => exact .right fun w => v.add_bare w
  | subtract | multiply | divide | modulo => exact .right fun w => v.arithmetic_bare _ w
  | and | or => exact v.logical_bare _
  | bitAnd | bitXor | bitOr | shiftLeft | shiftRight => exact .right fun w => v.bitwise_bare _ w
  | less | lessOrEqual | greater | greaterOrEqual | equal | notEqual => exact .right fun w => v.comparison_bare _ w
  | range => exact .right fun w => v.rangeTo_bare w
  | guarded => exact v.guarded_bare

/-! ## Subscripts -/

mutual

theorem Value.positions_bare (size : Nat) : ∀ v : Value, v.bare.positions size = v.positions size
  | ⟨_, .array items⟩ => by rw [Value.bare, Value.positions, Value.positions, positionsOf_bare size items]
  | ⟨_, .boolean _⟩ | ⟨_, .string _⟩ | ⟨_, .number _⟩ | ⟨_, .range _⟩ | ⟨_, .null⟩ | ⟨_, .undefined⟩ => rfl
  | ⟨m, .map entries⟩ => by
    have h := Value.toInteger_bare ⟨m, .map entries⟩
    simp only [Value.bare, Value.positions] at h ⊢
    rw [h]

theorem positionsOf_bare (size : Nat) : ∀ vs : List Value, positionsOf size (bareItems vs) = positionsOf size vs
  | [] => rfl
  | v :: vs => by rw [bareItems, positionsOf, positionsOf, Value.positions_bare size v, positionsOf_bare size vs]

end

namespace Value

variable {α β : Type} (f : α → β)

theorem pick?_map (xs : List α) (p : Option Nat) : pick? (xs.map f) p = (pick? xs p).map f := by
  cases p <;> simp [pick?]

theorem mapM_pick?_map (xs : List α) (ps : List (Option Nat)) :
    ps.mapM (pick? (xs.map f)) = (ps.mapM (pick? xs)).map (·.map f) := by
  induction ps with
  | nil => rfl
  | cons p ps ih =>
    rw [List.mapM_cons, List.mapM_cons, ih, pick?_map]
    cases pick? xs p with
    | none => rfl
    | some a => cases ps.mapM (pick? xs) <;> rfl

theorem submap_agrees (origin : Value → Option Location) (entries : Entries Value) (keys : List Value)
    (found : Entries Value) : Agrees (Entries.mapValues bare) (submap origin entries keys found)
      (submap (fun _ => none) (Entries.mapValues bare entries) (keys.map bare) (Entries.mapValues bare found)) := by
  induction keys generalizing found with
  | nil => exact .ok found
  | cons key keys ih =>
    obtain ⟨m, c⟩ := key
    cases c with
    | string k =>
      simp only [List.map_cons, bare, submap, content, Entries.find?_mapValues]
      cases Entries.find? entries k with
      | none => exact ih found
      | some v =>
        simp only [Option.map_some, Entries.insert_mapValues]
        exact ih _
    | _ =>
      refine .error ?_
      rw [Error.bare_orLocation, Error.bare_orLocation, conversionError_bare]

/-- The outcomes of a subscript that is out of bounds. -/
theorem outside_agrees (origin : Value → Option Location) (base index : Value) :
    Agrees bare (subscript.outside origin base index)
      (subscript.outside (fun _ => none) base.bare index.bare) := by
  refine .error ?_
  simp [Error.bare]

theorem subscript_agrees (origin : Value → Option Location) (base index : Value) :
    Agrees bare (base.subscript origin index) (base.bare.subscript (fun _ => none) index.bare) := by
  have places : ∀ size, Agrees id (index.positions size) (index.bare.positions size) := fun size => by
    rw [positions_bare]
    exact .refl _
  have outside := outside_agrees origin base index
  have refused : Agrees bare (.error (.index (origin base) base.text base.kind index.text index.kind))
      (.error (.index none base.bare.text base.bare.kind index.bare.text index.bare.kind)) :=
    .error (by simp [Error.bare])
  obtain ⟨m, c⟩ := base
  obtain ⟨n, d⟩ := index
  cases c with
  | string s =>
    cases d with
    | boolean | number =>
      refine (Agrees.refl (toInteger ⟨n, _⟩)).bind fun i => ?_
      dsimp only [bare, content, id]
      cases pick? s.toList (position? s.toList.length i) with
      | some c => exact .ok _
      | none => exact outside
    | array | range => exact (places s.toList.length).bind fun ps => .ok _
    | _ => exact refused
  | array items =>
    cases d with
    | boolean | number =>
      refine (Agrees.refl (toInteger ⟨n, _⟩)).bind fun i => ?_
      dsimp only [bare, content, id]
      rw [bareItems_eq, List.length_map, pick?_map]
      cases pick? items (position? items.length i) with
      | some v => exact .ok v
      | none =>
        rw [← bareItems_eq]
        exact outside
    | array | range =>
      refine Agrees.bind (f := id) ?_ fun ps => ?_
      · show Agrees id (positions items.length ⟨n, _⟩) (positions (bareItems items).length (bare ⟨n, _⟩))
        rw [bareItems_eq, List.length_map]
        exact places items.length
      · dsimp only [bare, content, id]
        rw [bareItems_eq, mapM_pick?_map]
        cases ps.mapM (pick? items) with
        | some vs =>
          rw [Option.map_some, ← bareItems_eq]
          exact .ok (array vs)
        | none =>
          rw [← bareItems_eq]
          exact outside
    | _ => exact refused
  | map entries =>
    cases d with
    | string k =>
      show Agrees bare (.ok ((Entries.find? entries k).getD undefined))
        (.ok ((Entries.find? (bareEntries entries) k).getD undefined))
      rw [bareEntries_eq, Entries.find?_mapValues]
      cases Entries.find? entries k with
      | some v => exact .ok v
      | none => exact .ok undefined
    | array keys =>
      refine Agrees.bind (f := Entries.mapValues bare) ?_ fun found => ?_
      · show Agrees _ (submap origin entries keys []) (submap _ (bareEntries entries) (bareItems keys) [])
        rw [bareEntries_eq, bareItems_eq]
        exact submap_agrees origin entries keys []
      · rw [← bareEntries_eq]
        exact .ok (map found)
    | _ => exact refused
  | _ => exact refused

end Value

end ExprLang
