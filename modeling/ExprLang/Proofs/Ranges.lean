import ExprLang.Proofs.Equality
import ExprLang.Proofs.Number.Rounding
import ExprLang.Proofs.Number.Order
import ExprLang.Step.Subscript

/-!
# Ranges and the arrays of their integers

Between bounds that are numbers exactly, a range selects the positions that its integers select one by
one (`Value.positions_integers`), so it can be replaced by their array as a subscript
(`Value.subscript_integers`), and the two are equal (`Value.integers_equals`). They are compared alike, too
(`Value.Restates.compare`), so only sums tell them apart as operands (`BinaryOp.afterLeft_restates`).
-/

namespace ExprLang

/-! ## The integers of a range -/

/-- An integer that is a number exactly. -/
def Number.IsExact (i : Int) : Prop := i.natAbs ≤ 2 ^ 53

instance (i : Int) : Decidable (Number.IsExact i) := inferInstanceAs (Decidable (i.natAbs ≤ 2 ^ 53))

/-- Every integer of a range lies between its bounds. -/
theorem Range.mem_items {first last i : Int} (h : i ∈ (between first last).items 0) :
    min first last ≤ i ∧ i ≤ max first last := by
  obtain ⟨n, hn, rfl⟩ := List.mem_map.1 h
  have hn : n < (last - first).natAbs + 1 := List.mem_range.1 hn
  show min first last ≤ step first last n ∧ step first last n ≤ max first last
  unfold step
  split <;> omega

theorem Range.exact_of_mem_items {first last i : Int} (hfirst : Number.IsExact first) (hlast : Number.IsExact last)
    (h : i ∈ (between first last).items 0) : Number.IsExact i := by
  have hbounds := mem_items h
  unfold Number.IsExact at *
  omega

theorem Range.length_of_exact {first last : Int} (hfirst : Number.IsExact first) (hlast : Number.IsExact last) :
    (between first last).length 0 = ((between first last).items 0).length := by
  rw [items_length]
  unfold Number.IsExact at hfirst hlast
  show min (count first last) 18446744073709551615 = count first last
  unfold count
  omega

namespace Value

section

variable {first last : Int} (hfirst : Number.IsExact first) (hlast : Number.IsExact last)

include hfirst hlast

/-! ## Subscripts -/

omit hfirst hlast in
/-- Integers select their places, if the numbers made of them are at the same places. -/
theorem positionsOf_integers {size : Nat} {is : List Int}
    (h : ∀ i ∈ is, position? size (Number.truncate (Number.ofInteger i)) = position? size i) :
    positionsOf size (is.map integer) = .ok (is.map (position? size)) := by
  induction is with
  | nil => rfl
  | cons i is ih =>
    obtain ⟨hi, his⟩ := List.forall_mem_cons.1 h
    have hposition : (integer i).positions size = .ok [position? size i] := by
      rw [← hi]
      rfl
    rw [List.map_cons, positionsOf, hposition, ih his]
    rfl

theorem positions_integers (size : Nat) (m n : Option Nat) :
    positions size ⟨m, .array (integers first last)⟩ = positions size ⟨n, .range (.between first last)⟩ := by
  rw [positions, positions]
  exact positionsOf_integers fun i hi => by rw [Number.truncate_ofInteger (Range.exact_of_mem_items hfirst hlast hi)]

omit hfirst hlast in
theorem integers_ne_nil (first last : Int) : ∃ i is, integers first last = integer i :: is := by
  obtain ⟨i, is, h⟩ : ∃ i is, (Range.between first last).items 0 = i :: is := by
    refine List.exists_cons_of_ne_nil fun h => ?_
    have hlength := Range.items_length 0 (.between first last)
    rw [h] at hlength
    cases hlength
  exact ⟨i, is.map integer, by rw [integers, h, List.map_cons]⟩

/-- As a subscript, the array of its integers selects what a range selects, or both select nothing. -/
theorem subscript_integers (origin : Value → Option Location) (base : Value) (m n : Option Nat) :
    Outcome.Both (· = ·) (base.subscript origin ⟨m, .array (integers first last)⟩)
      (base.subscript origin ⟨n, .range (.between first last)⟩) := by
  obtain ⟨k, c⟩ := base
  have hpositions := fun size => positions_integers hfirst hlast size m n
  cases c with
  | string s =>
    show Outcome.Both _ (positions _ _ >>= _) (positions _ _ >>= _)
    rw [hpositions]
    exact .refl _
  | array items =>
    show Outcome.Both _ (positions _ _ >>= _) (positions _ _ >>= _)
    rw [hpositions]
    refine (Outcome.Both.refl _).bind ?_
    rintro ps _ rfl
    cases ps.mapM (pick? items) with
    | some vs => exact .refl _
    | none => exact .error _ _
  | map entries =>
    -- a map takes keys only, and an integer is none
    obtain ⟨i, is, h⟩ := integers_ne_nil first last
    show Outcome.Both _ (submap origin entries (integers first last) [] >>= _) _
    rw [h]
    exact .error _ _
  | _ => exact .error _ _

/-! ## Equality -/

/-- Whether a value is the number of an integer. -/
def isInteger (i : Int) : Value → Bool
  | ⟨_, .number x⟩ => x == Number.ofInteger i
  | _ => false

omit hfirst hlast in
/-- An integer is no not-a-number, so marks do not matter, and neither does the side. -/
theorem integer_equals (i : Int) (v : Value) :
    (integer i).equals v = v.isInteger i ∧ v.equals (integer i) = v.isInteger i := by
  have hnan := Number.not_isNaN_ofInteger i
  obtain ⟨m, c⟩ := v
  cases c with
  | number x =>
    show (Number.ofInteger i == x || ((Number.ofInteger i).isNaN && x.isNaN && none == m)) = (x == Number.ofInteger i) ∧
      (x == Number.ofInteger i || (x.isNaN && (Number.ofInteger i).isNaN && m == none)) = (x == Number.ofInteger i)
    rw [hnan, Bool.false_and, Bool.false_and, Bool.or_false, Bool.and_false, Bool.false_and, Bool.or_false,
      Number.beq_comm]
    exact ⟨rfl, rfl⟩
  | range r => cases r <;> exact ⟨rfl, rfl⟩
  | _ => exact ⟨rfl, rfl⟩

omit hfirst hlast in
theorem equalItems_integers (is : List Int) (vs : List Value) :
    equalItems (is.map integer) vs = (vs.length == is.length && (is.zip vs).all fun p => p.2.isInteger p.1) ∧
      equalItems vs (is.map integer) = (vs.length == is.length && (is.zip vs).all fun p => p.2.isInteger p.1) := by
  induction is generalizing vs with
  | nil => cases vs <;> exact ⟨rfl, rfl⟩
  | cons i is ih =>
    cases vs with
    | nil => exact ⟨rfl, rfl⟩
    | cons v vs =>
      obtain ⟨hleft, hright⟩ := ih vs
      obtain ⟨hv, hv'⟩ := integer_equals i v
      rw [List.map_cons, equalItems, equalItems, hv, hv', hleft, hright]
      simp [Bool.and_left_comm]

omit hfirst hlast in
theorem matchesItems_eq (first last : Int) (vs : List Value) : Range.matchesItems first last vs =
    (vs.length == (Range.between first last).length 0 &&
      (((Range.between first last).items 0).zip vs).all fun p => p.2.isInteger p.1) := by
  unfold Range.matchesItems
  congr
  funext ⟨i, ⟨m, c⟩⟩
  cases c <;> rfl

/-- The array of its integers equals what a range matches. -/
theorem equalItems_range (vs : List Value) : equalItems (integers first last) vs = Range.matchesItems first last vs ∧
    equalItems vs (integers first last) = Range.matchesItems first last vs := by
  rw [matchesItems_eq, Range.length_of_exact hfirst hlast]
  exact equalItems_integers _ vs

/-- A range equals every array that holds its integers. -/
theorem integers_equals {items : List Value} (h : items.map bare = integers first last) (m n : Option Nat) :
    equals ⟨m, .array items⟩ ⟨n, .range (.between first last)⟩ = true := by
  show Range.matchesItems first last items = true
  rw [← (equalItems_range hfirst hlast items).1]
  have hbare : bareItems (integers first last) = bareItems items := by
    rw [bareItems_eq, bareItems_eq, map_bare_integers, h]
  refine equalItems_of_bare_eq hbare (fun v hv => ?_) (.inl fun v hv => ?_)
  · obtain ⟨i, -, rfl⟩ := List.mem_map.1 hv
    exact trivial
  · obtain ⟨i, -, rfl⟩ := List.mem_map.1 hv
    exact Number.not_isNaN_ofInteger i

end

/-! ## Comparison -/

theorem sortKeys_integers (first last : Int) :
    (array (integers first last)).sortKeys = array (integers first last) := by
  have hitems : sortKeysItems (integers first last) = integers first last := by
    unfold integers
    induction (Range.between first last).items 0 with
    | nil => rfl
    | cons i is ih => exact congrArg (integer i :: ·) ih
  exact congrArg array hitems

/-- Integers have no parts to compare. -/
theorem compareItems_integers (is : List Int) (vs : List Value) :
    compareItems (is.map integer) vs = lexicographic compareLeaves (is.map integer) vs := by
  induction is generalizing vs with
  | nil => cases vs <;> rfl
  | cons i is ih =>
    cases vs with
    | nil => rfl
    | cons v vs =>
      have hleaves : (integer i).compareSorted v = (integer i).compareLeaves v := compareSorted_of_not_meets rfl
      rw [List.map_cons, compareItems, lexicographic, hleaves, ih]

theorem compare_integers_left (first last : Int) (u : Value) :
    Outcome.Both (· = ·) ((array (integers first last)).compare u) ((range (.between first last)).compare u) := by
  rw [compare, sortKeys_integers, compare]
  obtain ⟨k, c⟩ := u.sortKeys
  cases c with
  | array vs =>
    show Outcome.Both _ (compareItems ((Range.items 0 _).map integer) vs) (lexicographic compareLeaves _ vs)
    rw [compareItems_integers]
    exact .refl _
  | range r =>
    cases r with
    | between a b =>
      show Outcome.Both _ (compareItems ((Range.items 0 _).map integer) _) (lexicographic compareLeaves _ _)
      rw [compareItems_integers]
      exact .refl _
    | _ => exact .error _ _
  | null | undefined => exact .refl _
  | _ => exact .error _ _

theorem compare_integers_right (first last : Int) (u : Value) :
    Outcome.Both (· = ·) (u.compare (array (integers first last))) (u.compare (range (.between first last))) := by
  rw [compare, sortKeys_integers, compare]
  obtain ⟨k, c⟩ := u.sortKeys
  cases c with
  | array vs => exact .refl _
  | range r =>
    cases r with
    | between a b => exact .refl _
    | _ => exact .error _ _
  | null | undefined => exact .refl _
  | _ => exact .error _ _

/-! ## Arrays in place of ranges -/

/-- An array of the integers between the exact bounds of a range. -/
def Lists (w v : Value) : Prop := ∃ first last, Number.IsExact first ∧ Number.IsExact last ∧
  w = array (integers first last) ∧ v = range (.between first last)

/-- The value, or for a range the array of its integers. -/
def Restates (w v : Value) : Prop := w = v ∨ w.Lists v

namespace Restates

variable {t u v w : Value}

theorem number? (h : w.Restates v) : w.number? = v.number? := by
  obtain rfl | ⟨first, last, -, -, rfl, rfl⟩ := h <;> rfl

theorem boolean? (h : w.Restates v) : w.boolean? = v.boolean? := by
  obtain rfl | ⟨first, last, -, -, rfl, rfl⟩ := h <;> rfl

theorem isUndefined (h : w.Restates v) : w.isUndefined = v.isUndefined := by
  obtain rfl | ⟨first, last, -, -, rfl, rfl⟩ := h <;> rfl

theorem isLogical (h : w.Restates v) : w.isLogical = v.isLogical := by
  obtain rfl | ⟨first, last, -, -, rfl, rfl⟩ := h <;> rfl

theorem signed? (h : w.Restates v) : w.signed? = v.signed? := by
  obtain rfl | ⟨first, last, -, -, rfl, rfl⟩ := h <;> rfl

theorem integer? (h : w.Restates v) : w.integer? = v.integer? := by rw [Value.integer?, h.number?, Value.integer?]

theorem numbers? (h : w.Restates v) (h' : u.Restates t) : w.numbers? u = v.numbers? t := by
  have isNumeric {v w : Value} (h : w.Restates v) : w.isNumeric = v.isNumeric ∧ (w.kind == .string) = (v.kind == .string) := by
    obtain rfl | ⟨first, last, -, -, rfl, rfl⟩ := h <;> exact ⟨rfl, rfl⟩
  unfold Value.numbers?
  rw [(isNumeric h).1, (isNumeric h).2, (isNumeric h').1, (isNumeric h').2, h.number?, h'.number?]

theorem compare (h : w.Restates v) (h' : u.Restates t) : Outcome.Both (· = ·) (w.compare u) (v.compare t) := by
  have hleft : Outcome.Both (· = ·) (w.compare u) (v.compare u) := by
    obtain rfl | ⟨first, last, -, -, rfl, rfl⟩ := h
    · exact .refl _
    · exact compare_integers_left first last u
  have hright : Outcome.Both (· = ·) (v.compare u) (v.compare t) := by
    obtain rfl | ⟨first, last, -, -, rfl, rfl⟩ := h'
    · exact .refl _
    · exact compare_integers_right first last v
  exact hleft.trans hright

theorem toInteger (h : w.Restates v) : Outcome.Both (· = ·) w.toInteger v.toInteger := by
  unfold Value.toInteger
  rw [h.integer?]
  cases v.integer? with
  | some i => exact .refl _
  | none => exact .error _ _

end Restates

end Value

/-! ## Operators -/

namespace Value

variable {t u v w : Value}

theorem orInvalidOperand_both (o : Option Value) :
    Outcome.Both (· = ·) (w.orInvalidOperand o) (v.orInvalidOperand o) := by
  cases o with
  | some x => exact .refl _
  | none => exact .error _ _

theorem orInvalidOperands_both (o : Option Value) :
    Outcome.Both (· = ·) (w.orInvalidOperands u o) (v.orInvalidOperands t o) := by
  cases o with
  | some x => exact .refl _
  | none => exact .error _ _

end Value

open Value

theorem UnaryOp.apply_restates {op : UnaryOp} (hop : op ≠ .group) {v w : Value} (h : w.Restates v) :
    Outcome.Both (· = ·) (op.apply w) (op.apply v) := by
  unfold apply
  rw [h.isUndefined]
  split
  · exact .refl _
  · cases op with
    | plus | minus =>
      rw [h.signed?]
      exact orInvalidOperand_both _
    | not =>
      obtain rfl | ⟨first, last, -, -, rfl, rfl⟩ := h
      · exact .refl _
      · exact .error _ _
    | bitNot =>
      obtain rfl | ⟨first, last, -, -, rfl, rfl⟩ := h
      · exact .refl _
      · exact .error _ _
    | group => exact absurd rfl hop
    | startingAt | endingAt =>
      refine h.toInteger.bind ?_
      rintro i _ rfl
      exact .refl _

/-- Both are outcomes, or both go on with right operands of which one restates the other. -/
inductive Demand.Both : Demand → Demand → Prop
  | done {r t : Except Error Value} (h : Outcome.Both (· = ·) r t) : Both (.done r) (.done t)
  | right {f g : Value → Except Error Value} (h : ∀ u t, u.Restates t → Outcome.Both (· = ·) (f u) (g t)) :
    Both (.right f) (.right g)

namespace Value

variable {v w : Value}

theorem arithmetic_restates (f : Float → Float → Float) (h : w.Restates v) :
    (Demand.right (w.arithmetic f)).Both (.right (v.arithmetic f)) := .right fun u t h' => by
  unfold arithmetic
  rw [h.isUndefined, h'.isUndefined, h.numbers? h']
  split
  · exact .refl _
  · exact orInvalidOperands_both _

theorem bitwise_restates (f : Int → Int → Int) (h : w.Restates v) :
    (Demand.right (w.bitwise f)).Both (.right (v.bitwise f)) := .right fun u t h' => by
  unfold bitwise
  rw [h.isUndefined, h'.isUndefined, h.integer?, h'.integer?]
  split
  · exact .refl _
  · exact orInvalidOperands_both _

theorem comparison_restates (test : Ordering → Bool) (h : w.Restates v) :
    (Demand.right (w.comparison test)).Both (.right (v.comparison test)) :=
  .right fun _ _ h' => (h.compare h').map _

theorem rangeTo_restates (h : w.Restates v) : (Demand.right w.rangeTo).Both (.right v.rangeTo) := .right fun u t h' => by
  unfold rangeTo
  rw [h.isUndefined, h'.isUndefined]
  split
  · exact .refl _
  · refine h.toInteger.bind ?_
    rintro i _ rfl
    refine h'.toInteger.bind ?_
    rintro j _ rfl
    exact .refl _

theorem logical_restates (decisive : Bool) (h : w.Restates v) : (w.logical decisive).Both (v.logical decisive) := by
  unfold logical
  rw [h.isUndefined, h.isLogical, h.boolean?]
  split
  · exact .done (.refl _)
  · split
    · exact .done (.refl _)
    · refine .right fun u t h' => ?_
      rw [h'.isLogical, h'.boolean?, h'.isUndefined]
      split
      · exact .refl _
      · split
        · exact .refl _
        · exact .error _ _

end Value

/-- Apart from a sum, operators take an array of integers as they take a range. -/
theorem BinaryOp.afterLeft_restates {op : BinaryOp} (hadd : op ≠ .add) (hguarded : op ≠ .guarded) {v w : Value}
    (h : w.Restates v) : (op.afterLeft w).Both (op.afterLeft v) := by
  cases op with
  | add => exact absurd rfl hadd
  | guarded => exact absurd rfl hguarded
  | subtract | multiply | divide | modulo => exact arithmetic_restates _ h
  | bitAnd | bitXor | bitOr | shiftLeft | shiftRight => exact bitwise_restates _ h
  | and | or => exact logical_restates _ h
  | range => exact rangeTo_restates h
  | _ => exact comparison_restates _ h

end ExprLang
