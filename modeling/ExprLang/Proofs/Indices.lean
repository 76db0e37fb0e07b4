import ExprLang.Proofs.Cuts
import ExprLang.Proofs.Number.Rounding
import ExprLang.Proofs.Printing.Indices
import ExprLang.Proofs.Printing.Meaning

/-!
# Subscripts by several ranges

A subscript by ranges is the sum of the subscripts by one range each, as long as all of them are bounded. The
ranges of a list become the array of their integers, which are numbers then, but no integer that is rounded
comes near a position (`Number.position?_ofInteger`). An open range among several has no integers of its own,
so the list fails (`RangeLiteral.list_evaluates_like_sum`).
-/

namespace ExprLang

open Lexeme

/-! ## Positions -/

/-- Far from zero there are no positions. -/
theorem position?_far {size : Nat} {i : Int} (hsize : size < 2 ^ 53) (h : 2 ^ 53 ≤ i ∨ i ≤ -2 ^ 53) :
    position? size i = none := by
  unfold position?
  rw [if_neg (by omega), if_neg (by omega)]

/-- Made a number, an integer stands for the same position. -/
theorem Number.position?_ofInteger {size : Nat} (hsize : size < 2 ^ 53) (i : Int) :
    position? size (truncate (ofInteger i)) = position? size i := by
  by_cases hexact : IsExact i
  · rw [truncate_ofInteger hexact]
  · have hlong : 2 ^ 53 < i.natAbs := Nat.lt_of_not_le hexact
    obtain ⟨hpos, hfar⟩ | ⟨hneg, hfar⟩ := truncate_ofInteger_of_long hlong
    · rw [position?_far hsize (.inl hfar), position?_far hsize (.inl (by omega))]
    · rw [position?_far hsize (.inr hfar), position?_far hsize (.inr (by omega))]

/-! ## Selections -/

namespace Value

/-- The number of positions, if there are any. -/
def size? (v : Value) : Option Nat :=
  match v.content with
  | .string s => some s.toList.length
  | .array items => some items.length
  | _ => none

/-- What integers select. A string skips those that are not at a position, an array needs all of them. -/
def select? (base : Value) (is : List Int) : Option Value :=
  match base.content with
  | .string s =>
    some (string (String.ofList ((is.map (position? s.toList.length)).filterMap (pick? s.toList))))
  | .array items => ((is.map (position? items.length)).mapM (pick? items)).map array
  | _ => none

@[simp] theorem size?_bare (v : Value) : v.bare.size? = v.size? := by
  obtain ⟨m, c⟩ := v
  cases c with
  | array items => simp [bare, size?, content]
  | _ => rfl

variable {base : Value} {size : Nat} (hsize : base.size? = some size)

include hsize

/-- A list or a range selects the positions of its integers. -/
theorem toOption_subscript {index : Value} {is : List Int} (origin : Value → Option Location)
    (hkind : index.kind = .array ∨ index.kind = .range) (hpositions : index.positions size = .ok (is.map (position? size))) :
    (base.subscript origin index).toOption = base.select? is := by
  obtain ⟨m, c⟩ := base
  obtain ⟨k, d⟩ := index
  cases c with
  | string s =>
    cases hsize
    cases d with
    | array | range =>
      show (positions _ _ >>= _).toOption = _
      rw [hpositions]
      rfl
    | _ => simp [kind, content] at hkind
  | array items =>
    cases hsize
    cases d with
    | array | range =>
      show (positions _ _ >>= _).toOption = Option.map _ (List.mapM _ _)
      rw [hpositions]
      cases h : (is.map (position? items.length)).mapM (pick? items) with
      | some vs => simp [h, bind, Except.bind, pure, Except.pure, Except.toOption]
      | none => simp [h, bind, Except.bind, Except.toOption, subscript.outside]
    | _ => simp [kind, content] at hkind
  | _ => cases hsize

theorem select?_nil : ∃ v, base.select? [] = some v := by
  obtain ⟨m, c⟩ := base
  cases c with
  | string | array => exact ⟨_, rfl⟩
  | _ => cases hsize

/-- Selections one after the other are added. -/
theorem select?_append (is js : List Int) : base.select? (is ++ js) =
    (base.select? is).bind fun v => (base.select? js).bind fun w => (v.add w).toOption := by
  obtain ⟨m, c⟩ := base
  cases c with
  | string s =>
    show some _ = some _
    rw [List.map_append, List.filterMap_append, String.ofList_append]
  | array items =>
    show Option.map _ (List.mapM _ _) = (Option.map _ (List.mapM _ _)).bind fun v => (Option.map _ (List.mapM _ _)).bind _
    rw [List.map_append, List.mapM_append]
    cases (is.map (position? items.length)).mapM (pick? items) with
    | none => rfl
    | some vs => cases (js.map (position? items.length)).mapM (pick? items) <;> rfl
  | _ => cases hsize

/-- Selections can always be added. -/
theorem select?_append_eq_none {is js : List Int} :
    base.select? (is ++ js) = none ↔ base.select? is = none ∨ base.select? js = none := by
  obtain ⟨m, c⟩ := base
  cases c with
  | string s => simp [select?, content]
  | array items =>
    show Option.map _ (List.mapM _ _) = _ ↔ Option.map _ (List.mapM _ _) = _ ∨ Option.map _ (List.mapM _ _) = _
    rw [List.map_append, List.mapM_append]
    cases (is.map (position? items.length)).mapM (pick? items) with
    | none => simp
    | some vs => cases (js.map (position? items.length)).mapM (pick? items) <;> simp
  | _ => cases hsize

/-- What is selected by several lists fails if what is selected by one of them does. -/
theorem select?_flatMap_eq_none {α : Type} (f : α → List Int) (as : List α) :
    base.select? (as.flatMap f) = none ↔ ∃ a ∈ as, base.select? (f a) = none := by
  induction as with
  | nil =>
    obtain ⟨v, hv⟩ := select?_nil hsize
    simp [hv]
  | cons a as ih =>
    rw [List.flatMap_cons, select?_append_eq_none hsize, ih]
    simp

end Value

/-! ## Literals -/

namespace IntegerLiteral

def number (n : IntegerLiteral) : Float :=
  match n.sign with
  | .positive => Float.ofNat (Numeral.natural n.digits)
  | .negative => -Float.ofNat (Numeral.natural n.digits)

theorem denote_node (n : IntegerLiteral) (σ : String → Value) : n.node.denote .strict σ = .ok (.number n.number) := by
  have hunsigned : Number.unsigned n.digits = .literal none (.number (Float.ofNat (Numeral.natural n.digits))) := by
    rw [Number.unsigned, Numeral.value?_digits n.isDigits]
  rw [node, text, String.toList_append, String.toList_ofList, number]
  cases n.sign with
  | positive =>
    rw [Number.sourceOf_positive (.inl n.isPlainNumeral), hunsigned]
    rfl
  | negative =>
    show (Expr.unary none .minus (Number.unsigned n.digits)).denote .strict σ = _
    rw [hunsigned]
    rfl

end IntegerLiteral

namespace RangeLiteral

/-- The range between the integers of the literals. -/
def range : RangeLiteral → Range
  | between first last => .between (Number.truncate first.number) (Number.truncate last.number)
  | startingAt first => .startingAt (Number.truncate first.number)
  | endingAt last => .endingAt (Number.truncate last.number)

theorem denote_node (r : RangeLiteral) (σ : String → Value) : r.node.denote .strict σ = .ok (.range r.range) := by
  cases r with
  | between first last =>
    rw [node, Expr.denote, first.denote_node, last.denote_node]
    rfl
  | startingAt first =>
    rw [node, Expr.denote, first.denote_node]
    rfl
  | endingAt last =>
    rw [node, Expr.denote, last.denote_node]
    rfl

/-! ## Lists of ranges -/

variable {r : RangeLiteral} {rs : List RangeLiteral} {σ : String → Value}

/-- The integers of a bounded range, which are the same for every size, are its items in an array. -/
theorem splice_range (h : r.isOpen = false) (size : Nat) :
    (Value.range r.range).splice = .ok ((r.range.items size).map .integer) := by
  cases r with
  | between first last => rfl
  | _ => cases h

theorem splice_open (h : r.isOpen = true) : ∃ err, (Value.range r.range).splice = .error err := by
  cases r with
  | between => cases h
  | _ => exact ⟨_, rfl⟩

theorem denoteItems_bounded (h : ∀ r ∈ rs, r.isOpen = false) (size : Nat) :
    denoteItems .strict σ (rs.map node) = .ok ((rs.flatMap (·.range.items size)).map .integer) := by
  induction rs with
  | nil => rfl
  | cons r rs ih =>
    obtain ⟨hr, hrs⟩ := List.forall_mem_cons.1 h
    rw [List.map_cons, denoteItems, denote_node, List.flatMap_cons, List.map_append]
    show (Value.splice _ >>= _) = _
    rw [splice_range hr size, ih hrs]
    rfl

theorem denoteItems_open (h : ∃ r ∈ rs, r.isOpen = true) :
    ∃ err, denoteItems .strict σ (rs.map node) = .error err := by
  induction rs with
  | nil => simp at h
  | cons r rs ih =>
    rw [List.map_cons, denoteItems, denote_node]
    show ∃ err, (Value.splice _ >>= _) = _
    cases hr : r.isOpen with
    | true =>
      obtain ⟨err, herr⟩ := splice_open hr
      exact ⟨err, by rw [herr]; rfl⟩
    | false =>
      obtain ⟨err, herr⟩ := ih (by simpa [hr] using h)
      exact ⟨err, by rw [splice_range hr 0, herr]; rfl⟩

end RangeLiteral

/-! ## Meanings -/

theorem Outcome.Both.of_toOption_eq {α : Type} {r t : Except Error α} (h : r.toOption = t.toOption) :
    Both (· = ·) r t := by
  cases r with
  | ok a =>
    cases t with
    | ok b => exact .ok (Option.some.inj h)
    | error => cases h
  | error =>
    cases t with
    | ok => cases h
    | error => exact .error _ _

namespace Expr

/-- The value that an expression means, if it does not fail. -/
def means? (σ : String → Value) (e : Expr) : Option Value := (e.denote .strict σ).toOption

/-- Evaluation ends with an error. -/
def Fails (e : Expr) (c : Context) : Prop := ∃ err, (e.evaluate c).1 = .error err

variable {e u : Expr} {c : Context} {σ : String → Value}

theorem means?_of_unplaced (h : e.unplaced = u) : e.means? σ = u.means? σ := by
  rw [means?, means?, ← h, denote_unplaced]

theorem fails_iff : e.Fails c ↔ e.means? c.store.values = none := by
  obtain ⟨-, agrees⟩ := run_yields .strict c.store e c rfl
  rw [Fails, means?, evaluate]
  generalize (e.run .strict c).1 = o at agrees
  generalize e.denote .strict c.store.values = r at agrees
  cases agrees with
  | ok v => simp [Except.toOption]
  | error => simp [Except.toOption]

theorem both_of_means?_eq (h : e.means? c.store.values = u.means? c.store.values) :
    Outcome.Both (fun v w => v.bare = w.bare) (e.evaluate c).1 (u.evaluate c).1 :=
  (Outcome.Both.of_toOption_eq h).of_agrees (run_yields .strict c.store e c rfl).2 (run_yields .strict c.store u c rfl).2

theorem settled_toOption (r : Except Error Value) : (settled .strict r).toOption = r.toOption := by
  cases r <;> rfl

theorem means?_add (a b : Expr) : (binary none .add a b).means? σ =
    (a.means? σ).bind fun v => (b.means? σ).bind fun w => (v.add w).toOption := by
  rw [means?, denote, settled_toOption, means?, means?]
  cases a.denote .strict σ with
  | error => rfl
  | ok v =>
    cases b.denote .strict σ with
    | error => rfl
    | ok w => rfl

end Expr

namespace RangeLiteral

open ExprLang.Expr

variable {name : String} {size : Nat} {rs : List RangeLiteral} {σ : String → Value}

theorem means?_list_open (hlength : 2 ≤ rs.length) (h : ∃ r ∈ rs, r.isOpen = true) :
    (listNode name rs).means? σ = none := by
  obtain ⟨err, herr⟩ := denoteItems_open (σ := σ) h
  rw [listNode_eq name hlength, means?, denote, denote, denote, herr, settled_toOption]
  rfl

section

variable (hsize : (σ name).size? = some size)

include hsize

theorem means?_single (r : RangeLiteral) : (singleNode name r).means? σ = (σ name).select? (r.range.items size) := by
  rw [means?, singleNode, denote, denote_node, settled_toOption, denote]
  show ((σ name).subscript _ (.range _)).toOption = _
  exact Value.toOption_subscript hsize _ (.inr rfl) rfl

theorem means?_list (hn : size < 2 ^ 53) (hlength : 2 ≤ rs.length) (h : ∀ r ∈ rs, r.isOpen = false) :
    (listNode name rs).means? σ = (σ name).select? (rs.flatMap (·.range.items size)) := by
  have hpositions : positionsOf size ((rs.flatMap (·.range.items size)).map .integer) =
      .ok ((rs.flatMap (·.range.items size)).map (position? size)) :=
    Value.positionsOf_integers fun i _ => Number.position?_ofInteger hn i
  rw [listNode_eq name hlength, means?, denote, denote, denote, denoteItems_bounded h size, settled_toOption]
  show ((σ name).subscript _ (.array _)).toOption = _
  exact Value.toOption_subscript hsize _ (.inl rfl) hpositions

theorem means?_sum {e : Expr} {is : List Int} (he : e.means? σ = (σ name).select? is) (rs : List RangeLiteral) :
    ((rs.map (singleNode name)).foldl (.binary none .add) e).means? σ =
      (σ name).select? (is ++ rs.flatMap (·.range.items size)) := by
  induction rs generalizing e is with
  | nil => rw [List.flatMap_nil, List.append_nil, ← he, List.map_nil, List.foldl_nil]
  | cons r rs ih =>
    have hsum : (Expr.binary none .add e (singleNode name r)).means? σ = (σ name).select? (is ++ r.range.items size) := by
      rw [means?_add, he, means?_single hsize, Value.select?_append hsize]
    rw [List.map_cons, List.foldl_cons, ih hsum, List.flatMap_cons, List.append_assoc]

end

/-- A variable that holds a string or an array of fewer than `2 ^ 53` parts can be subscripted by a list of ranges, by
each of them, and by each in a sum. The list fails if one of the ranges is open or fails, and no other way. If all of
them are bounded, the list and the sum have one value, or both fail. -/
theorem list_evaluates_like_sum {c : Context} (hname : Whole ⟨.name, name.toList⟩) (hlength : 2 ≤ rs.length)
    (hsize : (c.lookup name).size? = some size) (hn : size < 2 ^ 53) :
    ∃ e u ts, parse (list name rs) = .ok e ∧ parse (sum name rs) = .ok u ∧
      List.Forall₂ (fun r t => parse (single name r) = .ok t) rs ts ∧
      (e.Fails c ↔ (∃ r ∈ rs, r.isOpen = true) ∨ ∃ t ∈ ts, t.Fails c) ∧
      ((∀ r ∈ rs, r.isOpen = false) →
        Outcome.Both (fun v w => v.bare = w.bare) (e.evaluate c).1 (u.evaluate c).1) := by
  have hspells : Spells name.toList (.var none name) := by
    simpa using spells_name (firm_of_front hname rfl)
  have hvalue : (c.store.values name).size? = some size := by
    rw [Store.values, Value.size?_bare]
    exact hsize
  have hsum : ∃ u, parse (sum name rs) = .ok u ∧
      u.means? c.store.values = (c.store.values name).select? (rs.flatMap (·.range.items size)) := by
    match rs, hlength with
    | r :: rs, _ =>
      obtain ⟨u, hu, huu⟩ := parse_of_spells (spells_sum hspells r rs)
      exact ⟨u, hu, by rw [means?_of_unplaced huu, means?_sum hvalue (means?_single hvalue r), List.flatMap_cons]⟩
  obtain ⟨u, hu, hmeans⟩ := hsum
  obtain ⟨e, he, hlist⟩ := parse_of_spells (spells_list hspells rs)
  choose t ht hsingle using fun r => parse_of_spells (spells_single hspells r)
  have hfails : ∀ r, (t r).Fails c ↔ (c.store.values name).select? (r.range.items size) = none := fun r => by
    rw [fails_iff, means?_of_unplaced (hsingle r), means?_single hvalue]
  refine ⟨e, u, rs.map t, he, hu, List.forall₂_map_right_iff.2 (List.forall₂_same.2 fun r _ => ht r), ?_,
    fun hbounded => ?_⟩
  · rw [fails_iff, means?_of_unplaced hlist]
    by_cases hopen : ∃ r ∈ rs, r.isOpen = true
    · exact iff_of_true (means?_list_open hlength hopen) (.inl hopen)
    · rw [or_iff_right hopen, means?_list hvalue hn hlength (by simpa using hopen), Value.select?_flatMap_eq_none hvalue]
      simp only [List.mem_map, exists_exists_and_eq_and, hfails]
  · refine both_of_means?_eq ?_
    rw [means?_of_unplaced hlist, hmeans, means?_list hvalue hn hlength hbounded]

/-- Three numbers. -/
def threeContext : Context := .ofStore [("x", .array [.number 4, .number 5, .number 6])] 0

/-- All positions backwards, and the last one. -/
def backwards : List RangeLiteral := [.between (.ofInt 2) (.ofInt 0), .between (.ofInt (-1)) (.ofInt (-1))]

theorem list_evaluates_like_sum_backwards : Whole ⟨.name, "x".toList⟩ ∧ 2 ≤ backwards.length ∧
    (threeContext.lookup "x").size? = some 3 ∧ 3 < 2 ^ 53 ∧ (∀ r ∈ backwards, r.isOpen = false) ∧
    ∃ e u, parse (list "x" backwards) = .ok e ∧ parse (sum "x" backwards) = .ok u ∧
      Outcome.Both (fun v w => v.bare = w.bare) (e.evaluate threeContext).1 (u.evaluate threeContext).1 := by
  have hname : Whole ⟨.name, "x".toList⟩ := rfl
  have hlength : 2 ≤ backwards.length := by decide
  have hsize : (threeContext.lookup "x").size? = some 3 := rfl
  have hbounded : ∀ r ∈ backwards, r.isOpen = false := by decide
  obtain ⟨e, u, ts, he, hu, -, -, hboth⟩ := list_evaluates_like_sum hname hlength hsize (by decide)
  exact ⟨hname, hlength, hsize, by decide, hbounded, e, u, he, hu, hboth hbounded⟩

/-- A text. -/
def abcContext : Context := .ofStore [("x", .string "abc")] 0

/-- From the second position on, and then the first. -/
def turned : List RangeLiteral := [.startingAt (.ofInt 1), .between (.ofInt 0) (.ofInt 0)]

/-- Each of the two ranges selects its part of a text, but together they fail. -/
theorem list_evaluates_like_sum_openRange : ¬ ∀ (name : String) (rs : List RangeLiteral) (c : Context) (size : Nat),
    Whole ⟨.name, name.toList⟩ → 2 ≤ rs.length → (c.lookup name).size? = some size → size < 2 ^ 53 →
    ∃ e u ts, parse (list name rs) = .ok e ∧ parse (sum name rs) = .ok u ∧
      List.Forall₂ (fun r t => parse (single name r) = .ok t) rs ts ∧ (e.Fails c ↔ ∃ t ∈ ts, t.Fails c) ∧
      Outcome.Both (fun v w => v.bare = w.bare) (e.evaluate c).1 (u.evaluate c).1 := by
  intro h
  obtain ⟨e, u, ts, he, hu, -, -, hboth⟩ := h "x" turned abcContext 3 rfl (by decide) rfl (by decide)
  have hlist : (parse (list "x" turned)).toOption.any (fun e => (e.evaluate abcContext).1.toOption.isNone) = true := by
    decide +kernel
  have hsum : (parse (sum "x" turned)).toOption.any (fun u => (u.evaluate abcContext).1.toOption.isSome) = true := by
    decide +kernel
  rw [he] at hlist
  rw [hu] at hsum
  simp only [Except.toOption, Option.any_some] at hlist hsum
  generalize (e.evaluate abcContext).1 = v at hboth hlist
  generalize (u.evaluate abcContext).1 = w at hboth hsum
  cases hboth with
  | ok => cases hlist
  | error => cases hsum

end RangeLiteral

end ExprLang
