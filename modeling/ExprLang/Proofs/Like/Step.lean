import ExprLang.Proofs.Indices
import ExprLang.Proofs.Like.Compare

/-!
# Steps on values that are built alike

A step does to values what it does to values that are built alike, or fails on both. There are three exceptions, in
which equal operands can be told apart.

* A sum joins arrays and no ranges, and a division looks at the sign of a divisor that is zero
  (`BinaryOp.TellsApart`, `BinaryOp.afterLeft_like`).
* The items of an array that are ranges are spliced, those that are arrays are not (`Value.splice_like`).
* An array has positions and a range has none; and only a position below `2 ^ 53` is the same as an integer and as a
  number (`Value.subscript_like`).
-/

namespace ExprLang

open Outcome (Both)

/-! ## What is seen of an operand -/

namespace Value

variable {v w u u' : Value}

theorem like_boolean (b : Bool) : (boolean b).Like (boolean b) := Partless.like ⟨Kind.noConfusion, Kind.noConfusion⟩

theorem like_string (s : String) : (string s).Like (string s) := Partless.like ⟨Kind.noConfusion, Kind.noConfusion⟩

theorem like_integer (i : Int) : (integer i).Like (integer i) := Partless.like ⟨Kind.noConfusion, Kind.noConfusion⟩

theorem like_range (r : Range) : (range r).Like (range r) := Partless.like ⟨Kind.noConfusion, Kind.noConfusion⟩

theorem like_undefined : undefined.Like undefined := Partless.like ⟨Kind.noConfusion, Kind.noConfusion⟩

section

variable (h : v.Like w)

include h

theorem Like.isUndefined_eq : v.isUndefined = w.isUndefined := by
  obtain @⟨_, _, _, _, halike⟩ := h
  cases halike <;> rfl

theorem Like.isLogical_eq : v.isLogical = w.isLogical := by
  obtain @⟨_, _, _, _, halike⟩ := h
  cases halike <;> rfl

theorem Like.isNumeric_eq : v.isNumeric = w.isNumeric := by
  obtain @⟨_, _, _, _, halike⟩ := h
  cases halike <;> rfl

theorem Like.isScalar_eq : v.isScalar = w.isScalar := by
  obtain @⟨_, _, _, _, halike⟩ := h
  cases halike <;> rfl

theorem Like.isString_eq : (v.kind == .string) = (w.kind == .string) := by
  obtain @⟨_, _, _, _, halike⟩ := h
  cases halike <;> rfl

theorem Like.boolean?_eq : v.boolean? = w.boolean? := by
  obtain @⟨_, _, _, _, halike⟩ := h
  cases halike with
  | @number x y hxy =>
    show some (x != 0) = some (y != 0)
    rw [bne, bne, Number.beq_plain hxy rfl]
  | _ => rfl

theorem Like.number?_rel : Option.Rel (fun x y => Number.plain x = Number.plain y) v.number? w.number? := by
  obtain @⟨m, n, c, _, halike⟩ := h
  cases halike with
  | alone =>
    have hsame : number? ⟨m, c⟩ = number? ⟨n, c⟩ := rfl
    exact Option.Rel.of_eq (R := fun x y => Number.plain x = Number.plain y) (fun _ => rfl) hsame
  | number hxy => exact .some hxy
  | _ => exact .none

theorem Like.integer?_eq : v.integer? = w.integer? :=
  Option.Rel.map_eq h.number?_rel fun _ _ => Number.truncate_plain

theorem Like.toBoolean_both : Both (· = ·) v.toBoolean w.toBoolean :=
  orConversionError_both (Option.Rel.of_eq (fun _ => rfl) h.boolean?_eq)

theorem Like.toInteger_both : Both (· = ·) v.toInteger w.toInteger :=
  orConversionError_both (Option.Rel.of_eq (fun _ => rfl) h.integer?_eq)

theorem Like.signed?_rel : Option.Rel (fun x y => Number.plain x = Number.plain y) v.signed? w.signed? := by
  have hscalar : ∀ u : Value, u.signed? = if u.isScalar then u.number? else none := fun u => by simp [signed?, isScalar]
  rw [hscalar, hscalar, h.isScalar_eq]
  split
  · exact h.number?_rel
  · exact .none

end

theorem orInvalidOperand_like {o o' : Option Value} (h : Option.Rel Like o o') :
    Both Like (v.orInvalidOperand o) (w.orInvalidOperand o') := by
  cases h with
  | some h => exact .ok h
  | none => exact .error _ _

theorem orInvalidOperands_like {o o' : Option Value} (h : Option.Rel Like o o') :
    Both Like (v.orInvalidOperands u o) (w.orInvalidOperands u' o') := by
  cases h with
  | some h => exact .ok h
  | none => exact .error _ _

end Value

open Value

/-! ## Unary operators -/

theorem UnaryOp.apply_like (op : UnaryOp) {v w : Value} (h : v.Like w) : Both Like (op.apply v) (op.apply w) := by
  unfold apply
  rw [h.isUndefined_eq]
  split
  · exact .ok like_undefined
  · cases op with
    | plus => exact orInvalidOperand_like (Option.Rel.map h.signed?_rel fun _ _ => like_number)
    | minus => exact orInvalidOperand_like (Option.Rel.map h.signed?_rel fun _ _ hxy => like_number (Number.plain_neg hxy))
    | not =>
      obtain @⟨m, n, c, _, halike⟩ := h
      cases halike with
      | alone =>
        cases c with
        | boolean b => exact .ok (like_boolean _)
        | _ => exact .error _ _
      | _ => exact .error _ _
    | bitNot =>
      have hinteger := h.integer?_eq
      have hkind : v.kind ∈ [Kind.number, .string] ↔ w.kind ∈ [Kind.number, .string] := by
        obtain @⟨_, _, _, _, halike⟩ := h
        cases halike <;> simp [kind, content]
      dsimp only
      rw [hinteger]
      by_cases hw : w.kind ∈ [Kind.number, .string]
      · rw [if_pos (hkind.2 hw), if_pos hw]
        refine orInvalidOperand_like ?_
        cases w.integer? with
        | some i => exact .some (like_integer _)
        | none => exact .none
      · rw [if_neg (mt hkind.1 hw), if_neg hw]
        exact .error _ _
    | group => exact .ok h
    | startingAt | endingAt =>
      refine h.toInteger_both.bind ?_
      rintro i _ rfl
      exact .ok (like_range _)

/-! ## Binary operators -/

/-- Both are outcomes that are alike, or both go on with right operands that are alike and are related. -/
inductive Demand.Like (Q : Value → Value → Prop) : Demand → Demand → Prop
  | done {r t : Except Error Value} (h : Outcome.Both Value.Like r t) : Like Q (.done r) (.done t)
  | right {f g : Value → Except Error Value} (h : ∀ u u', u.Like u' → Q u u' → Outcome.Both Value.Like (f u) (g u')) :
    Like Q (.right f) (.right g)

/-- One value is zero and the other is the other zero. -/
def Value.OppositeZeros (v w : Value) : Prop :=
  ∃ x y, v.content = .number x ∧ w.content = .number y ∧ Number.OppositeZeros x y

/-- A first value is a number that can be told from its opposite. -/
def Value.NonZero (v : Value) : Prop := ∃ x, v.number? = some x ∧ x.isNaN = false ∧ (x == 0) = false

/-- The operator does different things to the operands `v` and `u` and to the operands `w` and `u'`, even if they are alike:
two arrays have a sum and two ranges have none, and a number divided by zero has the sign of the zero. -/
def BinaryOp.TellsApart (op : BinaryOp) (v w u u' : Value) : Prop :=
  op = .add ∧ ¬ ((v.kind = .array ∧ u.kind = .array) ↔ (w.kind = .array ∧ u'.kind = .array)) ∨
    op = .divide ∧ v.NonZero ∧ u.OppositeZeros u'

namespace Value

variable {v w u u' : Value} {Q : Value → Value → Prop}

/-! ### Arithmetic -/

theorem numbers?_rel {R S : Float → Float → Prop} (h : v.Like w) (h' : u.Like u') (hR : Option.Rel R v.number? w.number?)
    (hS : Option.Rel S u.number? u'.number?) :
    Option.Rel (fun p q => R p.1 q.1 ∧ S p.2 q.2) (v.numbers? u) (w.numbers? u') := by
  unfold numbers?
  rw [h.isNumeric_eq, h.isString_eq, h'.isNumeric_eq, h'.isString_eq]
  split
  · generalize v.number? = o at hR ⊢
    generalize w.number? = o' at hR ⊢
    generalize u.number? = p at hS ⊢
    generalize u'.number? = p' at hS ⊢
    cases hR with
    | none => exact .none
    | some hxy =>
      cases hS with
      | none => exact .none
      | some hxy' => exact .some ⟨hxy, hxy'⟩
  · exact .none

/-- Arithmetic, if it gives numbers that are plainly the same. -/
theorem arithmetic_like {f : Float → Float → Float} {R : Float × Float → Float × Float → Prop} (h : v.Like w)
    (h' : u.Like u') (hR : Option.Rel R (v.numbers? u) (w.numbers? u'))
    (hf : ∀ p q, R p q → Number.plain (f p.1 p.2) = Number.plain (f q.1 q.2)) :
    Both Like (v.arithmetic f u) (w.arithmetic f u') := by
  unfold arithmetic
  rw [h.isUndefined_eq, h'.isUndefined_eq]
  split
  · exact .ok like_undefined
  · exact orInvalidOperands_like (Option.Rel.map hR fun p q hpq => like_number (hf p q hpq))

theorem arithmetic_signless {f : Float → Float → Float} (h : v.Like w)
    (hf : ∀ {x x' y y' : Float}, Number.plain x = Number.plain x' → Number.plain y = Number.plain y' →
      Number.plain (f x y) = Number.plain (f x' y')) :
    (Demand.right (v.arithmetic f)).Like Q (.right (w.arithmetic f)) := .right fun _ _ h' _ =>
  arithmetic_like h h' (numbers?_rel h h' h.number?_rel h'.number?_rel) fun _ _ hpq => hf hpq.1 hpq.2

/-- Without opposite zeros, numbers are the same. -/
theorem Like.number?_exact (h : u.Like u') (hzeros : ¬ u.OppositeZeros u') :
    Option.Rel (fun y y' => y.toModel.unpack = y'.toModel.unpack) u.number? u'.number? := by
  obtain @⟨m, n, c, _, halike⟩ := h
  cases halike with
  | alone =>
    have hsame : number? ⟨m, c⟩ = number? ⟨n, c⟩ := rfl
    exact Option.Rel.of_eq (R := fun x y => x.toModel.unpack = y.toModel.unpack) (fun _ => rfl) hsame
  | @number y y' hyy =>
    refine .some ((Number.plainZero_eq_iff.1 (Number.plain_eq.1 hyy)).elim id ?_)
    rintro ⟨s, t, hy, hy'⟩
    by_cases hst : s = t
    · rw [hy, hy', hst]
    · exact absurd ⟨y, y', rfl, rfl, s, t, hst, hy, hy'⟩ hzeros
  | _ => exact .none

/-- A quotient depends on the sign of a zero only if a number that is not zero is divided by it. -/
theorem divide_like (h : v.Like w) (h' : u.Like u') (hzeros : ¬ (v.NonZero ∧ u.OppositeZeros u')) :
    Both Like (v.arithmetic (· / ·) u) (w.arithmetic (· / ·) u') := by
  by_cases hv : v.NonZero
  · have hdivisor := h'.number?_exact fun hu => hzeros ⟨hv, hu⟩
    exact arithmetic_like h h' (numbers?_rel h h' h.number?_rel hdivisor) fun _ _ hpq => Number.plain_div hpq.1 hpq.2
  · have hdividend : Option.Rel (fun x y => Number.plain x = Number.plain y ∧ (x.isNaN = true ∨ (x == 0) = true))
        v.number? w.number? := by
      have hrel := h.number?_rel
      generalize hx : v.number? = o at hrel ⊢
      generalize w.number? = o' at hrel ⊢
      cases hrel with
      | none => exact .none
      | @some x y hxy =>
        refine .some ⟨hxy, ?_⟩
        rw [← Bool.or_eq_true, ← Bool.not_eq_false, Bool.or_eq_false_iff]
        exact fun hnum => hv ⟨x, hx, hnum⟩
    exact arithmetic_like h h' (numbers?_rel h h' hdividend h'.number?_rel) fun _ _ hpq =>
      Number.plain_div_of_zero hpq.1.1 hpq.2 hpq.1.2

/-! ### Sums -/

theorem concatenation?_like (h : v.Like w) (h' : u.Like u')
    (harrays : (v.kind = .array ∧ u.kind = .array) ↔ (w.kind = .array ∧ u'.kind = .array)) :
    Option.Rel Like (v.concatenation? u) (w.concatenation? u') := by
  obtain @⟨_, _, c, _, halike⟩ := h
  obtain @⟨_, _, d, _, halike'⟩ := h'
  cases halike with
  | alone hc =>
    cases c with
    | array => exact absurd rfl hc.1
    | map => exact absurd rfl hc.2
    | string s =>
      cases halike' with
      | alone => cases d <;> first | exact .none | exact .some (like_string _)
      | _ => exact .none
    | _ => exact .none
  | number => exact .none
  | array hvs =>
    cases halike' with
    | alone hd =>
      cases d with
      | array => exact absurd rfl hd.1
      | _ => exact .none
    | array hws => exact .some (.mk (.array (List.rel_append hvs hws)))
    | listed => exact absurd (harrays.1 ⟨rfl, rfl⟩).2 Kind.noConfusion
    | unlisted => exact absurd (harrays.2 ⟨rfl, rfl⟩).2 Kind.noConfusion
    | _ => exact .none
  | map hes hfs hrel =>
    cases halike' with
    | alone hd =>
      cases d with
      | map => exact absurd rfl hd.2
      | _ => exact .none
    | map hes' hfs' hrel' =>
      have hunion := Entries.Matched.union ⟨hes, hfs, hrel⟩ ⟨hes', hfs', hrel'⟩
      exact .some (.mk (.map hunion.left hunion.right hunion.rel))
    | _ => exact .none
  | listed =>
    cases halike' with
    | alone hd =>
      cases d with
      | array => exact absurd rfl hd.1
      | _ => exact .none
    | array | listed => exact absurd (harrays.1 ⟨rfl, rfl⟩).1 Kind.noConfusion
    | _ => exact .none
  | unlisted =>
    cases halike' with
    | alone hd =>
      cases d with
      | array => exact absurd rfl hd.1
      | _ => exact .none
    | array | unlisted => exact absurd (harrays.2 ⟨rfl, rfl⟩).1 Kind.noConfusion
    | _ => exact .none

theorem add_like (h : v.Like w) (h' : u.Like u')
    (harrays : (v.kind = .array ∧ u.kind = .array) ↔ (w.kind = .array ∧ u'.kind = .array)) :
    Both Like (v.add u) (w.add u') := by
  unfold add
  rw [h.isUndefined_eq, h'.isUndefined_eq]
  split
  · exact .ok like_undefined
  · have hnumbers := numbers?_rel h h' h.number?_rel h'.number?_rel
    have hconcatenation := concatenation?_like h h' harrays
    refine orInvalidOperands_like ?_
    generalize v.numbers? u = o at hnumbers ⊢
    generalize w.numbers? u' = o' at hnumbers ⊢
    cases hnumbers with
    | none => exact hconcatenation
    | some hpq => exact .some (like_number (Number.plain_add hpq.1 hpq.2))

/-! ### Other operators -/

theorem bitwise_like (f : Int → Int → Int) (h : v.Like w) :
    (Demand.right (v.bitwise f)).Like Q (.right (w.bitwise f)) := .right fun u u' h' _ => by
  unfold bitwise
  rw [h.isUndefined_eq, h'.isUndefined_eq, h.integer?_eq, h'.integer?_eq]
  split
  · exact .ok like_undefined
  · refine orInvalidOperands_like ?_
    cases w.integer? with
    | none => exact .none
    | some i =>
      cases u'.integer? with
      | none => exact .none
      | some j => exact .some (like_integer _)

theorem comparison_like (test : Ordering → Bool) (h : v.Like w) :
    (Demand.right (v.comparison test)).Like Q (.right (w.comparison test)) := .right fun u u' h' _ => by
  refine (h.compare h').bind ?_
  rintro o _ rfl
  exact .ok (like_boolean _)

theorem rangeTo_like (h : v.Like w) : (Demand.right v.rangeTo).Like Q (.right w.rangeTo) := .right fun u u' h' _ => by
  unfold rangeTo
  rw [h.isUndefined_eq, h'.isUndefined_eq]
  split
  · exact .ok like_undefined
  · refine h.toInteger_both.bind ?_
    rintro i _ rfl
    refine h'.toInteger_both.bind ?_
    rintro j _ rfl
    exact .ok (like_range _)

theorem logical_like (decisive : Bool) (h : v.Like w) : (v.logical decisive).Like Q (w.logical decisive) := by
  unfold logical
  rw [h.isUndefined_eq, h.isLogical_eq, h.boolean?_eq]
  split
  · exact .done (.ok like_undefined)
  · split
    · exact .done (.ok (like_boolean _))
    · refine .right fun u u' h' _ => ?_
      rw [h'.isLogical_eq, h'.boolean?_eq, h'.isUndefined_eq]
      split
      · exact .ok (like_boolean _)
      · split
        · exact .ok like_undefined
        · exact .error _ _

theorem guarded_like (h : v.Like w) : v.guarded.Like Q w.guarded := by
  have hboolean := h.toBoolean_both
  unfold guarded
  rw [h.isUndefined_eq]
  split
  · exact .done (.ok like_undefined)
  · generalize v.toBoolean = r at hboolean ⊢
    generalize w.toBoolean = t at hboolean ⊢
    cases hboolean with
    | error => exact .done (.error _ _)
    | @ok b _ hb =>
      obtain rfl := hb
      cases b with
      | false => exact .done (.ok like_undefined)
      | true => exact .right fun _ _ h' _ => .ok h'

end Value

open Value

/-- An operator does the same to operands that are alike, unless it tells them apart. -/
theorem BinaryOp.afterLeft_like (op : BinaryOp) {v w : Value} (h : v.Like w) :
    (op.afterLeft v).Like (fun u u' => ¬ op.TellsApart v w u u') (op.afterLeft w) := by
  cases op with
  | add => exact .right fun _ _ h' hnot => add_like h h' (not_not.1 fun harrays => hnot (.inl ⟨rfl, harrays⟩))
  | divide => exact .right fun _ _ h' hnot => divide_like h h' fun hzeros => hnot (.inr ⟨rfl, hzeros⟩)
  | subtract => exact arithmetic_signless h Number.plain_sub
  | multiply => exact arithmetic_signless h Number.plain_mul
  | modulo => exact arithmetic_signless h Number.plain_remainder
  | and | or => exact logical_like _ h
  | bitAnd | bitXor | bitOr | shiftLeft | shiftRight => exact bitwise_like _ h
  | range => exact rangeTo_like h
  | guarded => exact guarded_like h
  | _ => exact comparison_like _ h

/-! ## Items -/

namespace Value

variable {v w u u' : Value}

theorem splice_like (h : v.Like w) (hkind : v.kind = w.kind) : Both (List.Forall₂ Like) v.splice w.splice := by
  unfold splice
  rw [hkind]
  split
  · obtain @⟨m, n, c, _, halike⟩ := h
    cases halike with
    | alone =>
      cases c with
      | range r =>
        cases r with
        | between first last =>
          refine .ok (List.forall₂_same.2 fun u hu => ?_)
          obtain ⟨i, -, rfl⟩ := List.mem_map.1 hu
          exact like_integer i
        | _ => exact .error _ _
      | _ => contradiction
    | listed | unlisted => exact nomatch hkind
    | _ => contradiction
  · exact .ok (.cons h .nil)

/-! ## Subscripts -/

theorem positionsOf_both {size : Nat} {vs ws : List Value}
    (h : List.Forall₂ (fun v w => Both (· = ·) (v.positions size) (w.positions size)) vs ws) :
    Both (· = ·) (positionsOf size vs) (positionsOf size ws) := by
  induction h with
  | nil => exact .refl _
  | cons hv _ ih =>
    refine hv.bind ?_
    rintro ps _ rfl
    exact ih.map _

/-- The positions of a range are those of its integers, as long as they are positions of numbers. -/
theorem positions_between {size : Nat} (hsize : size < 2 ^ 53) (m : Option Nat) (first last : Int) :
    positions size ⟨m, .range (.between first last)⟩ = positionsOf size (integers first last) := by
  rw [integers, positionsOf_integers fun i _ => Number.position?_ofInteger hsize i]
  rfl

/-- Indices that are alike select the same positions. -/
theorem positions_like {size : Nat} (hsize : size < 2 ^ 53) (h : v.Like w) :
    Both (· = ·) (v.positions size) (w.positions size) := by
  refine Like.induct (P := fun v w => Both (· = ·) (v.positions size) (w.positions size)) (fun {m n c d} halike => ?_) h
  have hitems : ∀ {vs ws : List Value},
      List.Forall₂ (fun v w => v.Like w ∧ Both (· = ·) (v.positions size) (w.positions size)) vs ws →
      Both (· = ·) (positionsOf size vs) (positionsOf size ws) := fun h => positionsOf_both (h.imp fun _ _ h => h.2)
  cases halike with
  | alone hc =>
    rw [← positions_bare, bare_of_partless hc, positions_bare]
    exact .refl _
  | @number x y hxy =>
    have hinteger : Both (· = ·) (toInteger ⟨m, .number x⟩) (toInteger ⟨n, .number y⟩) :=
      (Like.mk (.number hxy) : Like ⟨m, .number x⟩ ⟨n, .number y⟩).toInteger_both
    exact hinteger.map fun i => [position? size i]
  | map => exact .error _ _
  | array hvs => exact hitems hvs
  | listed _ hvs =>
    rw [positions_between hsize]
    exact hitems hvs
  | unlisted _ hvs =>
    rw [positions_between hsize]
    exact hitems hvs

section

variable {O O' : Value → Option Location}

/-- The entries under keys that are alike. -/
theorem submap_like {es fs : Entries Value} (hentries : Entries.Matched Like es fs) {keys keys' : List Value}
    (hkeys : List.Forall₂ Like keys keys') {found found' : Entries Value} (hfound : Entries.Matched Like found found') :
    Both (Entries.Matched Like) (submap O es keys found) (submap O' fs keys' found') := by
  induction hkeys generalizing found found' with
  | nil => exact .ok hfound
  | @cons key key' keys keys' hkey _ ih =>
    obtain @⟨m, n, c, _, halike⟩ := hkey
    cases halike with
    | alone hc =>
      cases c with
      | string k =>
        have hentry := hentries.rel k
        dsimp only [submap, content]
        generalize Entries.find? es k = o at hentry ⊢
        generalize Entries.find? fs k = o' at hentry ⊢
        cases hentry with
        | some h => exact ih (hfound.insert k h)
        | none => exact ih hfound
      | _ => exact .error _ _
    | _ => exact .error _ _

/-- A number is no key. -/
theorem submap_number {es found : Entries Value} {key : Value} {keys : List Value} (h : key.kind = .number) :
    ∃ e, submap O es (key :: keys) found = .error e := by
  obtain ⟨m, c⟩ := key
  cases c with
  | number x => exact ⟨_, rfl⟩
  | _ => cases h

section

variable (hu : u.Like u')

include hu

theorem Like.toInteger_bind {k k' : Int → Except Error Value} (hk : ∀ i, Both Like (k i) (k' i)) :
    Both Like (u.toInteger >>= k) (u'.toInteger >>= k') :=
  hu.toInteger_both.bind fun i _ hi => hi ▸ hk i

theorem Like.positions_bind {size size' : Nat} (hsize : size < 2 ^ 53) (heq : size = size')
    {k k' : List (Option Nat) → Except Error Value} (hk : ∀ ps, Both Like (k ps) (k' ps)) :
    Both Like (u.positions size >>= k) (u'.positions size' >>= k') :=
  heq ▸ (positions_like hsize hu).bind fun ps _ hps => hps ▸ hk ps

end

theorem subscript_string_like {m n : Option Nat} {s : String} (hsize : s.length < 2 ^ 53) (hu : u.Like u') :
    Both Like (subscript O ⟨m, .string s⟩ u) (subscript O' ⟨n, .string s⟩ u') := by
  have hsingle : u.Single → u'.Single → Both Like (subscript O ⟨m, .string s⟩ u) (subscript O' ⟨n, .string s⟩ u') := by
    intro h h'
    rw [subscript_string_single h, subscript_string_single h']
    refine hu.toInteger_bind fun i => elim_related (Option.Rel.of_eq (fun _ => rfl) rfl) (.error _ _) ?_
    rintro c _ rfl
    exact .ok (like_string _)
  have hplural : Both Like _ _ := hu.positions_bind (show s.toList.length < 2 ^ 53 from hsize) rfl fun ps =>
    .ok (like_string (String.ofList (ps.filterMap (pick? s.toList))))
  obtain @⟨_, _, d, _, halike⟩ := hu
  cases halike with
  | alone hd =>
    cases d with
    | boolean => exact hsingle (.inl rfl) (.inl rfl)
    | number => exact hsingle (.inr rfl) (.inr rfl)
    | range => exact hplural
    | array => exact absurd rfl hd.1
    | _ => exact .error _ _
  | number => exact hsingle (.inr rfl) (.inr rfl)
  | array | listed | unlisted => exact hplural
  | map => exact .error _ _

theorem subscript_array_like {m n : Option Nat} {vs ws : List Value} (hvs : List.Forall₂ Like vs ws)
    (hsize : vs.length < 2 ^ 53) (hu : u.Like u') :
    Both Like (subscript O ⟨m, .array vs⟩ u) (subscript O' ⟨n, .array ws⟩ u') := by
  have hsingle : u.Single → u'.Single → Both Like (subscript O ⟨m, .array vs⟩ u) (subscript O' ⟨n, .array ws⟩ u') := by
    intro h h'
    rw [subscript_array_single h, subscript_array_single h', ← hvs.length_eq]
    exact hu.toInteger_bind fun i => elim_related (pick?_related hvs _) (.error _ _) fun _ _ => .ok
  have hplural : u.Plural → u'.Plural → Both Like (subscript O ⟨m, .array vs⟩ u) (subscript O' ⟨n, .array ws⟩ u') := by
    intro h h'
    rw [subscript_array_plural h, subscript_array_plural h']
    refine hu.positions_bind hsize hvs.length_eq fun ps => elim_related (mapM_pick?_related hvs ps) (.error _ _) ?_
    exact fun _ _ h => .ok (.mk (.array h))
  obtain @⟨_, _, d, _, halike⟩ := hu
  cases halike with
  | alone hd =>
    cases d with
    | boolean => exact hsingle (.inl rfl) (.inl rfl)
    | number => exact hsingle (.inr rfl) (.inr rfl)
    | range => exact hplural (.inr rfl) (.inr rfl)
    | array => exact absurd rfl hd.1
    | _ => exact .error _ _
  | number => exact hsingle (.inr rfl) (.inr rfl)
  | array => exact hplural (.inl rfl) (.inl rfl)
  | listed => exact hplural (.inl rfl) (.inr rfl)
  | unlisted => exact hplural (.inr rfl) (.inl rfl)
  | map => exact .error _ _

theorem Like.kind_eq_number {i : Int} (h : v.Like (integer i) ∨ (integer i).Like v) : v.kind = .number := by
  rcases h with h | h <;> obtain @⟨_, _, _, _, halike⟩ := h <;> cases halike <;> rfl

theorem subscript_map_like {m n : Option Nat} {es fs : Entries Value} (hentries : Entries.Matched Like es fs)
    (hu : u.Like u') : Both Like (subscript O ⟨m, .map es⟩ u) (subscript O' ⟨n, .map fs⟩ u') := by
  obtain @⟨k, _, d, _, halike⟩ := hu
  cases halike with
  | alone hd =>
    cases d with
    | string k =>
      show Both Like (.ok ((Entries.find? es k).getD undefined)) (.ok ((Entries.find? fs k).getD undefined))
      have hentry := hentries.rel k
      generalize Entries.find? es k = o at hentry ⊢
      generalize Entries.find? fs k = o' at hentry ⊢
      cases hentry with
      | some h => exact .ok h
      | none => exact .ok like_undefined
    | array => exact absurd rfl hd.1
    | _ => exact .error _ _
  | array hkeys =>
    refine (submap_like hentries hkeys .nil).bind fun gs gs' hgs => ?_
    exact .ok (.mk (.map hgs.left hgs.right hgs.rel))
  | @listed first last keys _ hkeys =>
    -- a range is no list of keys, and the first of its integers is no key
    obtain ⟨i, is, hintegers⟩ := integers_ne_nil first last
    rw [hintegers] at hkeys
    cases hkeys with
    | @cons key _ keys _ hkey _ =>
      have hfails : ∃ e, submap O es (key :: keys) [] = .error e := submap_number (Like.kind_eq_number (.inl hkey))
      obtain ⟨e, he⟩ := hfails
      show Both Like (submap O es _ [] >>= _) _
      rw [he]
      exact .error _ _
  | @unlisted first last keys _ hkeys =>
    obtain ⟨i, is, hintegers⟩ := integers_ne_nil first last
    rw [hintegers] at hkeys
    cases hkeys with
    | @cons _ key _ keys hkey _ =>
      have hfails : ∃ e, submap O' fs (key :: keys) [] = .error e := submap_number (Like.kind_eq_number (.inr hkey))
      obtain ⟨e, he⟩ := hfails
      show Both Like _ (submap O' fs _ [] >>= _)
      rw [he]
      exact .error _ _
  | _ => exact .error _ _

/-- Subscripts of values that are alike and of one kind, and that have no more positions than there are numbers for. -/
theorem subscript_like (hv : v.Like w) (hu : u.Like u') (hkind : v.kind = w.kind) (hsize : v.length < 2 ^ 53) :
    Both Like (v.subscript O u) (w.subscript O' u') := by
  obtain @⟨_, _, c, _, halike⟩ := hv
  cases halike with
  | alone hc =>
    cases c with
    | array => exact absurd rfl hc.1
    | map => exact absurd rfl hc.2
    | string s => exact subscript_string_like hsize hu
    | _ => exact .error _ _
  | number => exact .error _ _
  | array hvs => exact subscript_array_like hvs hsize hu
  | map hes hfs hrel => exact subscript_map_like ⟨hes, hfs, hrel⟩ hu
  | listed | unlisted => exact nomatch hkind

end

end Value

end ExprLang
