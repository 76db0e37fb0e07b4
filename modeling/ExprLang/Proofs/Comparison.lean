import ExprLang.Proofs.Denotation
import ExprLang.Proofs.Number.Order
import ExprLang.Proofs.Ranges

/-!
# Comparison from both sides

Comparing two values from the other side gives the reversed order, or fails as well. There is one
exception: null and undefined are each less than the other. It counts wherever a pair of them is what
decides a comparison (`Value.clashes`): as the first items, or the values under the first keys, in
which two arrays or maps differ.

* `Mirrored.andThen`: a part that is compared before the rest.
* `Value.compareLeaves_mirrored`, `Value.compareSorted_mirrored`: values without parts, and all others.
* `Value.compare_swap`: the orders of two values, and of expressions with these values.
* `Value.Without.both_swap`: values in which one of the two does not occur.
-/

namespace ExprLang

/-! ## The exception -/

/-- Whether the outcome of a comparison is that neither side is less. -/
def Outcome.isTie : Except Error Ordering → Bool
  | .ok .eq => true
  | _ => false

/-- One is null and the other is undefined. -/
def Value.clashesAlone (v w : Value) : Bool := v.isNull && w.isUndefined || v.isUndefined && w.isNull

mutual

/-- Whether the first parts in which two values differ are null and undefined, if the maps in them are in the order of
their keys. -/
def Value.clashesSorted : Value → Value → Bool
  | ⟨_, .array l⟩, ⟨_, .array r⟩ => clashItems l r
  | ⟨_, .map l⟩, ⟨_, .map r⟩ => clashEntries l r
  | v, w => v.clashesAlone w

def clashItems : List Value → List Value → Bool
  | v :: vs, w :: ws => if Outcome.isTie (v.compareSorted w) then clashItems vs ws else v.clashesSorted w
  | _, _ => false

def clashEntries : List (String × Value) → List (String × Value) → Bool
  | (k, v) :: es, (l, w) :: fs => compare k l == .eq &&
      if Outcome.isTie (v.compareSorted w) then clashEntries es fs else v.clashesSorted w
  | _, _ => false

end

/-- Whether the first parts in which two values differ are null and undefined. -/
def Value.clashes (v w : Value) : Bool := v.sortKeys.clashesSorted w.sortKeys

/-- What becomes of comparing from one side and from the other. -/
def Mirrored (clash : Bool) (r t : Except Error Ordering) : Prop :=
  if clash = true then r = .ok .lt ∧ t = .ok .lt else Outcome.Both (fun o p => p = o.swap) r t

namespace Mirrored

variable {c d : Bool} {r t r' t' : Except Error Ordering}

theorem refl_eq : Mirrored false (.ok .eq) (.ok .eq) := .ok rfl

theorem lt_gt : Mirrored false (.ok .lt) (.ok .gt) := .ok rfl

theorem gt_lt : Mirrored false (.ok .gt) (.ok .lt) := .ok rfl

theorem clash : Mirrored true (.ok .lt) (.ok .lt) := ⟨rfl, rfl⟩

theorem error (e e' : Error) : Mirrored false (.error e) (.error e') := Outcome.Both.error e e'

theorem symm (h : Mirrored c r t) : Mirrored c t r := by
  cases c with
  | true => exact ⟨h.2, h.1⟩
  | false =>
    have hboth : Outcome.Both _ r t := h
    cases hboth with
    | ok hswap =>
      refine Outcome.Both.ok ?_
      rw [hswap, Ordering.swap_swap]
    | error e e' => exact error e' e

/-- What is compared second only counts if the first is a tie, and then it is a tie from both sides. -/
theorem andThen (h : Mirrored c r t) (h' : Mirrored d r' t') :
    Mirrored (if Outcome.isTie r then d else c)
      (r >>= fun | .eq => r' | o => pure o) (t >>= fun | .eq => t' | o => pure o) := by
  cases c with
  | true =>
    obtain ⟨rfl, rfl⟩ := h
    exact clash
  | false =>
    have hboth : Outcome.Both _ r t := h
    cases hboth with
    | error e e' => exact error e e'
    | @ok o p hswap =>
      subst hswap
      cases o with
      | lt => exact lt_gt
      | eq => exact h'
      | gt => exact gt_lt

end Mirrored

namespace Value

/-! ## Values without parts -/

theorem both_swapped {α : Type} {f : α → α → Ordering} (hf : ∀ a b, f b a = (f a b).swap) (x y : Except Error α) :
    Mirrored false (do return f (← x) (← y)) (do return f (← y) (← x)) := by
  cases x with
  | error e => cases y <;> exact .error _ _
  | ok a =>
    cases y with
    | error e => exact .error _ _
    | ok b => exact Outcome.Both.ok (hf a b)

theorem compareScalars_mirrored {v w : Value} (hv : v.isScalar = true) (hw : w.isScalar = true) :
    Mirrored false (v.compareScalars w) (w.compareScalars v) := by
  have hbooleans := both_swapped (f := Ord.compare) (fun _ _ => Std.OrientedCmp.eq_swap) v.toBoolean w.toBoolean
  have hnumbers := both_swapped Number.order_swap v.toNumber w.toNumber
  obtain ⟨m, c⟩ := v
  obtain ⟨n, d⟩ := w
  cases c with
  | boolean b =>
    cases d with
    | boolean | string | number => exact hbooleans
    | _ => cases hw
  | string s =>
    cases d with
    | boolean => exact hbooleans
    | string t => exact Outcome.Both.ok Std.OrientedCmp.eq_swap
    | number => exact hnumbers
    | _ => cases hw
  | number x =>
    cases d with
    | boolean => exact hbooleans
    | string | number => exact hnumbers
    | _ => cases hw
  | _ => cases hv

theorem compareLeaves_mirrored (v w : Value) : Mirrored (v.clashesAlone w) (v.compareLeaves w) (w.compareLeaves v) := by
  have hscalars := @compareScalars_mirrored v w
  obtain ⟨m, c⟩ := v
  obtain ⟨n, d⟩ := w
  cases c with
  | null =>
    cases d with
    | null => exact .refl_eq
    | undefined => exact .clash
    | _ => exact .lt_gt
  | undefined =>
    cases d with
    | null => exact .clash
    | undefined => exact .refl_eq
    | _ => exact .lt_gt
  | boolean | string | number =>
    cases d with
    | null | undefined => exact .gt_lt
    | boolean | string | number => exact hscalars rfl rfl
    | _ => exact .error _ _
  | _ =>
    cases d with
    | null | undefined => exact .gt_lt
    | _ => exact .error _ _

/-! ## Values with parts -/

theorem meets_comm (v w : Value) : v.meets w = w.meets v := by
  rw [meets, meets, Bool.and_comm v.isRun, Bool.and_comm (v.kind == .map)]

theorem clashesSorted_of_not_meets {v w : Value} (h : v.meets w = false) : v.clashesSorted w = v.clashesAlone w := by
  unfold clashesSorted
  split
  case h_3 => rfl
  all_goals simp [meets, isRun, kind, content] at h

theorem compareSorted_mirrored_of_not_meets {v w : Value} (h : v.meets w = false) :
    Mirrored (v.clashesSorted w) (v.compareSorted w) (w.compareSorted v) := by
  have h' : w.meets v = false := by rw [meets_comm, h]
  rw [clashesSorted_of_not_meets h, compareSorted_of_not_meets h, compareSorted_of_not_meets h']
  exact compareLeaves_mirrored v w

/-- Integers clash with nothing. -/
theorem lexicographic_mirrored (is : List Int) (vs : List Value) :
    Mirrored false (lexicographic compareLeaves (is.map integer) vs) (lexicographic compareLeaves vs (is.map integer)) := by
  induction is generalizing vs with
  | nil =>
    cases vs with
    | nil => exact .refl_eq
    | cons v vs => exact .lt_gt
  | cons i is ih =>
    cases vs with
    | nil => exact .gt_lt
    | cons v vs =>
      have hfirst := (compareLeaves_mirrored (integer i) v).andThen (ih vs)
      have hclash : (integer i).clashesAlone v = false := rfl
      rw [hclash, ite_self] at hfirst
      exact hfirst

theorem compareItems_integers_right (vs : List Value) (is : List Int) :
    compareItems vs (is.map integer) = lexicographic compareLeaves vs (is.map integer) := by
  induction vs generalizing is with
  | nil => cases is <;> rfl
  | cons v vs ih =>
    cases is with
    | nil => rfl
    | cons i is =>
      have hleaves : v.compareSorted (integer i) = v.compareLeaves (integer i) :=
        compareSorted_of_not_meets (by rw [meets_comm]; rfl)
      rw [List.map_cons, compareItems, lexicographic, hleaves, ih]

/-- A range meets an array, or another range. -/
theorem compareSorted_mirrored_range {m : Option Nat} {a b : Int} {w : Value} :
    Mirrored ((⟨m, .range (.between a b)⟩ : Value).clashesSorted w) (compareSorted ⟨m, .range (.between a b)⟩ w)
      (w.compareSorted ⟨m, .range (.between a b)⟩) := by
  obtain ⟨n, d⟩ := w
  cases d with
  | array vs =>
    show Mirrored false (lexicographic compareLeaves (integers a b) vs) (compareItems vs (integers a b))
    rw [integers, compareItems_integers_right]
    exact lexicographic_mirrored _ vs
  | range s =>
    cases s with
    | between a' b' => exact lexicographic_mirrored _ _
    | _ => exact compareSorted_mirrored_of_not_meets rfl
  | _ => exact compareSorted_mirrored_of_not_meets rfl

end Value

mutual

theorem Value.compareSorted_mirrored : ∀ v w : Value,
    Mirrored (v.clashesSorted w) (v.compareSorted w) (w.compareSorted v)
  | ⟨_, .array l⟩, ⟨_, d⟩ => by
    cases d with
    | array r => exact compareItems_mirrored l r
    | range s =>
      cases s with
      | between a b => exact (Value.compareSorted_mirrored_range (w := ⟨_, .array l⟩)).symm
      | _ => exact Value.compareSorted_mirrored_of_not_meets rfl
    | _ => exact Value.compareSorted_mirrored_of_not_meets rfl
  | ⟨_, .map l⟩, ⟨_, d⟩ => by
    cases d with
    | map r => exact compareEntries_mirrored l r
    | _ => exact Value.compareSorted_mirrored_of_not_meets rfl
  | ⟨_, .range r⟩, w => by
    cases r with
    | between a b => exact Value.compareSorted_mirrored_range
    | _ => exact Value.compareSorted_mirrored_of_not_meets rfl
  | ⟨_, .boolean _⟩, _ | ⟨_, .string _⟩, _ | ⟨_, .number _⟩, _ | ⟨_, .null⟩, _ | ⟨_, .undefined⟩, _ =>
    Value.compareSorted_mirrored_of_not_meets rfl

theorem compareItems_mirrored : ∀ vs ws : List Value,
    Mirrored (clashItems vs ws) (compareItems vs ws) (compareItems ws vs)
  | [], [] => .refl_eq
  | [], _ :: _ => .lt_gt
  | _ :: _, [] => .gt_lt
  | v :: vs, w :: ws => (Value.compareSorted_mirrored v w).andThen (compareItems_mirrored vs ws)

theorem compareEntries_mirrored : ∀ es fs : List (String × Value),
    Mirrored (clashEntries es fs) (compareEntries es fs) (compareEntries fs es)
  | [], [] => .refl_eq
  | [], _ :: _ => .lt_gt
  | _ :: _, [] => .gt_lt
  | (k, v) :: es, (l, w) :: fs => by
    have hfirst := (Value.compareSorted_mirrored v w).andThen (compareEntries_mirrored es fs)
    have hkeys : compare l k = (compare k l).swap := Std.OrientedCmp.eq_swap
    rw [clashEntries, compareEntries, compareEntries, hkeys]
    cases compare k l with
    | lt => exact .lt_gt
    | eq => exact hfirst
    | gt => exact .gt_lt

end

/-! ## The operator -/

namespace Expr

/-- Evaluation gives a value, up to marks. -/
def Gives (e : Expr) (c : Context) (v : Value) : Prop := (e.evaluate c).1.map Value.bare = .ok v.bare

variable {e f : Expr} {c : Context} {v w : Value}

theorem gives_iff : e.Gives c v ↔ e.denote .strict c.store.values = .ok v.bare := by
  obtain ⟨-, hagrees⟩ := run_yields .strict c.store e c rfl
  have houtcome : (e.evaluate c).1 = (e.run .strict c).1 := rfl
  rw [Gives, houtcome]
  generalize (e.run .strict c).1 = r at hagrees
  generalize e.denote .strict c.store.values = t at hagrees
  cases hagrees with
  | ok a => exact ⟨fun h => h, fun h => h⟩
  | error h => constructor <;> rintro ⟨⟩

theorem gives_less {l : Option Location} (he : e.Gives c v) (hf : f.Gives c w) :
    (binary l .less e f).Gives c (.boolean true) ↔ v.compare w = .ok .lt := by
  rw [gives_iff] at *
  have hdenote : (binary l .less e f).denote .strict c.store.values =
      settled .strict (v.bare.comparison Ordering.isLT w.bare) := by
    rw [denote, he, hf]
    rfl
  rw [hdenote, Value.comparison, Value.compare_bare]
  cases v.compare w with
  | error err => constructor <;> rintro ⟨⟩
  | ok o =>
    have hsettled : settled .strict ((Value.boolean ∘ Ordering.isLT) <$> Except.ok o) = .ok (.boolean o.isLT) := rfl
    rw [hsettled]
    cases o <;> simp [Value.boolean, Value.new, Value.bare]

end Expr

/-- From the other side two values have the reversed order or none either, unless null and undefined decide: then each is
less than the other. So of two expressions with these values each is less than the other in that case only. -/
theorem Value.compare_swap (v w : Value) :
    (if v.clashes w = true then v.compare w = .ok .lt ∧ w.compare v = .ok .lt
      else Outcome.Both (fun o p => p = o.swap) (v.compare w) (w.compare v)) ∧
    ∀ (e f : Expr) (c : Context) (l l' : Option Location), e.Gives c v → f.Gives c w →
      ((Expr.binary l .less e f).Gives c (.boolean true) ∧ (Expr.binary l' .less f e).Gives c (.boolean true) ↔
        v.clashes w = true) := by
  have hmirrored : Mirrored (v.clashes w) (v.compare w) (w.compare v) := compareSorted_mirrored _ _
  refine ⟨hmirrored, fun e f c l l' he hf => ?_⟩
  rw [Expr.gives_less he hf, Expr.gives_less hf he]
  cases hclash : v.clashes w with
  | true =>
    rw [hclash] at hmirrored
    exact ⟨fun _ => rfl, fun _ => hmirrored⟩
  | false =>
    rw [hclash] at hmirrored
    refine ⟨fun ⟨hvw, hwv⟩ => ?_, fun h => by cases h⟩
    rw [hvw, hwv] at hmirrored
    have hboth : Outcome.Both (fun o p => p = Ordering.swap o) (.ok .lt) (.ok .lt) := hmirrored
    cases hboth with
    | ok h => cases h

/-- Null and undefined are each less than the other. -/
theorem Value.compare_swap_null_undefined :
    ¬ Outcome.Both (fun o p => p = Ordering.swap o) (Value.null.compare .undefined) (Value.undefined.compare .null) := by
  intro h
  have hboth : Outcome.Both (fun o p => p = Ordering.swap o) (.ok .lt) (.ok .lt) := h
  cases hboth with
  | ok h => cases h

/-! ## Sorting -/

theorem Value.kind_sortKeys (v : Value) : v.sortKeys.kind = v.kind := by
  obtain ⟨m, c⟩ := v
  cases c <;> rfl

theorem Value.Each.root {P : Value → Prop} {v : Value} (h : v.Each P) : P v := by
  obtain ⟨m, c⟩ := v
  cases c with
  | array | map => exact h.1
  | _ => exact h

mutual

/-- What parts have in common does not depend on the order of entries. -/
theorem Value.Each.sortKeys {P : Value → Prop} (hP : ∀ v, P v → P v.sortKeys) : ∀ {v : Value}, v.Each P →
    v.sortKeys.Each P
  | ⟨_, .array _⟩, h => ⟨hP _ h.1, EachItem.sortKeys hP h.2⟩
  | ⟨_, .map _⟩, h => Value.each_map.2 ⟨hP _ h.1, fun f hf => EachEntry.sortKeys hP h.2 f (List.mem_mergeSort.1 hf)⟩
  | ⟨_, .boolean _⟩, h | ⟨_, .string _⟩, h | ⟨_, .number _⟩, h | ⟨_, .range _⟩, h | ⟨_, .null⟩, h
  | ⟨_, .undefined⟩, h => h

theorem EachItem.sortKeys {P : Value → Prop} (hP : ∀ v, P v → P v.sortKeys) : ∀ {vs : List Value}, EachItem P vs →
    EachItem P (sortKeysItems vs)
  | [], _ => trivial
  | _ :: _, h => ⟨Value.Each.sortKeys hP h.1, EachItem.sortKeys hP h.2⟩

theorem EachEntry.sortKeys {P : Value → Prop} (hP : ∀ v, P v → P v.sortKeys) : ∀ {es : List (String × Value)},
    EachEntry P es → ∀ f ∈ sortKeysEntries es, f.2.Each P
  | [], _ => fun _ h => absurd h List.not_mem_nil
  | (_, _) :: _, h => List.forall_mem_cons.2 ⟨Value.Each.sortKeys hP h.1, EachEntry.sortKeys hP h.2⟩

end

/-! ## Values without the exception -/

/-- A kind that does not occur in a value. -/
def Value.Without (k : Kind) (v : Value) : Prop := v.Each fun u => u.kind ≠ k

variable {k : Kind}

theorem Value.Without.sortKeys {v : Value} (h : v.Without k) : v.sortKeys.Without k :=
  Value.Each.sortKeys (fun u hu => by rw [kind_sortKeys]; exact hu) h

theorem Value.clashesAlone_of_without {v w : Value} (hk : k = .null ∨ k = .undefined) (hv : v.Without k)
    (hw : w.Without k) : v.clashesAlone w = false := by
  have hv := hv.root
  have hw := hw.root
  rcases hk with rfl | rfl <;> simp [clashesAlone, isNull, isUndefined, hv, hw]

mutual

theorem Value.clashesSorted_of_without (hk : k = .null ∨ k = .undefined) : ∀ {v w : Value}, v.Without k → w.Without k →
    v.clashesSorted w = false
  | ⟨_, .array l⟩, ⟨_, d⟩, hv, hw => by
    cases d with
    | array r => exact clashItems_of_without hk hv.2 hw.2
    | _ => rfl
  | ⟨_, .map l⟩, ⟨_, d⟩, hv, hw => by
    cases d with
    | map r => exact clashEntries_of_without hk hv.2 hw.2
    | _ => rfl
  | ⟨_, .boolean _⟩, _, hv, hw | ⟨_, .string _⟩, _, hv, hw | ⟨_, .number _⟩, _, hv, hw | ⟨_, .range _⟩, _, hv, hw
  | ⟨_, .null⟩, _, hv, hw | ⟨_, .undefined⟩, _, hv, hw => Value.clashesAlone_of_without hk hv hw

theorem clashItems_of_without (hk : k = .null ∨ k = .undefined) : ∀ {vs ws : List Value}, EachItem (·.kind ≠ k) vs →
    EachItem (·.kind ≠ k) ws → clashItems vs ws = false
  | [], _, _, _ | _ :: _, [], _, _ => rfl
  | v :: vs, w :: ws, hv, hw => by
    rw [clashItems, Value.clashesSorted_of_without hk hv.1 hw.1, clashItems_of_without hk hv.2 hw.2, ite_self]

theorem clashEntries_of_without (hk : k = .null ∨ k = .undefined) : ∀ {es fs : List (String × Value)},
    EachEntry (·.kind ≠ k) es → EachEntry (·.kind ≠ k) fs → clashEntries es fs = false
  | [], _, _, _ | _ :: _, [], _, _ => rfl
  | (k, v) :: es, (l, w) :: fs, hv, hw => by
    rw [clashEntries, Value.clashesSorted_of_without hk hv.1 hw.1, clashEntries_of_without hk hv.2 hw.2, ite_self,
      Bool.and_false]

end

/-- Where null does not occur, or undefined does not, comparison from the other side gives the reversed order. -/
theorem Value.Without.both_swap {v w : Value} (hk : k = .null ∨ k = .undefined) (hv : v.Without k) (hw : w.Without k) :
    Outcome.Both (fun o p => p = o.swap) (v.compare w) (w.compare v) := by
  have hmirrored : Mirrored (v.clashes w) (v.compare w) (w.compare v) := compareSorted_mirrored _ _
  rw [clashes, clashesSorted_of_without hk hv.sortKeys hw.sortKeys] at hmirrored
  exact hmirrored

end ExprLang
