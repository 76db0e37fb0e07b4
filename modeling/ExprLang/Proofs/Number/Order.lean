import ExprLang.Number.Integer
import ExprLang.Value.Compare

/-!
# The order of numbers

Numbers are ordered by sign, exponent and significand; the two zeros are equal, and not-a-number is
neither less nor greater than any number.

* `unpacked_compare_swap`: the order of two numbers seen from the other one.
* `order_swap`, `beq_comm`: so the order of values and equality do not depend on the side either.
* `order_eq`: the order of values is that of numbers, and equality where numbers have none.
* `order_eq_comparePlaces`: other numbers have places in one row, so their order is transitive.
* `plainZero_eq_of_compare`: only the two zeros are equal and not the same.
* `truncate_eq_of_beq`: equal numbers have the same integer.
-/

namespace ExprLang.Number

open Float.Model (UnpackedFloat)
open Float.Model.UnpackedFloat (Sign)

/-- Exponents come before significands, from both sides. -/
theorem compare_parts_swap (e f : Int) (m n : Nat) :
    (compare f e).then (compare n m) = ((compare e f).then (compare m n)).swap := by
  rw [Ordering.swap_then, ← Std.OrientedCmp.eq_swap, ← Std.OrientedCmp.eq_swap]

theorem unpacked_compare_swap (u v : UnpackedFloat) : v.compare u = (u.compare v).map Ordering.swap := by
  cases u with
  | notANumber => cases v <;> rfl
  | infinity s =>
    cases v with
    | infinity t => cases s <;> cases t <;> rfl
    | _ => cases s <;> rfl
  | zero s =>
    cases v with
    | notANumber | zero => rfl
    | infinity t => cases t <;> rfl
    | finite t n f _ => cases t <;> rfl
  | finite s m e _ =>
    cases v with
    | notANumber => cases s <;> rfl
    | zero => cases s <;> rfl
    | infinity t => cases s <;> cases t <;> rfl
    | finite t n f _ =>
      have hparts := compare_parts_swap e f m n
      cases s <;> cases t
      · exact congrArg (fun o => some (Ordering.swap o)) hparts
      · rfl
      · rfl
      · exact congrArg some hparts

theorem beq_comm (x y : Float) : (x == y) = (y == x) := by
  show (x.toModel.unpack.compare y.toModel.unpack == some .eq) = (y.toModel.unpack.compare x.toModel.unpack == some .eq)
  rw [unpacked_compare_swap y.toModel.unpack]
  cases y.toModel.unpack.compare x.toModel.unpack with
  | none => rfl
  | some o => cases o <;> rfl

theorem lt_iff {x y : Float} : x < y ↔ x.toModel.unpack.compare y.toModel.unpack = some .lt := by
  show (decide ((x.toModel.unpack.compare y.toModel.unpack == some .lt) = true) = true) ↔ _
  rw [decide_eq_true_iff, beq_iff_eq]

theorem order_swap (x y : Float) : order y x = (order x y).swap := by
  have hswap := unpacked_compare_swap x.toModel.unpack y.toModel.unpack
  by_cases hxy : x < y
  · have hyx : ¬ y < x := by
      rw [lt_iff, hswap, lt_iff.1 hxy]
      simp
    rw [order, order, if_neg hyx, if_pos hxy, if_pos hxy]
    rfl
  · by_cases hyx : y < x
    · rw [order, order, if_pos hyx, if_neg hxy, if_pos hyx]
      rfl
    · rw [order, order, if_neg hyx, if_neg hxy, if_neg hxy, if_neg hyx]
      rfl

/-- What has no order counts as equal. -/
theorem order_eq (x y : Float) : order x y = (x.toModel.unpack.compare y.toModel.unpack).getD .eq := by
  have hswap := unpacked_compare_swap x.toModel.unpack y.toModel.unpack
  unfold order
  simp only [lt_iff, hswap]
  cases x.toModel.unpack.compare y.toModel.unpack with
  | none => rfl
  | some o => cases o <;> rfl

theorem order_of_beq {x y : Float} (h : (x == y) = true) : order x y = .eq := by
  have hcompare : (x.toModel.unpack.compare y.toModel.unpack == some .eq) = true := h
  rw [order_eq, beq_iff_eq.1 hcompare]
  rfl

theorem order_of_isNaN {x : Float} (h : x.isNaN = true) (y : Float) : order x y = .eq := by
  have hnan : x.toModel.unpack.isNaN = true := h
  rw [order_eq]
  cases hx : x.toModel.unpack with
  | notANumber => rfl
  | _ =>
    rw [hx] at hnan
    cases hnan

/-! ## Places -/

/-- The place of a number among the others: the side of zero, then exponent and significand, which count backwards below
zero. -/
def place : UnpackedFloat → Int × Int × Int
  | .infinity .negative => (-2, 0, 0)
  | .finite .negative m e _ => (-1, -e, -m)
  | .notANumber | .zero _ => (0, 0, 0)
  | .finite .positive m e _ => (1, e, m)
  | .infinity .positive => (2, 0, 0)

def comparePlaces : Int × Int × Int → Int × Int × Int → Ordering :=
  compareLex (compareOn Prod.fst) (compareLex (compareOn fun p => p.2.1) (compareOn fun p => p.2.2))

instance : Std.TransCmp comparePlaces := inferInstanceAs (Std.TransCmp (compareLex _ _))

theorem compare_neg (i j : Int) : compare (-i) (-j) = compare j i := by
  simp only [compare, compareOfLessAndEq]
  grind

theorem compare_natCast (m n : Nat) : compare (m : Int) n = compare m n := by
  simp only [compare, compareOfLessAndEq]
  grind

theorem unpacked_compare_eq {u v : UnpackedFloat} (hu : u.isNaN = false) (hv : v.isNaN = false) :
    u.compare v = some (comparePlaces (place u) (place v)) := by
  cases u with
  | notANumber => cases hu
  | infinity s =>
    cases v with
    | notANumber => cases hv
    | infinity t | finite t => cases s <;> cases t <;> rfl
    | zero => cases s <;> rfl
  | zero s =>
    cases v with
    | notANumber => cases hv
    | zero => rfl
    | infinity t | finite t => cases t <;> rfl
  | finite s m e _ =>
    cases v with
    | notANumber => cases hv
    | infinity t => cases s <;> cases t <;> rfl
    | zero => cases s <;> rfl
    | finite t n f _ =>
      cases s <;> cases t
      · show some _ = some ((compare (-e) (-f)).then (compare (-m : Int) (-n)))
        rw [compare_neg, compare_neg, compare_natCast, compare_parts_swap, Ordering.swap_swap]
      · rfl
      · rfl
      · show some _ = some ((compare e f).then (compare (m : Int) n))
        rw [compare_natCast]

/-- Numbers are ordered like their places. -/
theorem order_eq_comparePlaces {x y : Float} (hx : x.isNaN = false) (hy : y.isNaN = false) :
    order x y = comparePlaces (place x.toModel.unpack) (place y.toModel.unpack) := by
  rw [order_eq, unpacked_compare_eq hx hy]
  rfl

/-! ## Zeros -/

/-- A zero becomes the positive one. -/
def plainZero : UnpackedFloat → UnpackedFloat
  | .zero _ => .zero .positive
  | u => u

theorem plainZero_eq_iff {u v : UnpackedFloat} : plainZero u = plainZero v ↔ u = v ∨ ∃ s t, u = .zero s ∧ v = .zero t := by
  constructor
  · intro h
    cases u with
    | zero s =>
      cases v with
      | zero t => exact .inr ⟨s, t, rfl, rfl⟩
      | _ => cases h
    | _ => cases v <;> first | exact .inl h | cases h
  · rintro (rfl | ⟨s, t, rfl, rfl⟩) <;> rfl

theorem unpacked_compare_plainZero (u v : UnpackedFloat) : u.compare v = (plainZero u).compare (plainZero v) := by
  cases u with
  | notANumber => cases v <;> rfl
  | infinity s =>
    cases v with
    | infinity | notANumber => rfl
    | zero | finite => cases s <;> rfl
  | zero s =>
    cases v with
    | infinity t | finite t => cases t <;> rfl
    | notANumber | zero => rfl
  | finite s =>
    cases v with
    | zero => cases s <;> rfl
    | _ => rfl

/-- Unpacked numbers that are equal are the same, but for the signs of zeros. -/
theorem plainZero_eq_of_compare {u v : UnpackedFloat} (h : u.compare v = some .eq) : plainZero u = plainZero v := by
  have hparts : ∀ {e f : Int} {m n : Nat}, (compare e f).then (compare m n) = .eq → e = f ∧ m = n := by
    intro e f m n h
    obtain ⟨he, hm⟩ := Ordering.then_eq_eq.1 h
    exact ⟨Std.LawfulEqCmp.eq_of_compare he, Std.LawfulEqCmp.eq_of_compare hm⟩
  cases u with
  | notANumber => cases v <;> cases h
  | infinity s =>
    cases v with
    | infinity t => cases s <;> cases t <;> first | rfl | cases h
    | _ => cases s <;> cases h
  | zero s =>
    cases v with
    | zero => rfl
    | notANumber => cases h
    | infinity t | finite t => cases t <;> cases h
  | finite s m e _ =>
    cases v with
    | finite t n f _ =>
      cases s <;> cases t
      · obtain ⟨rfl, rfl⟩ := hparts (Ordering.swap_eq_eq.1 (Option.some.inj h))
        rfl
      · cases h
      · cases h
      · obtain ⟨rfl, rfl⟩ := hparts (Option.some.inj h)
        rfl
    | notANumber | zero => cases s <;> cases h
    | infinity t => cases s <;> cases t <;> cases h

/-- Equal numbers have the same integer. -/
theorem truncate_eq_of_beq {x y : Float} (h : (x == y) = true) : truncate x = truncate y := by
  have hcompare : (x.toModel.unpack.compare y.toModel.unpack == some .eq) = true := h
  unfold truncate
  rcases plainZero_eq_iff.1 (plainZero_eq_of_compare (beq_iff_eq.1 hcompare)) with h | ⟨s, t, hx, hy⟩
  · rw [h]
  · rw [hx, hy]
    rfl

end ExprLang.Number
