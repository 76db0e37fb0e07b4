import ExprLang.Number.Remainder
import ExprLang.Proofs.Equality
import ExprLang.Proofs.Number.Order
import ExprLang.Proofs.Number.Sign

/-!
# Numbers without the sign of zero

Equality does not tell the two zeros apart, and every not-a-number is the same number. `plain` writes
both zeros as the positive one, so two numbers are plainly the same if they are equal or both
not-a-number (`plain_eq_iff`). Arithmetic keeps this (`plain_add` and the like); only a division looks
at the sign of a zero, and only at that of its divisor (`plain_div`).
-/

namespace ExprLang.Number

open Float.Model (UnpackedFloat Format)
open Float.Model.UnpackedFloat (Sign)

/-! ## Zeros -/

def ofUnpacked (u : UnpackedFloat) : Float := Float.ofModel (Float.Model.pack u)

def plain (x : Float) : Float := ofUnpacked (plainZero x.toModel.unpack)

/-- Both are zeros, of different signs. -/
def OppositeZeros (x y : Float) : Prop :=
  ∃ s t : Sign, s ≠ t ∧ x.toModel.unpack = .zero s ∧ y.toModel.unpack = .zero t

theorem plainZero_plainZero (u : UnpackedFloat) : plainZero (plainZero u) = plainZero u := by
  cases u <;> rfl

theorem unpack_zero (s : Sign) : (ofUnpacked (.zero s)).toModel.unpack = .zero s := by
  show UnpackedFloat.unpack .binary64 (UnpackedFloat.packComponents .binary64 s 0#11 0#52) = _
  rw [unpack_packComponents, ofFields, if_neg (by decide), if_pos rfl, dif_pos rfl]

/-- Unpacking gives back what was packed of a number. -/
theorem unpack_pack_unpack {b : Word} (h : (UnpackedFloat.unpack .binary64 b).isFinite = true) :
    UnpackedFloat.unpack .binary64 (UnpackedFloat.pack .binary64 (UnpackedFloat.unpack .binary64 b)) =
      UnpackedFloat.unpack .binary64 b := by
  have hpack := pack_withSign (signOf b) h
  rw [withSign_unpack, signed_signOf] at hpack
  rw [hpack]

theorem unpack_plain (x : Float) : (plain x).toModel.unpack = plainZero x.toModel.unpack := by
  show UnpackedFloat.unpack .binary64 (UnpackedFloat.pack .binary64 (plainZero x.toModel.unpack)) = _
  cases hx : x.toModel.unpack with
  | notANumber => rfl
  | infinity s => cases s <;> rfl
  | zero s => exact unpack_zero .positive
  | finite s m e h =>
    have hbits : UnpackedFloat.unpack .binary64 (bits x) = .finite s m e h := hx
    have hpack := unpack_pack_unpack (b := bits x) (by rw [hbits]; rfl)
    rw [hbits] at hpack
    exact hpack

theorem plain_eq {x y : Float} : plain x = plain y ↔ plainZero x.toModel.unpack = plainZero y.toModel.unpack :=
  ⟨fun h => by rw [← unpack_plain, h, unpack_plain], fun h => by rw [plain, h, plain]⟩

theorem plain_plain (x : Float) : plain (plain x) = plain x := by
  rw [plain_eq, unpack_plain, plainZero_plainZero]

/-! ## Equal numbers -/

theorem isNaN_iff {x : Float} : x.isNaN = true ↔ x.toModel.unpack = .notANumber := by
  show x.toModel.unpack.isNaN = true ↔ _
  generalize x.toModel.unpack = u
  constructor
  · intro h
    cases u with
    | notANumber => rfl
    | _ => cases h
  · rintro rfl
    rfl

/-- Numbers are plainly the same if they are equal or no numbers. -/
theorem plain_eq_iff {x y : Float} : plain x = plain y ↔ (x == y) = true ∨ x.isNaN = true ∧ y.isNaN = true := by
  rw [plain_eq]
  constructor
  · intro h
    rcases plainZero_eq_iff.1 h with h | ⟨s, t, hx, hy⟩
    · rcases beq_self x with hself | hnan
      · left
        show x.toModel.unpack.beq y.toModel.unpack = true
        rw [← h]
        exact hself
      · exact .inr ⟨hnan, isNaN_iff.2 (h ▸ isNaN_iff.1 hnan)⟩
    · left
      show x.toModel.unpack.beq y.toModel.unpack = true
      rw [hx, hy]
      rfl
  · rintro (h | ⟨hx, hy⟩)
    · have hcompare : (x.toModel.unpack.compare y.toModel.unpack == some .eq) = true := h
      exact plainZero_eq_of_compare (beq_iff_eq.1 hcompare)
    · rw [isNaN_iff.1 hx, isNaN_iff.1 hy]

/-! ## Arithmetic -/

/-- Two unpacked numbers are the same but for the sign of a zero. -/
def Near (u v : UnpackedFloat) : Prop := plainZero u = plainZero v

theorem plain_ofUnpacked {u v : UnpackedFloat} (h : Near u v) : plain (ofUnpacked u) = plain (ofUnpacked v) := by
  rcases plainZero_eq_iff.1 h with rfl | ⟨s, t, rfl, rfl⟩
  · rfl
  · rw [plain_eq, unpack_zero, unpack_zero]
    rfl

section

variable {f : UnpackedFloat → UnpackedFloat → UnpackedFloat}

/-- An operation to which the sign of a zero is nothing, on either side. -/
structure Signless (f : UnpackedFloat → UnpackedFloat → UnpackedFloat) : Prop where
  left (s t : Sign) (v : UnpackedFloat) : Near (f (.zero s) v) (f (.zero t) v)
  right (u : UnpackedFloat) (s t : Sign) : Near (f u (.zero s)) (f u (.zero t))

theorem Signless.near (hf : Signless f) {u u' v v' : UnpackedFloat} (h : Near u u') (h' : Near v v') :
    Near (f u v) (f u' v') := by
  have hleft : Near (f u v) (f u' v) := by
    rcases plainZero_eq_iff.1 h with rfl | ⟨s, t, rfl, rfl⟩
    · rfl
    · exact hf.left s t v
  have hright : Near (f u' v) (f u' v') := by
    rcases plainZero_eq_iff.1 h' with rfl | ⟨s, t, rfl, rfl⟩
    · rfl
    · exact hf.right u' s t
  exact hleft.trans hright

end

theorem signless_add : Signless (.add .binary64) where
  left s t v := by cases v with | zero r => cases r <;> cases s <;> cases t <;> rfl | _ => rfl
  right u s t := by cases u with | zero r => cases r <;> cases s <;> cases t <;> rfl | _ => rfl

theorem signless_sub : Signless (.sub .binary64) where
  left s t v := by cases v with | zero r => cases r <;> cases s <;> cases t <;> rfl | _ => rfl
  right u s t := by cases u with | zero r => cases r <;> cases s <;> cases t <;> rfl | _ => rfl

theorem signless_mul : Signless (.mul .binary64) where
  left s t v := by cases v <;> rfl
  right u s t := by cases u <;> rfl

theorem signless_remainder : Signless unpackedRemainder where
  left s t v := by cases v <;> rfl
  right u s t := by cases u <;> rfl

section

variable {x x' y y' : Float} (h : plain x = plain x') (h' : plain y = plain y')

include h

theorem plain_neg : plain (-x) = plain (-x') := by
  refine plain_ofUnpacked (u := x.toModel.unpack.neg) (v := x'.toModel.unpack.neg) ?_
  rcases plainZero_eq_iff.1 (plain_eq.1 h) with h | ⟨s, t, hx, hx'⟩
  · rw [h]
    rfl
  · rw [hx, hx']
    rfl

theorem truncate_plain : truncate x = truncate x' := by
  unfold truncate
  rcases plainZero_eq_iff.1 (plain_eq.1 h) with h | ⟨s, t, hx, hx'⟩
  · rw [h]
  · rw [hx, hx']
    rfl

/-- Only the sign of a divisor that is zero counts. -/
theorem plain_div (hy : y.toModel.unpack = y'.toModel.unpack) : plain (x / y) = plain (x' / y') := by
  have hleft : ∀ (s t : Sign) (v : UnpackedFloat),
      Near (.div .binary64 (.zero s) v) (.div .binary64 (.zero t) v) := fun s t v => by cases v <;> rfl
  refine plain_ofUnpacked (u := .div .binary64 x.toModel.unpack y.toModel.unpack)
    (v := .div .binary64 x'.toModel.unpack y'.toModel.unpack) ?_
  rw [← hy]
  rcases plainZero_eq_iff.1 (plain_eq.1 h) with h | ⟨s, t, hx, hx'⟩
  · rw [h]
    rfl
  · rw [hx, hx']
    exact hleft s t _

include h'

/-- A zero and a not-a-number have no sign to give. -/
theorem plain_div_of_zero (hx : x.isNaN = true ∨ (x == 0) = true) : plain (x / y) = plain (x' / y') := by
  rcases plainZero_eq_iff.1 (plain_eq.1 h') with hy | ⟨s, t, hy, hy'⟩
  · exact plain_div h hy
  · have hnan : ∀ {z : Float} (r : Sign), plainZero z.toModel.unpack = plainZero x.toModel.unpack →
        UnpackedFloat.div .binary64 z.toModel.unpack (.zero r) = .notANumber := fun {z} r hz => by
      have hx : plainZero x.toModel.unpack = .notANumber ∨ plainZero x.toModel.unpack = .zero .positive :=
        hx.imp (fun hx => by rw [isNaN_iff.1 hx]; rfl) fun hx => plainZero_eq_of_compare (beq_iff_eq.1 hx)
      rw [← hz] at hx
      cases hu : z.toModel.unpack <;> rw [hu] at hx <;> first | rfl | (rcases hx with hx | hx <;> cases hx)
    refine plain_ofUnpacked (u := .div .binary64 x.toModel.unpack y.toModel.unpack)
      (v := .div .binary64 x'.toModel.unpack y'.toModel.unpack) ?_
    rw [hy, hy', hnan s rfl, hnan t (plain_eq.1 h).symm]
    rfl

theorem plain_op {f : UnpackedFloat → UnpackedFloat → UnpackedFloat} (hf : Signless f) :
    plain (ofUnpacked (f x.toModel.unpack y.toModel.unpack)) =
      plain (ofUnpacked (f x'.toModel.unpack y'.toModel.unpack)) :=
  plain_ofUnpacked (hf.near (plain_eq.1 h) (plain_eq.1 h'))

theorem plain_add : plain (x + y) = plain (x' + y') := plain_op h h' signless_add

theorem plain_sub : plain (x - y) = plain (x' - y') := plain_op h h' signless_sub

theorem plain_mul : plain (x * y) = plain (x' * y') := plain_op h h' signless_mul

theorem plain_remainder : plain (remainder x y) = plain (remainder x' y') := plain_op h h' signless_remainder

theorem compare_plain : x.toModel.unpack.compare y.toModel.unpack = x'.toModel.unpack.compare y'.toModel.unpack := by
  rw [unpacked_compare_plainZero, plain_eq.1 h, plain_eq.1 h', ← unpacked_compare_plainZero]

theorem order_plain : order x y = order x' y' := by rw [order_eq, order_eq, compare_plain h h']

theorem beq_plain : (x == y) = (x' == y') := by
  show (x.toModel.unpack.compare y.toModel.unpack == some .eq) = (x'.toModel.unpack.compare y'.toModel.unpack == some .eq)
  rw [compare_plain h h']

end

end ExprLang.Number
