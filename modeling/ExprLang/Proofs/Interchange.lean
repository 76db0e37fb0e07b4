import ExprLang.Proofs.Ranges

/-!
# A range or its array

Between bounds that are numbers exactly, nothing but an operator tells a range from the array that it
converts to: neither equality and comparison with any third value, nor the length, nor what it selects
as a subscript.

* `Value.matchesItems_integers`: a range matches the integers of another one only if it is the same.
* `Value.convert_interchanges`: all four together.
-/

namespace ExprLang

/-! ## Integers -/

/-- The bounds of a range are its first and last integers. -/
theorem Range.between_inj {a b c d : Int} (h : (between a b).items 0 = (between c d).items 0) : a = c ∧ b = d := by
  have hfirst := items_head? 0 (between a b)
  have hlast := items_getLast? 0 (between a b)
  rw [h, items_head?] at hfirst
  rw [h, items_getLast?] at hlast
  exact ⟨(Option.some.inj hfirst).symm, (Option.some.inj hlast).symm⟩

/-- Numbers tell exact integers apart. -/
theorem Number.ofInteger_beq {i j : Int} (hi : IsExact i) (hj : IsExact j) :
    (ofInteger i == ofInteger j) = true ↔ i = j := by
  constructor
  · intro h
    rw [← truncate_ofInteger hi, truncate_eq_of_beq h, truncate_ofInteger hj]
  · rintro rfl
    exact (beq_self _).resolve_right (by rw [not_isNaN_ofInteger]; exact Bool.false_ne_true)

namespace Value

/-! ## Equality -/

/-- The integers of another range are matched only if they are the same. -/
theorem all_isInteger_iff {is js : List Int} (hi : ∀ i ∈ is, Number.IsExact i) (hj : ∀ j ∈ js, Number.IsExact j)
    (hlength : js.length = is.length) :
    ((is.zip (js.map integer)).all fun p => p.2.isInteger p.1) = true ↔ is = js := by
  induction is generalizing js with
  | nil =>
    obtain rfl := List.length_eq_zero_iff.1 hlength
    exact ⟨fun _ => rfl, fun _ => rfl⟩
  | cons i is ih =>
    cases js with
    | nil => cases hlength
    | cons j js =>
      obtain ⟨hi, his⟩ := List.forall_mem_cons.1 hi
      obtain ⟨hj, hjs⟩ := List.forall_mem_cons.1 hj
      have hfirst : (integer j).isInteger i = true ↔ i = j := (Number.ofInteger_beq hj hi).trans eq_comm
      rw [List.map_cons, List.zip_cons_cons, List.all_cons, Bool.and_eq_true, hfirst, ih his hjs (Nat.succ.inj hlength),
        List.cons_eq_cons]

section

variable {first last : Int} (hfirst : Number.IsExact first) (hlast : Number.IsExact last)

include hfirst hlast

theorem matchesItems_integers {a b : Int} (ha : Number.IsExact a) (hb : Number.IsExact b) :
    Range.matchesItems a b (integers first last) = (Range.between a b == Range.between first last) := by
  rw [Bool.eq_iff_iff, beq_iff_eq, matchesItems_eq, Range.length_of_exact ha hb, Bool.and_eq_true, beq_iff_eq, integers,
    List.length_map]
  have hall := @all_isInteger_iff ((Range.between a b).items 0) ((Range.between first last).items 0)
    (fun i hi => Range.exact_of_mem_items ha hb hi) (fun i hi => Range.exact_of_mem_items hfirst hlast hi)
  constructor
  · rintro ⟨hlength, hitems⟩
    obtain ⟨rfl, rfl⟩ := Range.between_inj ((hall hlength).1 hitems)
    rfl
  · intro h
    cases h
    exact ⟨rfl, (hall rfl).2 rfl⟩

end

/-- A range is between integers that are numbers exactly; of other values nothing is asked. -/
def ExactBounds : Value → Prop
  | ⟨_, .range (.between first last)⟩ => Number.IsExact first ∧ Number.IsExact last
  | _ => True

variable {first last : Int}

theorem equals_integers (hfirst : Number.IsExact first) (hlast : Number.IsExact last) (m : Option Nat) {v : Value}
    (hv : v.ExactBounds) :
    equals ⟨m, .range (.between first last)⟩ v = (array (integers first last)).equals v ∧
      v.equals ⟨m, .range (.between first last)⟩ = v.equals (array (integers first last)) := by
  obtain ⟨n, c⟩ := v
  cases c with
  | array vs =>
    obtain ⟨hleft, hright⟩ := equalItems_range hfirst hlast vs
    exact ⟨hleft.symm, hright.symm⟩
  | range s =>
    cases s with
    | between a b =>
      have hmatches := matchesItems_integers hfirst hlast hv.1 hv.2
      refine ⟨?_, hmatches.symm⟩
      show (Range.between first last == Range.between a b) = Range.matchesItems a b (integers first last)
      rw [hmatches, BEq.comm]
    | _ => exact ⟨rfl, rfl⟩
  | _ => exact ⟨rfl, rfl⟩

/-! ## All together -/

/-- Marks do not count in comparison. -/
theorem compare_range_mark (m : Option Nat) (s : Range) (v : Value) :
    compare ⟨m, .range s⟩ v = (range s).compare v ∧ v.compare ⟨m, .range s⟩ = v.compare (range s) := by
  have hbare : bare ⟨m, .range s⟩ = (range s).bare := rfl
  rw [← compare_bare, ← compare_bare (range s), ← compare_bare v, ← compare_bare v, hbare]
  exact ⟨rfl, rfl⟩

/-- A range with exact bounds converts to an array that has the same length, equals the same values and has the same order
with them from either side, and selects the same as a subscript. -/
theorem convert_interchanges {r : Value} (hr : r.content = .range (.between first last)) (hfirst : Number.IsExact first)
    (hlast : Number.IsExact last) : ∃ a, r.convert .array = .ok a ∧ r.length = a.length ∧
      (∀ v : Value, v.ExactBounds → (r == v) = (a == v) ∧ (v == r) = (v == a) ∧
        Outcome.Both (· = ·) (r.compare v) (a.compare v) ∧ Outcome.Both (· = ·) (v.compare r) (v.compare a)) ∧
      ∀ (origin : Value → Option Location) (x : Value),
        Outcome.Both (· = ·) (x.subscript origin r) (x.subscript origin a) := by
  obtain ⟨m, c⟩ := r
  obtain rfl : c = .range (.between first last) := hr
  refine ⟨array (integers first last), rfl, ?_, fun v hv => ?_, fun origin x => ?_⟩
  · show (Range.between first last).length 0 = (integers first last).length
    rw [Range.length_of_exact hfirst hlast, integers, List.length_map]
  · obtain ⟨hleft, hright⟩ := equals_integers hfirst hlast m hv
    obtain ⟨hthere, hback⟩ := compare_range_mark m (.between first last) v
    refine ⟨hleft, hright, ?_, ?_⟩
    · rw [hthere]
      exact (compare_integers_left first last v).symm
    · rw [hback]
      exact (compare_integers_right first last v).symm
  · exact (subscript_integers hfirst hlast origin x none m).symm

/-- A descending range, a range that equals neither, and a text shorter than the range. -/
theorem convert_interchanges_descending : ∃ a, (range (.between 2 (-1))).convert .array = .ok a ∧
    Number.IsExact 2 ∧ Number.IsExact (-1) ∧ (range (.between (-1) 2)).ExactBounds ∧
    ((range (.between 2 (-1)) == range (.between (-1) 2)) = (a == range (.between (-1) 2))) ∧
    Outcome.Both (· = ·) ((string "abc").subscript (fun _ => none) (range (.between 2 (-1))))
      ((string "abc").subscript (fun _ => none) a) := by
  have hv : (range (.between (-1) 2)).ExactBounds := ⟨by decide, by decide⟩
  obtain ⟨a, ha, -, hvalues, hsubscript⟩ :=
    convert_interchanges (r := range (.between 2 (-1))) rfl (by decide) (by decide)
  exact ⟨a, ha, by decide, by decide, hv, (hvalues _ hv).1, hsubscript _ _⟩

end Value

end ExprLang
