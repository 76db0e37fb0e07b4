import ExprLang.Proofs.Printing.Source
import ExprLang.Proofs.Ranges

/-!
# What a printed expression means when it is read again

A literal may be printed as an expression that is no literal, or none with its value. So what the text of
a tree means depends on the literals in it and on what stands around them.

* `Value.denote_source`: the source of a value means the value, if a text can express it.
* `Expr.mayBeRange`: where a literal range is passed on; read again, it is the array of its integers there.
* `Expr.Retold`: every literal is told, and where ranges and arrays differ there are no literal ranges.
* `Expr.denote_reread`: a tree that is retold means what it meant when it is read again.
-/

namespace ExprLang

open Lexeme

/-! ## Numbers -/

/-- A run of digits is read as the number of the integer that they show. -/
theorem Numeral.value?_digits {ds : List Char} (h : IsDigits ds) : value? ds = some (Float.ofNat (natural ds)) := by
  have hspelled := Spelled.parts isSign_nil (.whole h) (x := []) (.inl rfl)
  rw [List.nil_append, List.append_nil] at hspelled
  rw [value?_of_spelled hspelled, Numeral.value]
  show some (Float.ofScientific (natural (ds ++ [])) false 0) = _
  rw [List.append_nil]
  rfl

namespace Number

theorem unsigned_natural (n : Nat) : unsigned (toString n).toList = .literal none (.number (Float.ofNat n)) := by
  rw [Nat.toString_eq_repr, Nat.toList_repr, unsigned, Numeral.value?_digits (isDigits_toDigits n), natural_toDigits]

/-- The text of an integer means the number of the integer. -/
theorem sourceOf_integer (i : Int) (σ : String → Value) :
    (sourceOf (toString i).toList).denote .strict σ = .ok (.integer i) := by
  obtain ⟨s, htext, ⟨rfl, hi⟩ | ⟨rfl, hi⟩⟩ := integer_parts i
  · rw [htext, sourceOf_positive (.inl (isPlainNumeral_natural _)), unsigned_natural, hi]
    rfl
  · obtain ⟨n, rfl⟩ := Int.eq_negSucc_of_lt_zero hi
    rw [htext]
    show (Expr.unary none .minus (unsigned (toString (n + 1)).toList)).denote .strict σ = _
    rw [unsigned_natural]
    rfl

/-- The text of a number that it expresses means the number. -/
theorem Expressible.denote_sourceOf {x : Float} (h : Expressible x) (σ : String → Value) :
    (sourceOf (text x).toList).denote .strict σ = .ok (.number x) := by
  obtain ⟨cs, hfront, hvalue, ⟨htext, habs⟩ | ⟨htext, hneg⟩⟩ := h.cases
  · obtain ⟨c, r, rfl, hdigit, -, -⟩ := front_number_cases hfront rfl
    have hunsigned : sourceOf (c :: r) = unsigned (c :: r) := by
      unfold sourceOf
      split
      · next heq =>
        cases heq
        cases hdigit
      · rfl
    rw [htext, hunsigned, unsigned, hvalue, habs]
    rfl
  · rw [htext, sourceOf, unsigned, hvalue]
    show Except.ok (Value.number (-x.abs)) = _
    rw [hneg]

end Number

/-! ## Values -/

/-- What a text expresses, and undefined as long as its name is undefined. -/
def Value.ToldPart (s : Store) : Value → Prop
  | ⟨_, .undefined⟩ => (s.lookup "undefined").isUndefined = true
  | v => v.ExpressiblePart

instance (s : Store) : DecidablePred (Value.ToldPart s)
  | ⟨_, .undefined⟩ => inferInstanceAs (Decidable ((s.lookup "undefined").isUndefined = true))
  | ⟨m, .number x⟩ => inferInstanceAs (Decidable (Value.ExpressiblePart ⟨m, .number x⟩))
  | ⟨m, .map es⟩ => inferInstanceAs (Decidable (Value.ExpressiblePart ⟨m, .map es⟩))
  | ⟨_, .range _⟩ => isFalse id
  | ⟨_, .boolean _⟩ | ⟨_, .string _⟩ | ⟨_, .array _⟩ | ⟨_, .null⟩ => isTrue trivial

def Value.Told (s : Store) (v : Value) : Prop := v.Each (ToldPart s)

instance (s : Store) (v : Value) : Decidable (v.Told s) := inferInstanceAs (Decidable (v.Each (Value.ToldPart s)))

namespace Value

variable {s : Store}

theorem Told.kind_ne {v : Value} (h : v.Told s) : v.kind ≠ .range := by
  obtain ⟨m, c⟩ := v
  cases c with
  | range => exact absurd h id
  | _ => exact Kind.noConfusion

theorem bare_of_isUndefined {v : Value} (h : v.isUndefined = true) : v.bare = undefined := by
  obtain ⟨m, c⟩ := v
  cases c with
  | undefined => rfl
  | _ => cases h

end Value

mutual

/-- The source of a value that is told means the value. -/
theorem Value.denote_source {s : Store} : ∀ {v : Value}, v.Told s → v.source.denote .strict s.values = .ok v.bare
  | ⟨_, .boolean _⟩, _ | ⟨_, .string _⟩, _ | ⟨_, .null⟩, _ => rfl
  | ⟨_, .number _⟩, h => Number.Expressible.denote_sourceOf h _
  | ⟨_, .undefined⟩, h => congrArg Except.ok (Value.bare_of_isUndefined h)
  | ⟨_, .array vs⟩, h => by
    obtain ⟨_, hvs⟩ := Value.each_array.1 h
    rw [Value.source, Expr.denote, denoteItems_of_means (sourceItems_means hvs) fun v hv => Value.Told.kind_ne (hvs v hv),
      Value.bare, bareItems_eq]
    rfl
  | ⟨_, .map es⟩, h => by
    obtain ⟨_, hes⟩ := Value.each_map.1 h
    rw [Value.source, Expr.denote, denoteEntries_of_means (sourceEntries_means hes), Value.bare, bareEntries_eq]
    rfl

theorem sourceItems_means {s : Store} : ∀ {vs : List Value}, (∀ v ∈ vs, v.Told s) →
    List.Forall₂ (fun u v => u.denote .strict s.values = .ok v.bare) (sourceItems vs) vs
  | [], _ => .nil
  | _ :: _, h => .cons (Value.denote_source (List.forall_mem_cons.1 h).1) (sourceItems_means (List.forall_mem_cons.1 h).2)

theorem sourceEntries_means {s : Store} : ∀ {es : List (String × Value)}, (∀ f ∈ es, f.2.Told s) →
    List.Forall₂ (fun f g => f.1 = g.1 ∧ f.2.denote .strict s.values = .ok g.2.bare) (sourceEntries es) es
  | [], _ => .nil
  | (_, _) :: _, h => .cons ⟨rfl, Value.denote_source (List.forall_mem_cons.1 h).1⟩
      (sourceEntries_means (List.forall_mem_cons.1 h).2)

end

namespace Value

/-- A range between integers that are numbers exactly. -/
def SpansExactly : Value → Prop
  | ⟨_, .range (.between first last)⟩ => Number.IsExact first ∧ Number.IsExact last
  | _ => False

instance : DecidablePred SpansExactly
  | ⟨_, .range (.between first last)⟩ => inferInstanceAs (Decidable (Number.IsExact first ∧ Number.IsExact last))
  | ⟨_, .range (.startingAt _)⟩ | ⟨_, .range (.endingAt _)⟩ | ⟨_, .boolean _⟩ | ⟨_, .string _⟩ | ⟨_, .number _⟩
  | ⟨_, .array _⟩ | ⟨_, .map _⟩ | ⟨_, .null⟩ | ⟨_, .undefined⟩ => isFalse id

/-- The source of a range means the array of its integers. -/
theorem SpansExactly.denote_source {v : Value} (h : v.SpansExactly) (σ : String → Value) :
    ∃ w, v.source.denote .strict σ = .ok w ∧ w.Lists v.bare := by
  obtain ⟨m, c⟩ := v
  cases c with
  | range r =>
    cases r with
    | between first last =>
      obtain ⟨hfirst, hlast⟩ := h
      refine ⟨array (integers first last), ?_, first, last, hfirst, hlast, rfl, rfl⟩
      have hrange : (integer first).rangeTo (integer last) = .ok (range (.between first last)) := by
        show Except.ok (range (.between (Number.truncate (Number.ofInteger first))
          (Number.truncate (Number.ofInteger last)))) = _
        rw [Number.truncate_ofInteger hfirst, Number.truncate_ofInteger hlast]
      rw [source, Expr.denote, denoteItems, Expr.denote, Number.sourceOf_integer, Number.sourceOf_integer]
      show settled .strict ((settled .strict ((integer first).rangeTo (integer last)) >>= _) >>= _) = _
      rw [hrange]
      show Except.ok (array (integers first last ++ [])) = _
      rw [List.append_nil]
    | _ => exact h.elim
  | _ => exact h.elim

end Value

/-! ## Ranges that are passed on -/

mutual

/-- Whether what an expression gives may be a literal range. -/
def Expr.mayBeRange : Expr → Bool
  | .literal _ v => v.kind == .range
  | .unary _ .group a => a.mayBeRange
  | .binary _ .guarded _ b => b.mayBeRange
  | .switch _ cases => someMayBeRange cases
  | _ => false

def someMayBeRange : List Expr → Bool
  | [] => false
  | e :: es => e.mayBeRange || someMayBeRange es

end

/-- A guard has its result, or gives the right operand. -/
theorem Value.guarded_cases (v : Value) : (∃ r, v.guarded = .done r) ∨ v.guarded = .right .ok := by
  unfold guarded
  split
  · exact .inl ⟨_, rfl⟩
  · split
    · exact .inr rfl
    · exact .inl ⟨_, rfl⟩
    · exact .inl ⟨_, rfl⟩

theorem Outcome.Both.settled {R : Value → Value → Prop} {r t : Except Error Value} (h : Both R r t) :
    Both R (settled .strict r) (settled .strict t) := by
  cases h with
  | ok h => exact .ok h
  | error e e' => exact .error e.bare e'.bare

namespace Expr

/-! ## Trees -/

/-- Literals are told or exact ranges, these only where an array has the same effect, and a subscript that is written
behind its base is one of the whole base. -/
def Retold (s : Store) : Expr → Prop
  | literal _ v => v.Told s ∨ v.SpansExactly
  | array _ items => ∀ e ∈ items, e.mayBeRange = false
  | map _ entries => ∀ f ∈ entries, f.2.mayBeRange = false
  | binary _ op a b => op = .add → a.mayBeRange = false ∧ b.mayBeRange = false
  | subscript _ a _ => a.mayBeRange = false ∧ a.reread.standsApart = true
  | _ => True

instance (s : Store) : DecidablePred (Retold s)
  | literal _ v => inferInstanceAs (Decidable (v.Told s ∨ v.SpansExactly))
  | array _ items => inferInstanceAs (Decidable (∀ e ∈ items, e.mayBeRange = false))
  | map _ entries => inferInstanceAs (Decidable (∀ f ∈ entries, f.2.mayBeRange = false))
  | binary _ op a b => inferInstanceAs (Decidable (op = .add → a.mayBeRange = false ∧ b.mayBeRange = false))
  | subscript _ a _ => inferInstanceAs (Decidable (a.mayBeRange = false ∧ a.reread.standsApart = true))
  | var .. | unary .. | switch .. => isTrue trivial

variable {s : Store}

/-- Read again, an expression has its value, or restates a range that it passes on, or fails like the expression. -/
def MeansAgain (s : Store) (e : Expr) : Prop :=
  Outcome.Both (fun w v => w.Restates v ∧ (e.mayBeRange = false → w = v)) (e.reread.denote .strict s.values)
    (e.denote .strict s.values)

theorem MeansAgain.eq {e : Expr} (h : e.MeansAgain s) (hmay : e.mayBeRange = false) :
    Outcome.Both (· = ·) (e.reread.denote .strict s.values) (e.denote .strict s.values) :=
  Outcome.Both.mono h fun _ _ h => h.2 hmay

theorem meansAgain_of_eq {e : Expr} (h : Outcome.Both (· = ·) (e.reread.denote .strict s.values)
    (e.denote .strict s.values)) : e.MeansAgain s := Outcome.Both.mono h fun _ _ h => ⟨.inl h, fun _ => h⟩

end Expr

open ExprLang.Expr

mutual

theorem Expr.denote_reread {s : Store} : ∀ {e : Expr}, e.Each (Retold s) → e.MeansAgain s
  | .literal _ v, h => by
    rcases each_literal.1 h with htold | hspans
    · refine meansAgain_of_eq ?_
      rw [reread, Value.denote_source htold]
      exact .refl _
    · obtain ⟨w, hw, hlists⟩ := hspans.denote_source s.values
      unfold MeansAgain
      rw [reread, hw]
      refine .ok ⟨.inr hlists, fun hmay => ?_⟩
      obtain ⟨m, c⟩ := v
      cases c with
      | range => cases hmay
      | _ => exact hspans.elim
  | .var _ _, _ => meansAgain_of_eq (.refl _)
  | .array _ items, h => by
    obtain ⟨hmay, hitems⟩ := each_array.1 h
    refine meansAgain_of_eq (Outcome.Both.settled ((denoteItems_reread hitems hmay).bind ?_))
    rintro vs _ rfl
    exact .refl _
  | .map _ es, h => by
    obtain ⟨hmay, hes⟩ := each_map.1 h
    refine meansAgain_of_eq (Outcome.Both.settled ((denoteEntries_reread hes hmay).bind ?_))
    rintro vs _ rfl
    exact .refl _
  | .unary _ op a, h => by
    have ha := Expr.denote_reread (each_unary.1 h).2
    by_cases hop : op = .group
    · subst hop
      refine Outcome.Both.settled (Outcome.Both.bind ha ?_)
      rintro w v ⟨rfl | hlists, hmay⟩
      · exact (Outcome.Both.refl _).mono fun _ _ h => ⟨.inl h, fun _ => h⟩
      · obtain ⟨_, _, -, -, rfl, rfl⟩ := id hlists
        exact .ok ⟨.inr hlists, hmay⟩
    · exact meansAgain_of_eq (Outcome.Both.settled (Outcome.Both.bind ha fun _ _ h => UnaryOp.apply_restates hop h.1))
  | .binary _ op a b, h => by
    obtain ⟨hmay, ha, hb⟩ := each_binary.1 h
    have ha := Expr.denote_reread ha
    have hb := Expr.denote_reread hb
    by_cases hadd : op = .add
    · subst hadd
      obtain ⟨hleft, hright⟩ := hmay rfl
      refine meansAgain_of_eq (Outcome.Both.settled ((ha.eq hleft).bind ?_))
      rintro v _ rfl
      refine (hb.eq hright).bind ?_
      rintro w _ rfl
      exact .refl _
    by_cases hguarded : op = .guarded
    · subst hguarded
      refine Outcome.Both.settled (Outcome.Both.bind ha ?_)
      rintro v _ ⟨rfl | ⟨_, _, -, -, rfl, rfl⟩, -⟩
      · show Outcome.Both _ (match v.guarded with | .done r => r | .right finish => _)
          (match v.guarded with | .done r => r | .right finish => _)
        rcases v.guarded_cases with ⟨r, hr⟩ | hright
        · rw [hr]
          exact (Outcome.Both.refl r).mono fun _ _ h => ⟨.inl h, fun _ => h⟩
        · rw [hright]
          exact Outcome.Both.bind hb fun _ _ h => .ok h
      · exact .error _ _
    · refine meansAgain_of_eq (Outcome.Both.settled (Outcome.Both.bind ha fun w v h => ?_))
      have hdemand := BinaryOp.afterLeft_restates hadd hguarded h.1
      generalize op.afterLeft w = d at hdemand ⊢
      generalize op.afterLeft v = d' at hdemand ⊢
      cases hdemand with
      | done h => exact h
      | right h => exact Outcome.Both.bind hb fun _ _ h' => h _ _ h'.1
  | .subscript _ a b, h => by
    obtain ⟨⟨hbase, hstands⟩, ha, hb⟩ := each_subscript.1 h
    have ha := (Expr.denote_reread ha).eq hbase
    have hb := Expr.denote_reread hb
    refine meansAgain_of_eq ?_
    rw [reread, takesSubscripts_of_standsApart hstands]
    refine Outcome.Both.settled (ha.bind ?_)
    rintro v _ rfl
    refine Outcome.Both.bind hb ?_
    rintro w _ ⟨rfl | ⟨first, last, hfirst, hlast, rfl, rfl⟩, -⟩
    · exact .refl _
    · exact Value.subscript_integers hfirst hlast _ v none none
  | .switch _ cases, h => by
    obtain ⟨_, hcases⟩ := each_switch.1 h
    exact Outcome.Both.settled (denoteCases_reread hcases)

theorem denoteItems_reread {s : Store} : ∀ {es : List Expr}, (∀ e ∈ es, e.Each (Retold s)) →
    (∀ e ∈ es, e.mayBeRange = false) →
    Outcome.Both (· = ·) (denoteItems .strict s.values (rereadItems es)) (denoteItems .strict s.values es)
  | [], _, _ => .refl _
  | e :: es, h, hmay => by
    obtain ⟨he, hes⟩ := List.forall_mem_cons.1 h
    obtain ⟨hm, hms⟩ := List.forall_mem_cons.1 hmay
    refine ((Expr.denote_reread he).eq hm).bind ?_
    rintro v _ rfl
    refine (Outcome.Both.refl _).bind ?_
    rintro vs _ rfl
    refine (denoteItems_reread hes hms).bind ?_
    rintro ws _ rfl
    exact .refl _

theorem denoteEntries_reread {s : Store} : ∀ {es : List (String × Expr)}, (∀ f ∈ es, f.2.Each (Retold s)) →
    (∀ f ∈ es, f.2.mayBeRange = false) →
    Outcome.Both (· = ·) (denoteEntries .strict s.values (rereadEntries es)) (denoteEntries .strict s.values es)
  | [], _, _ => .refl _
  | (k, e) :: es, h, hmay => by
    obtain ⟨he, hes⟩ := List.forall_mem_cons.1 h
    obtain ⟨hm, hms⟩ := List.forall_mem_cons.1 hmay
    refine ((Expr.denote_reread he).eq hm).bind ?_
    rintro v _ rfl
    refine (denoteEntries_reread hes hms).bind ?_
    rintro ws _ rfl
    exact .refl _

theorem denoteCases_reread {s : Store} : ∀ {es : List Expr}, (∀ e ∈ es, e.Each (Retold s)) →
    Outcome.Both (fun w v => w.Restates v ∧ (someMayBeRange es = false → w = v))
      (denoteCases .strict s.values (rereadItems es)) (denoteCases .strict s.values es)
  | [], _ => .ok ⟨.inl rfl, fun _ => rfl⟩
  | e :: es, h => by
    obtain ⟨he, hes⟩ := List.forall_mem_cons.1 h
    refine Outcome.Both.bind (Expr.denote_reread he) fun w v hwv => ?_
    rw [hwv.1.isUndefined]
    split
    · exact (denoteCases_reread hes).mono fun _ _ h => ⟨h.1, fun hmay => h.2 (Bool.or_eq_false_iff.1 hmay).2⟩
    · exact .ok ⟨hwv.1, fun hmay => hwv.2 (Bool.or_eq_false_iff.1 hmay).1⟩

end

end ExprLang
