import ExprLang.Proofs.Folding.Meaning
import ExprLang.Proofs.Printing.Meaning
import ExprLang.Proofs.Printing.Shape

/-!
# The text of trees that were read, and of their foldings

The printer writes an open range as it is written as an index. Among several indices and in a folded
literal it gets between the brackets of an array, where none is read. Without such ranges

* `Expr.parse_canonical`: the text of a tree that was read is read again;
* `Expr.parse_optimize`: so is the text of its folding, and that means what the tree means if it is retold.
-/

namespace ExprLang.Expr

theorem parse_of_respelled {e : Expr} (h : e.Each Respelled) (hopen : e.isOpenRange = false) :
    ∃ u, parse e.text = .ok u ∧ u.unplaced = e.reread :=
  parse_of_spells ((spelled h).1 hopen)

/-! ## Trees that were read -/

theorem Leaf.closed {l : Option Location} {v : Value} (h : (literal l v).Leaf) : v.Closed := by
  rcases h with ⟨s, rfl⟩ | ⟨x, rfl⟩ | ⟨b, rfl⟩ | rfl <;> exact trivial

theorem closed_of_parse {text : String} {t : Expr} (h : parse text = .ok t) (hranges : t.rangesInSubscripts = true) :
    t.Each Closed := by
  obtain ⟨_, _, hread, _, _⟩ := parse_iff.1 h
  have hleaf : t.Each Leaf := readInvariant_leaf.each hread (Tokens.wf_ofText text)
  intro n hn
  cases n with
  | literal l v => exact Leaf.closed (hleaf _ hn)
  | array l items => exact fun e he => by simpa using List.all_eq_true.1 (List.all_eq_true.1 hranges _ hn) e he
  | _ => trivial

/-- The text of a tree that was read is read as what the tree is reread as, unless an open range is one of several
indices. -/
theorem parse_canonical {text : String} {t : Expr} (h : parse text = .ok t) (hranges : t.rangesInSubscripts = true) :
    ∃ u, parse t.text = .ok u ∧ u.unplaced = t.reread := by
  obtain ⟨hformed, hopen⟩ := formed_of_parse h
  have hclosed := closed_of_parse h hranges
  exact parse_of_respelled (fun n hn => ⟨(hformed n hn).1, (hformed n hn).2, hclosed n hn⟩) hopen

/-- Infinity is printed as a name; bounded ranges are several indices, an open range is one. -/
def indexedText : String := "-x[1e400, 2..-3][..5] -> \x7b\x7b ( '\\\x7d' ), \x7bk: [y]\x7d \x7d\x7d"

theorem parse_canonical_indices : ∃ t, parse indexedText = .ok t ∧ t.rangesInSubscripts = true ∧
    ∃ u, parse t.text = .ok u ∧ u.unplaced = t.reread := by
  have hranges : (parse indexedText).toOption.any rangesInSubscripts = true := by decide +kernel
  cases ht : parse indexedText with
  | error e =>
    rw [ht] at hranges
    cases hranges
  | ok t =>
    rw [ht] at hranges
    exact ⟨t, rfl, hranges, parse_canonical ht hranges⟩

/-- Between the brackets of several indices, an open range is not read again. -/
theorem parse_canonical_openRange : ¬ ∀ text t, parse text = .ok t → ∃ u, parse t.text = .ok u := by
  intro h
  have hrefused : (parse "x[1.., 2]").toOption.any (fun t => (parse t.text).toOption.isNone) = true := by
    decide +kernel
  cases ht : parse "x[1.., 2]" with
  | error e =>
    rw [ht] at hrefused
    cases hrefused
  | ok t =>
    obtain ⟨u, hu⟩ := h _ t ht
    rw [ht] at hrefused
    simp [Except.toOption, hu] at hrefused

/-! ## Foldings -/

theorem respelled_optimize {text : String} {t : Expr} (h : parse text = .ok t) (hclosed : t.optimize.Each Closed) :
    t.optimize.Each Respelled ∧ t.optimize.isOpenRange = false := by
  obtain ⟨hformed, hopen⟩ := formed_of_parse h
  have hshaped : t.optimize.Each Shaped := shaped_fold (fun n hn => (hformed n hn).1) t.nextMark
  have hkeyed : t.optimize.Keyed := foldInvariant_keyed.fold (fun n hn => (hformed n hn).2) t.nextMark
  exact ⟨fun n hn => ⟨hshaped n hn, hkeyed n hn, hclosed n hn⟩, (kept_fold t t.nextMark).openRange hopen⟩

/-- An array that lists the integers of a range is equal to it. -/
theorem equals_of_lists {v w : Value} (h : v.bare.Lists w.bare) : (v == w) = true := by
  obtain ⟨first, last, hfirst, hlast, hv, hw⟩ := h
  obtain ⟨m, c⟩ := v
  obtain ⟨n, d⟩ := w
  cases c with
  | array items =>
    cases d with
    | range r =>
      obtain rfl : r = .between first last := Content.range.inj (Value.mk.inj hw).2
      rw [Value.bare, bareItems_eq] at hv
      exact Value.integers_equals hfirst hlast (Content.array.inj (Value.mk.inj hv).2) m n
    | _ => cases hw
  | _ => cases hv

/-- The text of a folded tree is read again unless an open range has been folded into a literal. In every store
in which the folding is retold, what is read evaluates to the value of the tree, up to marks or for a range to an
equal array, or fails like the tree. -/
theorem parse_optimize {text : String} {t : Expr} (h : parse text = .ok t) (hclosed : t.optimize.Each Closed) :
    ∃ u, parse t.optimize.text = .ok u ∧ u.unplaced = t.optimize.reread ∧
      ∀ c d : Context, c.store = d.store → t.optimize.Each (Retold c.store) →
        Outcome.Both (fun v w => v.bare = w.bare ∨ (v == w) = true) (u.evaluate c).1 (t.evaluate d).1 := by
  obtain ⟨hrespelled, hopen⟩ := respelled_optimize h hclosed
  obtain ⟨u, hu, hreread⟩ := parse_of_respelled hrespelled hopen
  refine ⟨u, hu, hreread, fun c d hstore hretold => ?_⟩
  have hmeans : Outcome.Both Value.Restates (u.denote .strict c.store.values) (t.denote .strict c.store.values) := by
    rw [← u.denote_unplaced, hreread, ← denote_fold .strict c.store.values t t.nextMark]
    exact Outcome.Both.mono (denote_reread hretold) fun _ _ h => h.1
  have hyields := (run_yields .strict c.store u c rfl).2
  have hyields' := (run_yields .strict c.store t d hstore.symm).2
  exact (hmeans.of_agrees hyields hyields').mono fun _ _ h => h.imp_right equals_of_lists

/-- A range as an index, one that is compared and one as the last case, a negative number and undefined. -/
def foldedText : String := "\x7b\x7b x == (2..1) -> x[(0..1)] + [1.5 - 4, false -> 1], 1..3 \x7d\x7d"

/-- Numbers and nothing under the name that undefined is printed as. -/
def pairContext : Context := .ofStore [("x", .array [.number 2, .number 1])] 0

theorem parse_optimize_switch : ∃ t, parse foldedText = .ok t ∧ t.optimize.Each Closed ∧
    t.optimize.Each (Retold pairContext.store) ∧ ∃ u, parse t.optimize.text = .ok u ∧
      ∀ d : Context, pairContext.store = d.store →
        Outcome.Both (fun v w => v.bare = w.bare ∨ (v == w) = true) (u.evaluate pairContext).1 (t.evaluate d).1 := by
  have hconditions : (parse foldedText).toOption.any fun t =>
      decide (t.optimize.Each Closed) && decide (t.optimize.Each (Retold pairContext.store)) := by decide +kernel
  cases ht : parse foldedText with
  | error e =>
    rw [ht] at hconditions
    cases hconditions
  | ok t =>
    rw [ht] at hconditions
    obtain ⟨hclosed, hretold⟩ := Bool.and_eq_true_iff.1 hconditions
    have hclosed := of_decide_eq_true hclosed
    have hretold := of_decide_eq_true hretold
    obtain ⟨u, hu, -, heval⟩ := parse_optimize ht hclosed
    exact ⟨t, rfl, hclosed, hretold, u, hu, fun d hd => heval pairContext d hd hretold⟩

/-- An open range that is a literal index gets between brackets of its own. -/
theorem parse_optimize_openRange : ¬ ∀ text t, parse text = .ok t → ∃ u, parse t.optimize.text = .ok u ∧
    ∀ c d : Context, c.store = d.store →
      Outcome.Both (fun v w => v.bare = w.bare ∨ (v == w) = true) (u.evaluate c).1 (t.evaluate d).1 := by
  intro h
  have hrefused : (parse "x[1..]").toOption.any (fun t => (parse t.optimize.text).toOption.isNone) = true := by
    decide +kernel
  cases ht : parse "x[1..]" with
  | error e =>
    rw [ht] at hrefused
    cases hrefused
  | ok t =>
    obtain ⟨u, hu, _⟩ := h _ t ht
    rw [ht] at hrefused
    simp [Except.toOption, hu] at hrefused

end ExprLang.Expr
