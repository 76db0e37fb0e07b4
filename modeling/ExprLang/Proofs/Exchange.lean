import ExprLang.Proofs.Entries
import ExprLang.Proofs.Loading

/-!
# Exchanging lines of a binding file

What a line declares depends on the values of its own name and of the variables in its expression
(`declaration_congr`). So lines that use none of each other's names declare the same in both orders
(`outcomes_exchange`), and the lines after them see variables that differ in their order at most. For
the file as a whole this is `load_exchange`.
-/

namespace ExprLang.BindingFile

/-! ## Variables that count -/

theorem declaration_congr {vars vars' : Entries Value} {line : List Char}
    (h : ∀ p, readLine line 1 = .ok p → ∀ x, x = p.1 ∨ x ∈ p.2.names → Entries.find? vars' x = Entries.find? vars x) :
    declaration vars' line = declaration vars line := by
  unfold declaration
  cases hread : readLine line 1 with
  | error => rfl
  | ok p =>
    obtain ⟨name, e⟩ := p
    have hsame := h _ hread
    have hmeaning : e.denote .strict (fun x => (Entries.find? vars' x).getD .undefined) =
        e.denote .strict fun x => (Entries.find? vars x).getD .undefined :=
      Expr.denote_congr .strict fun x hx => congrArg (Option.getD · Value.undefined) (hsame x (.inr hx))
    have hcontains : Entries.contains vars' name = Entries.contains vars name :=
      congrArg Option.isSome (hsame name (.inl rfl))
    dsimp only
    rw [hmeaning, hcontains]

theorem outcomes_congr (ls : List (List Char × Nat)) {vars vars' : Entries Value}
    (h : ∀ x, Entries.find? vars' x = Entries.find? vars x) : outcomes ls vars' = outcomes ls vars := by
  induction ls generalizing vars vars' with
  | nil => rfl
  | cons l ls ih =>
    obtain ⟨line, number⟩ := l
    by_cases hbinding : isBinding line = true
    · have hline : declaration vars' line = declaration vars line := declaration_congr fun _ _ x _ => h x
      have hrest (x : String) : Entries.find? (vars' ++ (declaration vars line).toList) x =
          Entries.find? (vars ++ (declaration vars line).toList) x := by
        rw [Entries.find?_append, Entries.find?_append, h]
      rw [outcomes_cons hbinding, outcomes_cons hbinding, hline, ih hrest]
    · rw [outcomes_cons_of_not hbinding, outcomes_cons_of_not hbinding, ih h]

/-! ## Independent lines -/

/-- The name and the expression of a line that has them. -/
def binding? (line : List Char) : Option (String × Expr) :=
  if isBinding line then (readLine line 1).toOption else none

/-- The names are different, and neither expression mentions the name of the other line. -/
def Independent (l m : List Char) : Prop :=
  ∀ p ∈ binding? l, ∀ q ∈ binding? m, p.1 ≠ q.1 ∧ q.1 ∉ p.2.names ∧ p.1 ∉ q.2.names

instance (l m : List Char) : Decidable (Independent l m) :=
  decidable_of_iff (((binding? l).all fun p => (binding? m).all fun q =>
      decide (p.1 ≠ q.1 ∧ q.1 ∉ p.2.names ∧ p.1 ∉ q.2.names)) = true) <| by
    simp only [Option.all_eq_true, decide_eq_true_eq]
    exact Iff.rfl

section

variable {l m : List Char} {i j : Nat} {vars : Entries Value}

theorem Independent.symm (h : Independent l m) : Independent m l := by
  intro p hp q hq
  obtain ⟨hne, hl, hm⟩ := h q hq p hp
  exact ⟨hne.symm, hm, hl⟩

/-- A line declares its own name. -/
theorem binding?_of_declared {x : String} (h : x ∈ Entries.keys (declared [(l, i)] vars)) :
    ∃ e, (x, e) ∈ binding? l := by
  by_cases hbinding : isBinding l = true
  · rw [declared, outcomes_cons hbinding] at h
    cases hd : declaration vars l with
    | none =>
      rw [hd] at h
      exact absurd h List.not_mem_nil
    | some d =>
      rw [hd] at h
      obtain rfl : x = d.1 := List.mem_singleton.1 h
      obtain ⟨⟨e, hread⟩, -⟩ := declaration_some hd
      exact ⟨e, by rw [binding?, if_pos hbinding, hread]; rfl⟩
  · rw [declared, outcomes_cons_of_not hbinding] at h
    exact absurd h List.not_mem_nil

/-- A line does not see what an independent line before it declares. -/
theorem outcomes_independent (h : Independent l m) (i j : Nat) (vars : Entries Value) :
    outcomes [(m, j)] (vars ++ declared [(l, i)] vars) = outcomes [(m, j)] vars := by
  by_cases hbinding : isBinding m = true
  · have hdeclaration : declaration (vars ++ declared [(l, i)] vars) m = declaration vars m := by
      refine declaration_congr fun q hq x hx => Entries.find?_append_of_notMem fun hmem => ?_
      obtain ⟨e, he⟩ := binding?_of_declared hmem
      obtain ⟨hne, -, hm⟩ := h _ he q (by rw [binding?, if_pos hbinding, hq]; rfl)
      exact hx.elim hne hm
    rw [outcomes_cons hbinding, outcomes_cons hbinding, hdeclaration]
    rfl
  · rw [outcomes_cons_of_not hbinding, outcomes_cons_of_not hbinding]
    rfl

theorem find?_declared_exchange (h : Independent l m) (x : String) :
    Entries.find? (vars ++ declared [(m, i)] vars ++ declared [(l, j)] vars) x =
      Entries.find? (vars ++ declared [(l, j)] vars ++ declared [(m, i)] vars) x := by
  by_cases hx : x ∈ Entries.keys (declared [(l, j)] vars)
  · have hm : x ∉ Entries.keys (declared [(m, i)] vars) := fun hm => by
      obtain ⟨e, he⟩ := binding?_of_declared hx
      obtain ⟨f, hf⟩ := binding?_of_declared hm
      exact (h _ he _ hf).1 rfl
    rw [Entries.find?_append, Entries.find?_append_of_notMem hm, Entries.find?_append_of_notMem hm,
      Entries.find?_append]
  · rw [Entries.find?_append_of_notMem hx, Entries.find?_append, Entries.find?_append,
      Entries.find?_append_of_notMem hx]

/-- Independent lines give the same outcomes in both orders, and so do the lines after them. -/
theorem outcomes_exchange (h : Independent l m) (as bs : List (List Char × Nat)) (vars : Entries Value) :
    (outcomes (as ++ (m, i) :: (l, j) :: bs) vars).Perm (outcomes (as ++ (l, j) :: (m, i) :: bs) vars) := by
  have hsplit (l m : List Char) (i j : Nat) (vars : Entries Value) (h : Independent l m) :
      outcomes ((l, i) :: (m, j) :: bs) vars = outcomes [(l, i)] vars ++ (outcomes [(m, j)] vars ++
        outcomes bs (vars ++ declared [(l, i)] vars ++ declared [(m, j)] vars)) := by
    have hlines : (l, i) :: (m, j) :: bs = [(l, i)] ++ ([(m, j)] ++ bs) := rfl
    rw [hlines, outcomes_append, outcomes_append, declared.eq_1 [(m, j)], outcomes_independent h, declared.eq_1 [(m, j)]]
  rw [outcomes_append, outcomes_append, hsplit m l i j _ h.symm, hsplit l m j i _ h,
    outcomes_congr bs (find?_declared_exchange h)]
  exact (List.perm_append_comm_assoc _ _ _).append_left _

end

/-! ## Numbers -/

/-- The numbers of the lines do not matter. -/
theorem outcomes_renumbered (f : Nat → Nat) (ls : List (List Char × Nat)) (vars : Entries Value) :
    outcomes (ls.map fun l => (l.1, f l.2)) vars = (outcomes ls vars).map fun o => (f o.1, o.2) := by
  induction ls generalizing vars with
  | nil => rfl
  | cons l ls ih =>
    obtain ⟨line, number⟩ := l
    rw [List.map_cons]
    by_cases hbinding : isBinding line = true
    · rw [outcomes_cons hbinding, outcomes_cons hbinding, ih, List.map_cons]
    · rw [outcomes_cons_of_not hbinding, outcomes_cons_of_not hbinding, ih]

/-- Exchanging adjacent lines exchanges what stands in the lines, but not their numbers. -/
theorem numbered_exchange {text text' : String} {before after : List (List Char)} {l m : List Char}
    (h : Text.lines text.toList = before ++ l :: m :: after)
    (h' : Text.lines text'.toList = before ++ m :: l :: after) :
    ∃ as bs, numbered text' = as ++ (m, before.length + 1) :: (l, before.length + 2) :: bs ∧
      ((numbered text).map fun line => (line.1, Equiv.swap (before.length + 1) (before.length + 2) line.2)) =
        as ++ (l, before.length + 2) :: (m, before.length + 1) :: bs := by
  have hkept {as : List (List Char × Nat)} (has : ∀ a ∈ as, a.2 ≠ before.length + 1 ∧ a.2 ≠ before.length + 2) :
      as.map (fun line => (line.1, Equiv.swap (before.length + 1) (before.length + 2) line.2)) = as := by
    refine (List.map_congr_left fun a ha => ?_).trans (List.map_id as)
    exact Prod.ext rfl (Equiv.swap_apply_of_ne_of_ne (has a ha).1 (has a ha).2)
  have hbefore : ∀ a ∈ before.zipIdx 1, a.2 ≠ before.length + 1 ∧ a.2 ≠ before.length + 2 := by
    intro a ha
    have hlt := List.snd_lt_add_of_mem_zipIdx ha
    omega
  have hafter : ∀ b ∈ after.zipIdx (before.length + 3), b.2 ≠ before.length + 1 ∧ b.2 ≠ before.length + 2 := by
    intro b hb
    have hle := List.le_snd_of_mem_zipIdx hb
    omega
  have hnumbered (l m : List Char) : (before ++ l :: m :: after).zipIdx 1 = before.zipIdx 1 ++
      (l, before.length + 1) :: (m, before.length + 2) :: after.zipIdx (before.length + 3) := by
    rw [List.zipIdx_append, List.zipIdx_cons, List.zipIdx_cons, Nat.add_comm 1]
  refine ⟨before.zipIdx 1, after.zipIdx (before.length + 3), ?_, ?_⟩
  · rw [numbered, h', hnumbered]
  · rw [numbered, h, hnumbered, List.map_append, List.map_cons, List.map_cons, hkept hbefore, hkept hafter,
      Equiv.swap_apply_left, Equiv.swap_apply_right]

/-- Adjacent lines that do not use each other's names may change places: the variables of the file have the same values,
and the same lines fail. -/
theorem load_exchange {text text' : String} {before after : List (List Char)} {l m : List Char}
    (h : Text.lines text.toList = before ++ l :: m :: after)
    (h' : Text.lines text'.toList = before ++ m :: l :: after) (hindependent : Independent l m) :
    (∀ x, Entries.find? (load text').1.bare x = Entries.find? (load text).1.bare x) ∧
      ∀ n, Equiv.swap (before.length + 1) (before.length + 2) n ∈ (load text').2.map LineFault.line ↔
        n ∈ (load text).2.map LineFault.line := by
  let move := Equiv.swap (before.length + 1) (before.length + 2)
  obtain ⟨hvars, hfaults⟩ := load_outcomes text
  obtain ⟨hvars', hfaults'⟩ := load_outcomes text'
  obtain ⟨as, bs, hlines', hlines⟩ := numbered_exchange h h'
  have houtcomes : (outcomes (numbered text') []).Perm ((outcomes (numbered text) []).map fun o => (move o.1, o.2)) := by
    rw [← outcomes_renumbered, hlines, hlines']
    exact outcomes_exchange hindependent as bs []
  constructor
  · have hdeclared : (load text').1.bare.Perm (load text).1.bare := by
      rw [hvars, hvars', declared, declared]
      refine (houtcomes.filterMap _).trans (List.Perm.of_eq ?_)
      rw [List.filterMap_map]
      rfl
    exact Entries.find?_of_perm hdeclared (load text').1.nodup_bare
  · have hfailing : (failing (numbered text') []).Perm ((failing (numbered text) []).map move) := by
      rw [failing, failing]
      refine ((houtcomes.filter _).map _).trans (List.Perm.of_eq ?_)
      rw [List.filter_map, List.map_map, List.map_map]
      rfl
    intro n
    rw [hfaults, hfaults', hfailing.mem_iff]
    exact List.mem_map_of_injective move.injective

theorem load_exchange_undefined :
    Text.lines "x = 1\na = x + 1\nb = y\nc = a".toList =
        ["x = 1".toList] ++ "a = x + 1".toList :: "b = y".toList :: ["c = a".toList] ∧
      Text.lines "x = 1\nb = y\na = x + 1\nc = a".toList =
        ["x = 1".toList] ++ "b = y".toList :: "a = x + 1".toList :: ["c = a".toList] ∧
      Independent "a = x + 1".toList "b = y".toList ∧
      (∀ x, Entries.find? (load "x = 1\nb = y\na = x + 1\nc = a").1.bare x =
        Entries.find? (load "x = 1\na = x + 1\nb = y\nc = a").1.bare x) ∧
      ∀ n, Equiv.swap 2 3 n ∈ (load "x = 1\nb = y\na = x + 1\nc = a").2.map LineFault.line ↔
        n ∈ (load "x = 1\na = x + 1\nb = y\nc = a").2.map LineFault.line := by
  have hlines : Text.lines "x = 1\na = x + 1\nb = y\nc = a".toList =
      ["x = 1".toList] ++ "a = x + 1".toList :: "b = y".toList :: ["c = a".toList] := by decide +kernel
  have hlines' : Text.lines "x = 1\nb = y\na = x + 1\nc = a".toList =
      ["x = 1".toList] ++ "b = y".toList :: "a = x + 1".toList :: ["c = a".toList] := by decide +kernel
  have hindependent : Independent "a = x + 1".toList "b = y".toList := by decide +kernel
  exact ⟨hlines, hlines', hindependent, load_exchange hlines hlines' hindependent⟩

end ExprLang.BindingFile
