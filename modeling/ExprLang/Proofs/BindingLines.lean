import ExprLang.BindingFile
import ExprLang.Proofs.Equality
import ExprLang.Proofs.Parser.Continued

/-!
# What binding lines declare

A line of a binding file declares one variable over those before it, or nothing (`declaration`). That
depends on the bare values of the variables alone: not on the objects and the trace that earlier lines
have left in the context, failing ones included, and not on the number of the line.

* `readLine_same`: the number of a line goes into locations only.
* `loadLine_effect`: one line, in any context.
* `loadLines_outcomes`: all lines, each over the variables that the lines before it have declared.
-/

namespace ExprLang

/-! ## Cursors before the same text -/

/-- Tokens that stand in different places at most. -/
def Token.Alike (t u : Token) : Prop := u.kind = t.kind ∧ u.data = t.data

namespace Cursor

variable {c d : Cursor}

theorem next_same (h : d.rest = c.rest) :
    Outcome.Both Token.Alike c.next.1 d.next.1 ∧ d.next.2.rest = c.next.2.rest := by
  have hskip : d.skipGap.rest = c.skipGap.rest := by
    show (Lexeme.gap d.rest).2 = (Lexeme.gap c.rest).2
    rw [h]
  unfold next
  rw [hskip]
  cases Lexeme.front c.skipGap.rest with
  | ended => exact ⟨.ok ⟨rfl, rfl⟩, hskip⟩
  | lexeme l rest => exact ⟨.ok ⟨rfl, rfl⟩, rfl⟩
  | fault f =>
    cases f with
    | unterminatedString => exact ⟨.error _ _, rfl⟩
    | _ => exact ⟨.error _ _, hskip⟩

theorem check_same {t u : Token} (h : t.Alike u) (ks : List Token.Kind) :
    Outcome.Both Token.Alike (check ks t) (check ks u) := by
  unfold check Token.isA
  rw [h.1]
  split
  · exact .ok h
  · exact .error _ _

theorem expect_same (ks : List Token.Kind) (h : d.rest = c.rest) :
    Outcome.Both Token.Alike (c.expect ks).1 (d.expect ks).1 ∧ (d.expect ks).2.rest = (c.expect ks).2.rest :=
  ⟨(next_same h).1.bind fun _ _ htu => check_same htu ks, (next_same h).2⟩

end Cursor

theorem Expr.read_strict_both {c d : Cursor} (h : d.rest = c.rest) :
    Outcome.Both (fun e f => f.unplaced = e.unplaced) (read .strict c).1 (read .strict d).1 := by
  cases he : (read .strict c).1 with
  | ok e =>
    obtain ⟨f, hf, hunplaced⟩ := read_strict_same h he
    rw [hf]
    exact .ok hunplaced
  | error e =>
    cases hf : (read .strict d).1 with
    | error e' => exact .error e e'
    | ok f =>
      obtain ⟨e', he', _⟩ := read_strict_same h.symm hf
      rw [he] at he'
      cases he'

/-! ## Variables by their bare values -/

namespace Store

variable (s : Store)

/-- The variables in the order in which they were declared. -/
def bare : Entries Value := Entries.mapValues Value.bare s.entries

theorem nodup_bare : Entries.Nodup s.bare := by
  rw [Entries.Nodup, bare, Entries.keys_mapValues]
  exact s.nodup

theorem values_eq : s.values = fun x => (Entries.find? s.bare x).getD .undefined := by
  funext x
  rw [values, lookup, bare, Entries.find?_mapValues]
  cases Entries.find? s.entries x <;> rfl

theorem contains_bare (x : String) : Entries.contains s.bare x = s.contains x := by
  rw [contains, Entries.contains, Entries.contains, bare, Entries.find?_mapValues, Option.isSome_map]

end Store

namespace BindingFile

/-! ## One line -/

/-- The name and the expression are those of the line in any other place, up to locations. -/
theorem readLine_same (line : List Char) (m n : Nat) :
    Outcome.Both (fun p q => q.1 = p.1 ∧ q.2.unplaced = p.2.unplaced) (readLine line m) (readLine line n) := by
  let c (number : Nat) : Cursor := ⟨line, 0, ⟨number, 1⟩⟩
  obtain ⟨hname, hrest⟩ := Cursor.expect_same [.name] (c := c m) (d := c n) rfl
  obtain ⟨hassign, hrest⟩ := Cursor.expect_same [.assign] hrest
  refine hname.bind fun t u htu => hassign.bind fun _ _ _ => (Expr.read_strict_both hrest).bind fun e f hef => ?_
  exact .ok ⟨by rw [htu.2], hef⟩

theorem readLine_name {line : List Char} {m : Nat} {name : String} {e : Expr} (h : readLine line m = .ok (name, e))
    (n : Nat) : ∃ f, readLine line n = .ok (name, f) := by
  have hsame := readLine_same line m n
  rw [h] at hsame
  generalize readLine line n = r at hsame ⊢
  cases hsame with
  | @ok _ q hq => exact ⟨q.2, congrArg Except.ok (Prod.ext hq.1 rfl)⟩

/-- What a line declares over variables: a name that is not among them, with a value other than undefined. -/
def declaration (vars : Entries Value) (line : List Char) : Option (String × Value) :=
  match readLine line 1 with
  | .error _ => none
  | .ok (name, e) =>
    match e.denote .strict fun x => (Entries.find? vars x).getD .undefined with
    | .error _ => none
    | .ok v => if v.isUndefined || Entries.contains vars name then none else some (name, v)

theorem declaration_some {vars : Entries Value} {line : List Char} {d : String × Value}
    (h : declaration vars line = some d) : (∃ e, readLine line 1 = .ok (d.1, e)) ∧ d.2.isUndefined = false := by
  unfold declaration at h
  split at h
  · cases h
  · next name e hread =>
    split at h
    · cases h
    · next v hv =>
      split at h
      · cases h
      · next hnew =>
        cases h
        rw [Bool.or_eq_true, not_or, Bool.not_eq_true] at hnew
        exact ⟨⟨e, hread⟩, hnew.1⟩

/-- What has become of a store: one more variable behind the others, or else an error and no change. -/
inductive Effect {ε : Type} (s : Store) : Option (String × Value) → Except ε Unit × Context → Prop
  | declared {d : String × Value} {c : Context} : c.store.bare = s.bare ++ [d] → Effect s (some d) (.ok (), c)
  | failed {e : ε} {c : Context} : c.store = s → Effect s none (.error e, c)

theorem declare_effect (name : String) (v : Value) (c : Context) :
    Effect c.store (if c.store.contains name then none else some (name, v.bare)) (c.declare name v) := by
  unfold Context.declare
  dsimp only
  by_cases hnew : c.store.contains name = true
  · have hrefused : (c.object v).2.store.declare name (c.object v).1 = .error (.alreadyDeclared name) := if_pos hnew
    rw [if_pos hnew, hrefused]
    exact .failed rfl
  · have hdeclared : (c.object v).2.store.declare name (c.object v).1 = .ok ⟨_, _⟩ := if_neg hnew
    have hfresh : ¬ Entries.contains c.store.entries name = true := hnew
    rw [if_neg hnew, hdeclared]
    refine .declared ?_
    show Entries.mapValues Value.bare (Entries.insertNew c.store.entries name (v.stamp c.next).1) = _
    rw [Entries.insertNew, if_neg hfresh, Entries.mapValues, List.map_append, List.map_singleton, Value.bare_stamp]
    rfl

theorem Effect.mapError {ε ε' : Type} {s : Store} {d : Option (String × Value)} {r : Except ε Unit × Context}
    (h : Effect s d r) (f : ε → ε') : Effect s d (r.1.mapError f, r.2) := by
  cases h with
  | declared h => exact .declared h
  | failed h => exact .failed h

/-- A line does what it declares, wherever it stands and whatever was evaluated before it. -/
theorem loadLine_effect (line : List Char) (number : Nat) (c : Context) :
    Effect c.store (declaration c.store.bare line) (loadLine line number c) := by
  have hsame := readLine_same line 1 number
  unfold loadLine declaration
  generalize readLine line 1 = r at hsame ⊢
  generalize readLine line number = r' at hsame ⊢
  cases hsame with
  | error => exact .failed rfl
  | @ok p q h =>
    obtain ⟨name, e⟩ := p
    obtain ⟨name', e'⟩ := q
    obtain ⟨hname, hunplaced⟩ := h
    obtain rfl : name' = name := hname
    obtain ⟨hstore, hagrees⟩ := Expr.run_yields .strict c.store (c.adopt e').1 (c.adopt e').2 rfl
    have hadopt : (c.adopt e').1 = (e'.stamp c.next).1 := rfl
    have hmeaning : (c.adopt e').1.denote .strict c.store.values =
        e.denote .strict fun x => (Entries.find? c.store.bare x).getD .undefined := by
      rw [hadopt, Expr.denote_stamp, Expr.denote_eq_of_unplaced_eq hunplaced, Store.values_eq]
    rw [hmeaning] at hagrees
    dsimp only
    generalize e.denote .strict _ = meaning at hagrees ⊢
    unfold Expr.evaluate
    rcases hrun : (c.adopt e').1.run .strict (c.adopt e').2 with ⟨outcome, c'⟩
    rw [hrun] at hstore hagrees
    cases hagrees with
    | error => exact .failed hstore
    | ok v =>
      dsimp only
      rw [Value.isUndefined_bare, Store.contains_bare]
      cases v.isUndefined with
      | true => exact .failed hstore
      | false =>
        have heffect := (declare_effect name' v c').mapError Fault.error
        rw [hstore] at heffect
        exact heffect

/-! ## All lines -/

/-- The numbers of the binding lines, each with what the line declares over the variables before it. -/
def outcomes : List (List Char × Nat) → Entries Value → List (Nat × Option (String × Value))
  | [], _ => []
  | (line, number) :: rest, vars =>
    if isBinding line then (number, declaration vars line) :: outcomes rest (vars ++ (declaration vars line).toList)
    else outcomes rest vars

/-- What the lines declare. -/
def declared (ls : List (List Char × Nat)) (vars : Entries Value) : Entries Value :=
  (outcomes ls vars).filterMap Prod.snd

/-- The numbers of the lines that declare nothing. -/
def failing (ls : List (List Char × Nat)) (vars : Entries Value) : List Nat :=
  ((outcomes ls vars).filter fun o => o.2.isNone).map Prod.fst

section

variable {line : List Char} {number : Nat} {ls : List (List Char × Nat)} {vars : Entries Value}

theorem outcomes_cons (h : isBinding line = true) : outcomes ((line, number) :: ls) vars =
    (number, declaration vars line) :: outcomes ls (vars ++ (declaration vars line).toList) := by
  rw [outcomes, if_pos h]

theorem outcomes_cons_of_not (h : ¬ isBinding line = true) :
    outcomes ((line, number) :: ls) vars = outcomes ls vars := by
  rw [outcomes, if_neg h]

end

/-- Lines that are loaded in any context extend its variables by what they declare; the faults are those of the lines
that declare nothing, in their order. -/
theorem loadLines_outcomes (ls : List (List Char × Nat)) (c : Context) :
    (loadLines ls c).2.store.bare = c.store.bare ++ declared ls c.store.bare ∧
      (loadLines ls c).1.map LineFault.line = failing ls c.store.bare := by
  induction ls generalizing c with
  | nil => exact ⟨(List.append_nil _).symm, rfl⟩
  | cons l ls ih =>
    obtain ⟨line, number⟩ := l
    rw [loadLines, declared, failing]
    split
    · next hbinding =>
      rw [outcomes_cons hbinding]
      have heffect := loadLine_effect line number c
      rcases hload : loadLine line number c with ⟨outcome, c'⟩
      rw [hload] at heffect
      obtain ⟨hvars, hfaults⟩ := ih c'
      generalize declaration c.store.bare line = d at heffect ⊢
      cases heffect with
      | @declared d _ hstore =>
        rw [hstore, declared, List.append_assoc] at hvars
        rw [hstore, failing] at hfaults
        exact ⟨hvars, hfaults⟩
      | failed hstore =>
        rw [hstore, declared] at hvars
        rw [hstore, failing] at hfaults
        simp only [Option.toList_none, List.append_nil]
        exact ⟨hvars, congrArg (number :: ·) hfaults⟩
    · next hother =>
      rw [outcomes_cons_of_not hother]
      exact ih c

theorem outcomes_append (as bs : List (List Char × Nat)) (vars : Entries Value) :
    outcomes (as ++ bs) vars = outcomes as vars ++ outcomes bs (vars ++ declared as vars) := by
  induction as generalizing vars with
  | nil => simp [declared, outcomes]
  | cons l as ih =>
    obtain ⟨line, number⟩ := l
    rw [List.cons_append, declared]
    by_cases hbinding : isBinding line = true
    · rw [outcomes_cons hbinding, outcomes_cons hbinding, ih, declared, List.append_assoc, List.cons_append]
      cases declaration vars line <;> rfl
    · rw [outcomes_cons_of_not hbinding, outcomes_cons_of_not hbinding, ih, declared]

end BindingFile

end ExprLang
