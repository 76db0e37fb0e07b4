import ExprLang.Proofs.Parser.Braces
import ExprLang.Proofs.Positions
import ExprLang.Proofs.Templates

/-!
# Spans without a space

A span may be closed right behind its expression. Then it is expanded as it is with a space before its
closing brace, unless a single brace of the expression, the end of a map, is read together with the
closing one: such a span has no expression and fails (`Template.expandFrom_failed`).

* `Template.expandFrom_same`: what a template stands for depends on the text ahead alone, not on where it is.
-/

namespace ExprLang

/-! ## Evaluations side by side -/

/-- Over a store both evaluations succeed with related results, or both fail; the store stays. -/
def Evaluation.Together {α β : Type} (R : α → β → Prop) (s : Store) (x : Evaluation α) (y : Evaluation β) : Prop :=
  ∀ c d : Context, c.store = s → d.store = s →
    (x c).2.store = s ∧ (y d).2.store = s ∧ Outcome.Both R (x c).1 (y d).1

namespace Evaluation.Together

variable {α β γ δ : Type} {R : α → β → Prop} {Q : γ → δ → Prop} {s : Store}

theorem result {r : Except Error α} {t : Except Error β} (h : Outcome.Both R r t) :
    Together R s (Evaluation.result r) (Evaluation.result t) := fun _ _ hc hd => ⟨hc, hd, h⟩

theorem pure {a : α} {b : β} (h : R a b) : Together R s (Pure.pure a) (Pure.pure b) := result (.ok h)

theorem bind {x : Evaluation α} {y : Evaluation β} {k : α → Evaluation γ} {l : β → Evaluation δ}
    (h : Together R s x y) (hk : ∀ a b, R a b → Together Q s (k a) (l b)) : Together Q s (x >>= k) (y >>= l) := by
  intro c d hc hd
  obtain ⟨hs, ht, hboth⟩ := h c d hc hd
  rw [bind_apply, bind_apply]
  rcases hx : x c with ⟨o, c'⟩
  rcases hy : y d with ⟨o', d'⟩
  rw [hx] at hs hboth
  rw [hy] at ht hboth
  cases hboth with
  | ok hab => exact hk _ _ hab c' d' hs ht
  | error e e' => exact ⟨hs, ht, .error e e'⟩

/-- Two evaluations that compute the same. -/
theorem of_yields {f : α → γ} {g : β → γ} {x : Evaluation α} {y : Evaluation β} {r : Except Error γ}
    (hx : Yields f x s r) (hy : Yields g y s r) : Together (fun a b => f a = g b) s x y := by
  intro c d hc hd
  obtain ⟨hs, hagrees⟩ := hx c hc
  obtain ⟨ht, hagrees'⟩ := hy d hd
  exact ⟨hs, ht, (Outcome.Both.refl r).of_agrees hagrees hagrees'⟩

end Evaluation.Together

/-! ## The same text ahead -/

theorem Cursor.expectCharacter_same {c d : Cursor} (h : d.rest = c.rest) (x : Char) :
    Outcome.Both (fun _ _ => (d.expectCharacter x).2.rest = (c.expectCharacter x).2.rest) (c.expectCharacter x).1
      (d.expectCharacter x).1 := by
  have hskip : d.skipGap.rest = c.skipGap.rest := congrArg (fun r => (Lexeme.gap r).2) h
  unfold expectCharacter
  rw [hskip]
  split
  · exact .ok rfl
  · have hfail (b : Cursor) : ∃ err, (do
        let t ← b.skipGap.peek
        .error (.parse t.location (.missingCharacter x t.kind t.data)) : Except Error Unit) = .error err := by
      cases b.skipGap.peek with
      | ok t => exact ⟨_, rfl⟩
      | error err => exact ⟨err, rfl⟩
    obtain ⟨e, he⟩ := hfail c
    obtain ⟨e', he'⟩ := hfail d
    rw [he, he']
    exact .error e e'

namespace Template

open Evaluation (Together)

variable {c d : Cursor} {s : Store}

theorem span_of_read {e : Expr} {k : Cursor} (h : Expr.read .lenient c = (.ok e, k)) :
    span c = do
      Evaluation.result (k.expectCharacter '\x7d').1
      return (← valueText e, (k.expectCharacter '\x7d').2) := by
  unfold span valueText
  simp only [h, Evaluation.result_bind, bind_assoc, pure_bind]

theorem span_of_error {err : Error} {k : Cursor} (h : Expr.read .lenient c = (.error err, k)) :
    span c = Evaluation.result (.error err) := by
  unfold span
  rw [h]
  rfl

theorem valueText_same {e f : Expr} (h : f.unplaced = e.unplaced) : Together (· = ·) s (valueText e) (valueText f) := by
  have hdenotes := valueText_denotes f s
  rw [Expr.denote_eq_of_unplaced_eq h] at hdenotes
  intro a b ha hb
  obtain ⟨hs, ht, hboth⟩ := Together.of_yields (valueText_denotes e s) hdenotes a b ha hb
  refine ⟨hs, ht, ?_⟩
  generalize (valueText e a).1 = r at hboth
  generalize (valueText f b).1 = r' at hboth
  cases hboth with
  | ok h => exact .ok (String.ofList_injective h)
  | error e e' => exact .error e e'

/-- A span puts the same text into the template wherever it is, and what follows it is the same. -/
theorem span_same (h : d.rest = c.rest) :
    Together (fun p q => p.1 = q.1 ∧ q.2.rest = p.2.rest) s (span c) (span d) := by
  rcases hc : Expr.read .lenient c with ⟨err | e, k⟩
  · rcases hd : Expr.read .lenient d with ⟨err' | f, k'⟩
    · rw [span_of_error hc, span_of_error hd]
      exact .result (.error err err')
    · obtain ⟨_, _, hread, _⟩ := Expr.read_same h.symm hd
      cases hc.symm.trans hread
  · obtain ⟨f, k', hd, hf, hk⟩ := Expr.read_same h hc
    rw [span_of_read hc, span_of_read hd]
    refine (Together.result (Cursor.expectCharacter_same hk '\x7d')).bind fun _ _ hrest => ?_
    exact (valueText_same hf).bind fun v w hvw => .pure ⟨hvw, hrest⟩

/-- What a template stands for depends on the text ahead alone. -/
theorem expandFrom_same (n : Nat) (h : d.rest = c.rest) : Together (· = ·) s (expandFrom n c) (expandFrom n d) := by
  induction n generalizing c d with
  | zero => exact .pure rfl
  | succ n ih =>
    have hhost : d.hostText.1 = c.hostText.1 ∧ d.hostText.2.1 = c.hostText.2.1 ∧ d.hostText.2.2.rest = c.hostText.2.2.rest := by
      unfold Cursor.hostText
      rw [h]
      exact ⟨rfl, rfl, rfl⟩
    rw [expandFrom, expandFrom]
    generalize c.hostText = p at hhost
    generalize d.hostText = q at hhost
    obtain ⟨opened, text, k⟩ := p
    obtain ⟨_, _, k'⟩ := q
    obtain ⟨rfl, rfl, hk⟩ := hhost
    dsimp only
    split
    · refine (span_same hk).bind fun p q hpq => ?_
      obtain ⟨hvalue, hrest⟩ := hpq
      exact (ih hrest).bind fun v w hvw => .pure (by rw [hvalue, hvw])
    · exact .pure rfl

/-! ## Enough spans -/

theorem length_hostText (c : Cursor) (h : c.hostText.1 = true) : c.hostText.2.2.rest.length < c.rest.length := by
  have hspan : ∀ cs, (host cs).span.isSome = true → ((host cs).span.getD []).length < cs.length := by
    intro cs hsome
    fun_induction host cs with
    | case1 => cases hsome
    | case2 r ih =>
      have hlength := ih hsome
      simp only [List.length_cons]
      exact hlength.trans (by omega)
    | case3 r => exact Nat.lt_succ_of_lt (Nat.lt_succ_self _)
    | case4 c r _ _ ih => exact (ih hsome).trans (by simp)
  exact hspan c.rest h

theorem length_rest_of_read {e : Expr} {k : Cursor} (h : Expr.read .lenient c = (.ok e, k)) :
    (k.expectCharacter '\x7d').2.rest.length ≤ c.rest.length := by
  have hread : c.Reaches k := by
    have hreaches := c.reaches_parse .lenient
    rwa [h] at hreaches
  have hexpect : k.Reaches (k.expectCharacter '\x7d').2 := by
    rw [← Cursor.expectByte_toUInt8 (x := '\x7d') (by decide)]
    exact k.reaches_expectByte _
  obtain ⟨text, htext, _⟩ := hread.trans hexpect
  rw [htext, List.length_append]
  omega

/-- More spans than characters make no difference. -/
theorem expandFrom_enough {m n : Nat} (hm : c.rest.length < m) (hn : c.rest.length < n) :
    expandFrom m c = expandFrom n c := by
  induction m generalizing n c with
  | zero => cases hm
  | succ m ih =>
    obtain ⟨n, rfl⟩ := Nat.exists_eq_add_one.2 (Nat.zero_lt_of_lt hn)
    rw [expandFrom, expandFrom]
    have hlength := length_hostText c
    generalize c.hostText = p at hlength
    obtain ⟨opened, text, k⟩ := p
    dsimp only at hlength ⊢
    cases opened with
    | false => rfl
    | true =>
      rcases hread : Expr.read .lenient k with ⟨err | e, k'⟩
      · rw [span_of_error hread]
        rfl
      · have hrest := length_rest_of_read hread
        have hshorter := hlength rfl
        have hsame := ih (c := (k'.expectCharacter '\x7d').2) (n := n) (by omega) (by omega)
        rw [span_of_read hread]
        simp only [if_true, bind_assoc, pure_bind, hsame]

/-! ## Closing a span -/

/-- Host text that begins with a span. -/
def spanned (content rest : String) : String := "$\x7b" ++ content ++ "\x7d" ++ rest

theorem toList_spanned (content rest : String) :
    (spanned content rest).toList = '$' :: '\x7b' :: (content.toList ++ '\x7d' :: rest.toList) := by
  simp [spanned]

theorem hostText_spanned {cs : List Char} (h : c.rest = '$' :: '\x7b' :: cs) :
    ∃ k, c.hostText = (true, [], k) ∧ k.rest = cs := by
  unfold Cursor.hostText
  rw [h]
  exact ⟨_, rfl, rfl⟩

/-- What spans with the same expression and the same text behind them have been expanded to. -/
theorem expandFrom_spanned {P Q : List Char → Prop} {text : String} {e : Expr} {x y r : List Char} (n : Nat)
    (he : Expr.parse text = .ok e) (hx : Lexeme.Separates P x) (hP : P text.toList)
    (hxr : (Lexeme.gap x).2 = '\x7d' :: r) (hy : Lexeme.Separates Q y) (hQ : Q text.toList)
    (hyr : (Lexeme.gap y).2 = '\x7d' :: r) (hc : c.rest = '$' :: '\x7b' :: (text.toList ++ x))
    (hd : d.rest = '$' :: '\x7b' :: (text.toList ++ y)) :
    Together (· = ·) s (expandFrom (n + 1) c) (expandFrom (n + 1) d) := by
  obtain ⟨k, hhost, hk⟩ := hostText_spanned hc
  obtain ⟨k', hhost', hk'⟩ := hostText_spanned hd
  obtain ⟨f, a, hf, ha, hspan⟩ := span_eq_of_separates hx hP hxr he hk
  obtain ⟨f', a', hf', ha', hspan'⟩ := span_eq_of_separates hy hQ hyr he hk'
  rw [expandFrom, expandFrom, hhost, hhost']
  simp only [if_true, hspan, hspan', bind_assoc, pure_bind]
  refine (valueText_same (hf'.trans hf.symm)).bind fun v w hvw => ?_
  exact (expandFrom_same n (ha'.trans ha.symm)).bind fun t t' ht => .pure (by rw [hvw, ht])

theorem expandFrom_failed {text : String} {e : Expr} {r : List Char} (n : Nat) (he : Expr.parse text = .ok e)
    (hslash : Lexeme.Slashless text.toList) (hodd : Lexeme.closingBraces text.toList % 2 = 1)
    (hc : c.rest = '$' :: '\x7b' :: (text.toList ++ '\x7d' :: r)) (ctx : Context) :
    ∃ err, (expandFrom (n + 1) c ctx).1 = .error err := by
  obtain ⟨k, hhost, hk⟩ := hostText_spanned hc
  obtain ⟨err, k', hread⟩ := Expr.read_brace he hslash hodd hk
  refine ⟨err, ?_⟩
  rw [expandFrom, hhost]
  simp only [if_true, span_of_error hread]
  rfl

theorem expand_fst (template : String) (c : Context) : (expand template c).1 =
    String.ofList <$> (expandFrom ((Cursor.start template .start).rest.length + 1) (Cursor.start template .start) c).1 :=
  rfl

/-- A span that is closed right behind an expression without comments is expanded as it is with a space before its closing
brace, if the expression ends in an even number of braces. Otherwise it fails. -/
theorem expand_spanned {text : String} {e : Expr} (rest : String) (c : Context) (he : Expr.parse text = .ok e)
    (hslash : Lexeme.Slashless text.toList) :
    (expand (spanned text rest) c).1.toOption =
      if Lexeme.closingBraces text.toList % 2 = 0 then (expand (spanned (text ++ " ") rest) c).1.toOption else none := by
  have htight : (Cursor.start (spanned text rest) .start).rest =
      '$' :: '\x7b' :: (text.toList ++ '\x7d' :: rest.toList) := toList_spanned text rest
  have hspaced : (Cursor.start (spanned (text ++ " ") rest) .start).rest =
      '$' :: '\x7b' :: (text.toList ++ ' ' :: '\x7d' :: rest.toList) := by
    refine (toList_spanned (text ++ " ") rest).trans ?_
    rw [String.toList_append, List.append_assoc]
    rfl
  rw [expand_fst, expand_fst]
  generalize Cursor.start (spanned text rest) .start = a at htight
  generalize Cursor.start (spanned (text ++ " ") rest) .start = b at hspaced
  split
  · next heven =>
    have hlength : a.rest.length < b.rest.length + 1 := by
      rw [htight, hspaced]
      simp only [List.length_cons, List.length_append]
      omega
    rw [expandFrom_enough (Nat.lt_succ_self _) hlength]
    have hsame := expandFrom_spanned (s := c.store) b.rest.length he (Lexeme.separates_brace _) ⟨hslash, heven⟩ rfl
      (Lexeme.separates_space _) hslash rfl htight hspaced
    obtain ⟨-, -, hboth⟩ := hsame c c rfl rfl
    exact (hboth.map _).toOption_eq
  · next hodd =>
    obtain ⟨err, herr⟩ := expandFrom_failed a.rest.length he hslash (by omega) htight c
    rw [herr]
    rfl

/-- A switch before a brace of the host text and another span, and a map in the same place. -/
theorem expand_spanned_switch :
    let c := Context.ofStore [("x", .boolean false), ("y", .string "\x7d")] 0
    let switch := "\x7b\x7bx -> \x7ba: y\x7d, y\x7d\x7d"
    let map := "x && \x7ba: y\x7d"
    let rest := "\x7d$\x7by\x7d"
    (∃ e, Expr.parse switch = .ok e ∧ Lexeme.Slashless switch.toList ∧
      (expand (spanned switch rest) c).1.toOption = some "\x7d\x7d\x7d") ∧
      ∃ e, Expr.parse map = .ok e ∧ Lexeme.Slashless map.toList ∧ (expand (spanned map rest) c).1.toOption = none := by
  intro c switch map rest
  obtain ⟨e, he⟩ : ∃ e, Expr.parse switch = .ok e := Except.exists_ok_of_isSome (by decide +kernel)
  obtain ⟨f, hf⟩ : ∃ f, Expr.parse map = .ok f := Except.exists_ok_of_isSome (by decide +kernel)
  have hswitch : Lexeme.Slashless switch.toList := by decide +kernel
  have hmap : Lexeme.Slashless map.toList := by decide +kernel
  refine ⟨⟨e, he, hswitch, ?_⟩, f, hf, hmap, ?_⟩
  · rw [expand_spanned rest c he hswitch, if_pos (by decide +kernel)]
    decide +kernel
  · rw [expand_spanned rest c hf hmap, if_neg (by decide +kernel)]

/-- A map needs a space before the brace that closes its span: it is not so that a space is never needed. -/
theorem expand_spanned_map : ¬ ∀ (text rest : String) (e : Expr) (c : Context), Expr.parse text = .ok e →
    Lexeme.Slashless text.toList →
    (expand (spanned text rest) c).1.toOption = (expand (spanned (text ++ " ") rest) c).1.toOption := by
  intro h
  obtain ⟨e, he⟩ : ∃ e, Expr.parse "false && \x7ba:1\x7d" = .ok e := Except.exists_ok_of_isSome (by decide +kernel)
  have hsame := h "false && \x7ba:1\x7d" "" e (Context.ofStore [] 0) he (by decide +kernel)
  have htight : (expand (spanned "false && \x7ba:1\x7d" "") (Context.ofStore [] 0)).1.toOption = none := by
    decide +kernel
  have hspaced : (expand (spanned ("false && \x7ba:1\x7d" ++ " ") "") (Context.ofStore [] 0)).1.toOption =
      some "false" := by decide +kernel
  rw [htight, hspaced] at hsame
  cases hsame

end Template

end ExprLang
