import ExprLang.Proofs.Parser.Continued
import ExprLang.Template

/-!
# Templates that are put together

A template is put together from plain texts and the texts of expressions between them: the dollar
signs of a plain text are escaped, and each expression stands in a span, with a new line behind it in
case it ends in a comment.

* `Template.host_escape`: an escaped text is read as what it says, and then what follows it.
* `Template.span_eq`: a span is read up to its closing brace, and it is the expression that counts.
* `Template.expand_compose`: expanding the template puts the values of the expressions between the
  plain texts.
-/

namespace ExprLang

/-! ## Closing braces -/

/-- A closing brace is read alone or as the end of a switch. -/
theorem Lexeme.front_brace (r : List Char) :
    ∃ l rest, front ('\x7d' :: r) = .lexeme l rest ∧ l.kind ∈ [.closeBrace, .closeSwitch] := by
  cases r with
  | nil => exact ⟨_, _, rfl, by decide⟩
  | cons c r =>
    by_cases hc : '\x7d' = c
    · rw [← hc]
      exact ⟨⟨.closeSwitch, ['\x7d', '\x7d']⟩, r, rfl, by decide⟩
    · have hne : ('\x7d' == c) = false := beq_eq_false_iff_ne.2 hc
      have hs : sign? ('\x7d' :: c :: r) = some ⟨.closeBrace, ['\x7d']⟩ := by
        simp [sign?, signs, hne, List.find?, List.isPrefixOf]
      exact ⟨_, _, front_sign hs, by decide⟩

/-- Whatever follows a closing brace, an expression does not go on there. -/
theorem Tokens.closes_brace {x r : List Char} {w : Tokens} (hx : (Lexeme.gap x).2 = '\x7d' :: r) (h : At x w) :
    w.Closes := by
  obtain ⟨d, rfl, hgap⟩ := h
  have hskip : d.skipGap.rest = '\x7d' :: r := hgap.trans hx
  obtain ⟨l, rest, hfront, hkind⟩ := Lexeme.front_brace r
  rw [← hskip] at hfront
  rw [read_lexeme hfront]
  refine ⟨_, rfl, ?_⟩
  have hkinds : ∀ k ∈ [Token.Kind.closeBrace, .closeSwitch],
      k ∈ [.comma, .closeBracket, .closeBrace, .closeSwitch, .closeParen, .endOfInput] := by decide
  exact hkinds _ hkind

/-- A character behind a gap is taken off, and nothing else. -/
theorem Cursor.expectCharacter_gap {c : Cursor} {x : Char} {r : List Char} (h : (Lexeme.gap c.rest).2 = x :: r) :
    ∃ k, c.expectCharacter x = (.ok (), k) ∧ k.rest = r := by
  have hskip : c.skipGap.rest = x :: r := h
  refine ⟨c.skipGap.past [x] r, ?_, rfl⟩
  unfold expectCharacter
  rw [hskip]
  exact if_pos rfl

namespace Template

/-! ## Plain texts -/

/-- Host text that says a text. -/
def escape : List Char → List Char
  | [] => []
  | c :: r => if c = '$' then '\\' :: '$' :: escape r else c :: escape r

/-- No escaped text begins with a dollar sign. -/
theorem escape_append_ne (c : Char) (r t u : List Char) : escape (c :: r) ++ t ≠ '$' :: u := by
  by_cases hc : c = '$' <;> simp [escape, hc]

/-- An escaped text is read as what it says, unless its last backslash protects what follows. -/
theorem host_escape (s t : List Char) (h : s.getLast? = some '\\' → t.head? ≠ some '$') :
    host (escape s ++ t) = ⟨s ++ (host t).text, escape s ++ (host t).read, (host t).span⟩ := by
  induction s with
  | nil => rfl
  | cons c r ih =>
    have hr : r.getLast? = some '\\' → t.head? ≠ some '$' := by
      intro hlast
      apply h
      rw [List.getLast?_cons, hlast]
      rfl
    by_cases hc : c = '$'
    · rw [escape, if_pos hc, hc]
      show (host (escape r ++ t)).cons '$' ['\\', '$'] = _
      rw [ih hr]
      rfl
    · have hprotect : ∀ u, c = '\\' → escape r ++ t = '$' :: u → False := by
        intro u hbackslash hu
        -- a dollar sign behind the backslash is escaped itself, unless the text ends here
        cases r with
        | nil =>
          rw [escape, List.nil_append] at hu
          exact h (congrArg some hbackslash) (by rw [hu]; rfl)
        | cons d r => exact escape_append_ne d r t u hu
      rw [escape, if_neg hc, List.cons_append, host.eq_4 _ _ hprotect fun u hdollar _ => hc hdollar, ih hr]
      rfl

theorem hostText_last {s : List Char} {c : Cursor} (hc : c.rest = escape s) : ∃ k, c.hostText = (false, s, k) := by
  have hhost := host_escape s [] (fun _ => by simp)
  rw [List.append_nil] at hhost
  have htext : s ++ (host []).text = s := List.append_nil s
  unfold Cursor.hostText
  rw [hc, hhost]
  exact ⟨_, by rw [htext]; rfl⟩

theorem hostText_span {s r : List Char} {c : Cursor} (hs : s.getLast? ≠ some '\\')
    (hc : c.rest = escape s ++ '$' :: '\x7b' :: r) : ∃ k, c.hostText = (true, s, k) ∧ k.rest = r := by
  have hhost := host_escape s ('$' :: '\x7b' :: r) (fun hlast => absurd hlast hs)
  have htext : s ++ (host ('$' :: '\x7b' :: r)).text = s := List.append_nil s
  unfold Cursor.hostText
  rw [hc, hhost]
  exact ⟨_, by rw [htext]; rfl, rfl⟩

/-! ## Spans -/

/-- The text that an expression puts into a template. -/
def valueText (e : Expr) : Evaluation (List Char) := do
  let e ← fun (ctx : Context) => let (e, ctx) := ctx.adopt e; (.ok e, ctx)
  let v ← e.run .strict
  let text ← Evaluation.result v.toText
  return text.toList

/-- A span that holds the text of an expression is read up to its closing brace, if what is between them separates. What
it puts into the template is the text of the expression's value; only locations depend on where the span is. -/
theorem span_eq_of_separates {P : List Char → Prop} {text : String} {x r : List Char} {e : Expr} {c : Cursor}
    (hx : Lexeme.Separates P x) (hP : P text.toList) (hbrace : (Lexeme.gap x).2 = '\x7d' :: r)
    (h : Expr.parse text = .ok e) (hc : c.rest = text.toList ++ x) :
    ∃ f k, f.unplaced = e.unplaced ∧ k.rest = r ∧ span c = do return (← valueText f, k) := by
  obtain ⟨f, d, hread, hf, hgap⟩ := Expr.read_continued hx hP (fun _ => Tokens.closes_brace hbrace) h hc
  obtain ⟨k, hexpect, hk⟩ := Cursor.expectCharacter_gap (hgap.trans hbrace)
  refine ⟨f, k, hf, hk, ?_⟩
  unfold span valueText
  simp only [hread, hexpect, Evaluation.result_bind, bind_assoc, pure_bind]

theorem span_eq {text : String} {r : List Char} {e : Expr} {c : Cursor} (h : Expr.parse text = .ok e)
    (hc : c.rest = text.toList ++ '\n' :: '\x7d' :: r) :
    ∃ f k, f.unplaced = e.unplaced ∧ k.rest = r ∧ span c = do return (← valueText f, k) :=
  span_eq_of_separates (Lexeme.separates_newline _) trivial rfl h hc

/-- The value of an expression as text. -/
def textOf (c : Context) (text : String) : Except Error String := do
  let e ← Expr.parse text
  let v ← (e.evaluate c).1
  v.toText

open Evaluation (Yields)

/-- The objects that an expression is given do not change what it means. -/
theorem adopt_yields (e : Expr) (s : Store) : Yields (fun f : Expr => f.denote .strict s.values)
    (fun c : Context => let (f, c) := c.adopt e; (.ok f, c)) s (.ok (e.denote .strict s.values)) := by
  intro c hc
  refine ⟨hc, ?_⟩
  rw [← e.denote_stamp .strict s.values c.next]
  exact .ok (e.stamp c.next).1

theorem toText_yields (v : Value) (s : Store) :
    Yields String.ofList (do return (← Evaluation.result v.toText).toList) s v.bare.toText := by
  rw [v.toText_bare]
  intro c hc
  cases v.toText with
  | ok t =>
    have hok : Agrees String.ofList (.ok t.toList) (.ok (String.ofList t.toList)) := .ok t.toList
    rw [String.ofList_toList] at hok
    exact ⟨hc, hok⟩
  | error err => exact ⟨hc, .error rfl⟩

theorem valueText_denotes (e : Expr) (s : Store) :
    Yields String.ofList (valueText e) s (e.denote .strict s.values >>= Value.toText) := by
  refine (adopt_yields e s).bind (l := fun r => r >>= Value.toText) fun f => ?_
  exact (Expr.run_yields .strict s f).bind fun v => toText_yields v s

/-- What an expression puts into a template is the text that its value has outside, wherever it was read. -/
theorem valueText_yields {text : String} {e f : Expr} {c : Context} (h : Expr.parse text = .ok e)
    (hf : f.unplaced = e.unplaced) : Yields String.ofList (valueText f) c.store (textOf c text) := by
  have hstated : Agrees id (textOf c text) (f.denote .strict c.store.values >>= Value.toText) := by
    unfold textOf
    rw [h, Expr.denote_eq_of_unplaced_eq hf]
    refine (Expr.run_yields .strict c.store e c rfl).2.bind fun v => ?_
    rw [v.toText_bare]
    exact .refl _
  intro d hd
  obtain ⟨hstore, hagrees⟩ := valueText_denotes f c.store d hd
  exact ⟨hstore, hagrees.of_common hstated⟩

/-! ## Templates -/

/-- The template of plain texts, each before the text of an expression, and a last one. -/
def compose : List (String × String) → String → List Char
  | [], last => escape last.toList
  | (s, e) :: ps, last => escape s.toList ++ '$' :: '\x7b' :: (e.toList ++ '\n' :: '\x7d' :: compose ps last)

/-- The plain texts with what stands for the expressions between them. -/
def fill (value : String → Except Error String) : List (String × String) → String → Except Error String
  | [], last => .ok last
  | (s, e) :: ps, last => do return s ++ (← value e) ++ (← fill value ps last)

theorem length_compose (ps : List (String × String)) (last : String) : ps.length ≤ (compose ps last).length := by
  induction ps with
  | nil => exact Nat.zero_le _
  | cons p ps ih =>
    obtain ⟨s, e⟩ := p
    simp only [compose, List.length_append, List.length_cons]
    omega

variable {ps : List (String × String)} {last : String} {c : Context}

theorem expandFrom_yields (hend : ∀ p ∈ ps, p.1.toList.getLast? ≠ some '\\')
    (hparse : ∀ p ∈ ps, ∃ e, Expr.parse p.2 = .ok e) {n : Nat} {d : Cursor} (hn : ps.length < n)
    (hd : d.rest = compose ps last) :
    Yields String.ofList (expandFrom n d) c.store (fill (textOf c) ps last) := by
  -- each span takes one of the spans that are left, and so does the text behind the last
  induction ps generalizing n d with
  | nil =>
    obtain ⟨n, rfl⟩ := Nat.exists_eq_add_one.2 hn
    obtain ⟨k, hhost⟩ := hostText_last hd
    have hlast : Yields String.ofList (pure last.toList) c.store (.ok (String.ofList last.toList)) := .pure _
    rw [String.ofList_toList] at hlast
    rw [expandFrom, hhost, fill]
    exact hlast
  | cons p ps ih =>
    obtain ⟨n, rfl⟩ := Nat.exists_eq_add_one.2 (Nat.zero_lt_of_lt hn)
    obtain ⟨s, text⟩ := p
    obtain ⟨hs, hend⟩ := List.forall_mem_cons.1 hend
    obtain ⟨⟨e, he⟩, hparse⟩ := List.forall_mem_cons.1 hparse
    obtain ⟨k, hhost, hk⟩ := hostText_span hs hd
    obtain ⟨f, k', hf, hk', hspan⟩ := span_eq he hk
    have hn : ps.length < n := by
      rw [List.length_cons] at hn
      omega
    rw [expandFrom, hhost, fill]
    simp only [if_true, hspan, bind_assoc, pure_bind]
    refine (valueText_yields he hf).bind fun v => (ih hend hparse hn hk').bind fun rest => ?_
    have htext : String.ofList (s.toList ++ v ++ rest) = s ++ String.ofList v ++ String.ofList rest := by
      rw [String.ofList_append, String.ofList_append, String.ofList_toList]
    rw [← htext]
    exact .pure _

/-- Expanding a template that is put together gives the plain texts with the values of the expressions between them. It
fails if one of the expressions has no value that can be a text, for the cause that the first of them has. -/
theorem expand_compose (ps : List (String × String)) (last : String) (c : Context)
    (hend : ∀ p ∈ ps, p.1.toList.getLast? ≠ some '\\') (hparse : ∀ p ∈ ps, ∃ e, Expr.parse p.2 = .ok e) :
    Agrees id (expand (String.ofList (compose ps last)) c).1 (fill (textOf c) ps last) := by
  have hrest : (Cursor.start (String.ofList (compose ps last)) .start).rest = compose ps last := String.toList_ofList
  have hn : ps.length < (compose ps last).length + 1 := Nat.lt_succ_of_le (length_compose ps last)
  obtain ⟨-, hagrees⟩ := expandFrom_yields hend hparse hn hrest c rfl
  unfold expand
  simp only [hrest]
  exact hagrees.map

/-- Braces in the plain texts, in a map, in its key and in a comment. -/
theorem expand_compose_braces :
    let ps := [("$\x7b", "\x7b\"\x7d\": base\x7d[\"\x7d\"] // \x7d"), ("\x7d\x7d $", "base + \".$\"")]
    let c := Context.ofStore [("base", .string "e1m1")] 0
    (∀ p ∈ ps, p.1.toList.getLast? ≠ some '\\') ∧ (∀ p ∈ ps, ∃ e, Expr.parse p.2 = .ok e) ∧
      (expand (String.ofList (compose ps "\\")) c).1 = .ok "$\x7be1m1\x7d\x7d $e1m1.$\\" := by
  intro ps c
  have hend : ∀ p ∈ ps, p.1.toList.getLast? ≠ some '\\' := by decide
  have hread : ∀ p ∈ ps, (Expr.parse p.2).toOption.isSome = true := by decide +kernel
  have hparse : ∀ p ∈ ps, ∃ e, Expr.parse p.2 = .ok e := by
    intro p hp
    have hsome := hread p hp
    cases he : Expr.parse p.2 with
    | ok e => exact ⟨e, rfl⟩
    | error err =>
      rw [he] at hsome
      cases hsome
  have hfill : fill (textOf c) ps "\\" = .ok "$\x7be1m1\x7d\x7d $e1m1.$\\" := by decide +kernel
  have hagrees := expand_compose ps "\\" c hend hparse
  rw [hfill] at hagrees
  obtain ⟨t, ht, rfl⟩ := hagrees.exists_ok
  exact ⟨hend, hparse, ht⟩

end Template

end ExprLang
