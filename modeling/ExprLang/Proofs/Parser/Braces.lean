import ExprLang.Proofs.Parser.Continued
import ExprLang.Proofs.Parser.Forks

/-!
# Sources before a closing brace

A text may end in closing braces, and more may stand behind it. From the left, braces are read in
pairs: so a brace behind the text is read on its own if the text ends in an even number of braces, and
together with the last brace of the text otherwise.

* `Lexeme.closingBraces_front`: each lexeme leaves the number of braces at the end even or odd, as it is.
* `Lexeme.separates_brace`: a brace separates a text that ends in an even number of braces.
* `Expr.read_brace`: behind an expression that ends in an odd number no expression is read at all.
-/

namespace ExprLang

/-! ## Braces at the end of a text -/

namespace Lexeme

variable {cs rest : List Char} {l : Lexeme}

/-- The number of closing braces at the very end of a text. -/
def closingBraces (cs : List Char) : Nat := (cs.reverse.takeWhile (· == '\x7d')).length

theorem closingBraces_append (cs ds : List Char) :
    closingBraces (cs ++ ds) = if closingBraces ds = ds.length then closingBraces cs + ds.length else closingBraces ds := by
  unfold closingBraces
  rw [List.reverse_append, List.takeWhile_append, List.length_reverse]
  split
  · rw [List.length_append, List.length_reverse, Nat.add_comm]
  · rfl

/-- Only a closing brace at the end makes a difference. -/
theorem closingBraces_of_getLast (h : ∀ c ∈ cs.getLast?, c ≠ '\x7d') : closingBraces cs = 0 := by
  unfold closingBraces
  rw [List.getLast?_eq_head?_reverse] at h
  cases hr : cs.reverse with
  | nil => rfl
  | cons c r =>
    rw [hr] at h
    simp [h c rfl]

/-- What is in front of a text and does not end in a closing brace is not counted. -/
theorem closingBraces_behind {ds : List Char} (h : closingBraces ds = 0) (cs : List Char) :
    closingBraces (ds ++ cs) = closingBraces cs := by
  rw [closingBraces_append]
  split <;> omega

theorem eq_brace_of_closingBraces (h : closingBraces cs = cs.length) : ∀ c ∈ cs, c = '\x7d' := by
  intro c hc
  have htake : cs.reverse.takeWhile (· == '\x7d') = cs.reverse :=
    (List.takeWhile_prefix _).eq_of_length (by rw [List.length_reverse]; exact h)
  rw [← List.mem_reverse, ← htake] at hc
  exact beq_iff_eq.1 (List.all_eq_true.1 List.all_takeWhile c hc)

theorem number_ne_brace {ds f x : List Char} (hd : Numeral.IsDigits ds) (hf : Numeral.IsFraction f)
    (hx : Numeral.IsExponent x) : ∀ c ∈ ds ++ f ++ x, c ≠ '\x7d' := by
  have hdigits : ∀ {ds : List Char}, Numeral.IsDigits ds → '\x7d' ∉ ds := fun hds hc => by cases hds.2 _ hc
  rintro _ hc rfl
  rcases List.mem_append.1 hc with hc | hc
  · rcases List.mem_append.1 hc with hc | hc
    · exact hdigits hd hc
    · rcases hf with rfl | ⟨es, hes, rfl⟩
      · cases hc
      · exact hdigits hes ((List.mem_cons.1 hc).resolve_left (by decide))
  · rcases hx with rfl | ⟨c, sg, es, hc', hsg, hes, rfl⟩
    · cases hc
    · rcases List.mem_cons.1 hc with rfl | hc
      · exact absurd hc' (by decide)
      · rcases List.mem_append.1 hc with hc | hc
        · rcases hsg with rfl | rfl | rfl <;> exact absurd hc (by decide)
        · exact hdigits hes hc

/-- A lexeme that ends in a closing brace is one brace or two. -/
theorem closingBraces_text (h : front cs = .lexeme l rest) :
    closingBraces l.text = 0 ∨ l.text = ['\x7d', '\x7d'] ∨ l.text = ['\x7d'] ∧ rest.head? ≠ some '\x7d' := by
  have hplain : (∀ c ∈ l.text, c ≠ '\x7d') → closingBraces l.text = 0 :=
    fun h => closingBraces_of_getLast fun c hc => h c (List.mem_of_getLast? hc)
  obtain ⟨c, r, rfl, ⟨hc, body, hq, rfl⟩ | ⟨hd, hn, _, _⟩ | ⟨_, rfl, _⟩ | ⟨hs, rfl⟩⟩ := front_cases h
  · obtain ⟨data, rfl⟩ := quoted_closed hq
    refine .inl (closingBraces_of_getLast fun d hlast => ?_)
    have hlast : (c :: data ++ [c]).getLast? = some d := hlast
    rw [List.getLast?_concat] at hlast
    cases hlast
    rintro rfl
    exact absurd hc (by decide)
  · obtain ⟨ds, f, x, htext, hds, hf, hx⟩ := number_parts (r := r) hd
    rw [hn] at htext
    refine .inl (hplain ?_)
    rw [show l.text = ds ++ f ++ x from htext]
    exact number_ne_brace hds hf hx
  · refine .inl (hplain ?_)
    rintro _ hc rfl
    cases List.all_eq_true.1 List.all_takeWhile _ hc
  · have hsigns : ∀ s ∈ signs, closingBraces s.1 = 0 ∨ s.1 = ['\x7d', '\x7d'] ∨ s.1 = ['\x7d'] := by decide
    refine (hsigns _ (sign?_kind hs)).imp_right (.imp_right fun htext => ⟨htext, fun hhead => ?_⟩)
    -- two braces would have been read together
    have htext : l.text = ['\x7d'] := htext
    have happ := (front_lexeme h).2
    rw [htext] at happ hhead
    obtain ⟨t, ht⟩ := List.head?_eq_some_iff.1 hhead
    have htwo : sign? ('\x7d' :: '\x7d' :: t) = some ⟨.closeSwitch, ['\x7d', '\x7d']⟩ := rfl
    rw [ht] at happ
    rw [← happ] at hs
    cases htwo.symm.trans hs
    cases htext

/-- Lexemes take the braces at the end two at a time, until a single one is left. -/
theorem closingBraces_front (h : front cs = .lexeme l rest) (hne : cs ≠ ['\x7d']) :
    closingBraces rest % 2 = closingBraces cs % 2 := by
  have happ := (front_lexeme h).2
  rcases closingBraces_text h with hzero | htext | ⟨htext, hhead⟩
  · rw [← happ, closingBraces_behind hzero]
  · rw [← happ, htext, closingBraces_append]
    split
    · next hall =>
      have htwo : closingBraces ['\x7d', '\x7d'] = 2 := rfl
      omega
    · rfl
  · rw [← happ, htext, closingBraces_append, if_neg]
    intro hall
    cases rest with
    | nil =>
      rw [htext] at happ
      exact hne happ.symm
    | cons c r => exact hhead (congrArg some (eq_brace_of_closingBraces hall c List.mem_cons_self))

theorem isGapSpace_of_slashless (h : Slashless cs) : ∀ c ∈ (gap cs).1, isGapSpace c = true := by
  have hgap : ∀ inside, inside = false → ∀ c ∈ (gapFrom inside cs).1, isGapSpace c = true := by
    intro inside hinside
    fun_induction gapFrom inside cs with
    | case1 => simp
    | case2 => cases hinside
    | case3 r => exact absurd ⟨[], r, rfl⟩ h
    | case4 c r _ hspace ih => exact List.forall_mem_cons.2 ⟨hspace, ih (.of_append (s := [c]) h) rfl⟩
    | case5 => simp
  exact hgap false rfl

theorem closingBraces_gap (h : Slashless cs) : closingBraces (gap cs).2 = closingBraces cs := by
  have hspaces : closingBraces (gap cs).1 = 0 := closingBraces_of_getLast fun c hc hbrace => by
    have hspace := isGapSpace_of_slashless h c (List.mem_of_getLast? hc)
    rw [hbrace] at hspace
    cases hspace
  rw [← closingBraces_behind hspaces, gap_append]

/-! ## A closing brace behind a text -/

theorem breaks_brace : Breaks '\x7d' := ⟨by decide, by decide, by decide⟩

/-- The only sign that goes on with a closing brace is the one that begins with it. -/
theorem sign_ne_brace (hnil : cs ≠ []) (hne : cs ≠ ['\x7d']) : ∀ s ∈ signs, ¬ cs ++ ['\x7d'] <+: s.1 := by
  have hsigns : ∀ s ∈ signs, ∀ p ∈ s.1.inits, p.getLast? = some '\x7d' → p.dropLast = [] ∨ p.dropLast = ['\x7d'] := by
    decide
  intro s hs hstart
  have hlast := hsigns s hs _ (List.mem_inits _ _ |>.2 hstart) List.getLast?_concat
  rw [List.dropLast_concat] at hlast
  exact hlast.elim hnil hne

theorem front_brace_continued (tail : List Char) (hne : cs ≠ ['\x7d']) (h : front cs = .lexeme l rest) :
    front (cs ++ '\x7d' :: tail) = .lexeme l (rest ++ '\x7d' :: tail) :=
  front_continued tail breaks_brace (sign_ne_brace (by rintro rfl; cases h) hne) h

/-- A text without comments whose last braces are even in number. -/
def Paired (cs : List Char) : Prop := Slashless cs ∧ closingBraces cs % 2 = 0

/-- A closing brace separates what does not leave a single brace before it. -/
theorem separates_brace (tail : List Char) : Separates Paired ('\x7d' :: tail) where
  gap h hgap := ⟨gapFrom_continued tail breaks_brace.slash hgap, h.1.gap, by rw [closingBraces_gap h.1]; exact h.2⟩
  through h hgap := gapFrom_through tail breaks_brace.slash (.inr ⟨rfl, h.1⟩) hgap
  front {cs rest l} h hl := by
    have hne : cs ≠ ['\x7d'] := by
      rintro rfl
      exact absurd h.2 (by decide)
    exact ⟨front_brace_continued tail hne hl, h.1.of_front hl, by rw [closingBraces_front hl hne]; exact h.2⟩

end Lexeme

/-- Where a single brace is left at the end, it is read together with the brace behind it. -/
theorem Tokens.forks_brace {c d : Cursor} {tail : List Char} (hslash : Lexeme.Slashless c.rest)
    (hodd : Lexeme.closingBraces c.rest % 2 = 1) (h : d.rest = c.rest ++ '\x7d' :: tail) : Forks (read c) (read d) := by
  fun_induction read c generalizing d with
  | case1 c l rest hfront _ ih =>
    have hslash' : Lexeme.Slashless c.skipGap.rest := hslash.gap
    have hodd' : Lexeme.closingBraces c.skipGap.rest % 2 = 1 := by
      rw [← hodd]
      exact congrArg (· % 2) (Lexeme.closingBraces_gap hslash)
    have hgap : (Lexeme.gap c.rest).2 ≠ [] := by
      intro hnil
      have hrest : c.skipGap.rest = [] := hnil
      rw [hrest] at hfront
      cases hfront
    have hskip : d.skipGap.rest = c.skipGap.rest ++ '\x7d' :: tail := by
      show (Lexeme.gap d.rest).2 = (Lexeme.gap c.rest).2 ++ '\x7d' :: tail
      rw [h]
      exact Lexeme.gapFrom_continued tail Lexeme.breaks_brace.slash hgap
    by_cases hone : c.skipGap.rest = ['\x7d']
    · rw [hone] at hfront hskip
      cases hfront
      have hfront' : Lexeme.front d.skipGap.rest = .lexeme ⟨.closeSwitch, ['\x7d', '\x7d']⟩ tail := by
        rw [hskip]
        rfl
      rw [read_lexeme hfront', read_ended rfl]
      exact .here rfl rfl
    · have hfront' : Lexeme.front d.skipGap.rest = .lexeme l (rest ++ '\x7d' :: tail) := by
        rw [hskip]
        exact Lexeme.front_brace_continued tail hone hfront
      rw [read_lexeme hfront']
      exact .token rfl (ih (hslash'.of_front hfront) ((Lexeme.closingBraces_front hfront hone).trans hodd') rfl)
  | case2 c hfront =>
    cases hc : Lexeme.front c.skipGap.rest with
    | ended =>
      have hnil : (Lexeme.gap c.rest).2 = [] := Lexeme.eq_nil_of_front hc
      rw [← Lexeme.closingBraces_gap hslash, hnil] at hodd
      cases hodd
    | lexeme l rest => exact absurd hc (hfront l rest)
    | fault f =>
      rw [← read_of_not_lexeme hfront, read_fault hc]
      exact .fault

/-- No expression is read where a single brace at the end of one is read together with the next brace. -/
theorem Expr.read_brace {text : String} {tail : List Char} {e : Expr} {d : Cursor} (h : Expr.parse text = .ok e)
    (hslash : Lexeme.Slashless text.toList) (hodd : Lexeme.closingBraces text.toList % 2 = 1)
    (hd : d.rest = text.toList ++ '\x7d' :: tail) : ∃ err k, Expr.read .lenient d = (.error err, k) := by
  obtain ⟨s', t, hreads, ht, hend⟩ := Expr.parse_iff.1 h
  have hforks : Tokens.Forks (Tokens.ofText text) (Tokens.read d) :=
    Tokens.forks_brace (c := Cursor.start text .start) hslash hodd hd
  cases hread : Expr.read .lenient d with
  | mk result k =>
    cases result with
    | error err => exact ⟨err, k, rfl⟩
    | ok f =>
      obtain ⟨w', hreads', _⟩ := Expr.read_lenient_iff.1 hread
      exact absurd hreads' (hforks.not_reads (Tokens.wf_ofText text) hreads ht hend)

end ExprLang
