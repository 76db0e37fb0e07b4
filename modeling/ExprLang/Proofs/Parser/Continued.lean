import ExprLang.Proofs.Parser.Exact
import ExprLang.Proofs.Parser.Tracks
import ExprLang.Proofs.Printing.Scans
import Mathlib.Data.List.Find
import Mathlib.Data.List.Infix

/-!
# Sources that go on

What stands behind a text may leave the lexemes of the text as they are (`Lexeme.Separates`): a new
line ends a comment and continues no lexeme, and where there is no comment a space does as well.

* `Lexeme.front_continued`: a lexeme is found again in front of more text that does not continue it.
* `Tokens.tracks_continued`: the tokens of a text are those of the longer text up to where it ends.
* `Expr.read_continued`: so the text of an expression is read as that expression in a longer source.
-/

namespace ExprLang

namespace Lexeme

/-- A character that is neither a part of a word or a number nor the beginning of a comment. -/
structure Breaks (d : Char) : Prop where
  slash : d ≠ '/'
  point : d ≠ '.'
  word : isWordPart d = false

variable {d : Char} {cs rest : List Char} (tail : List Char)

/-! ## Gaps -/

/-- A gap that ends before the text does ends there in the longer text too. -/
theorem gapFrom_continued (hd : d ≠ '/') {inside : Bool} (h : (gapFrom inside cs).2 ≠ []) :
    (gapFrom inside (cs ++ d :: tail)).2 = (gapFrom inside cs).2 ++ d :: tail := by
  fun_induction gapFrom inside cs with
  | case1 => exact absurd rfl h
  | case2 c r ih =>
    rw [List.cons_append, gapFrom]
    exact ih h
  | case3 r ih =>
    rw [List.cons_append, List.cons_append, gapFrom]
    exact ih h
  | case4 c r hslash hspace ih =>
    rw [List.cons_append, gapFrom.eq_4 _ _ ?_, if_pos hspace]
    · exact ih h
    · rintro s rfl _
      cases hspace
  | case5 c r hslash hspace =>
    rw [List.cons_append, gapFrom.eq_4 _ _ ?_, if_neg hspace]
    rintro s hc hr
    cases r with
    | nil =>
      injection hr with hr _
      exact hd hr
    | cons d r =>
      rw [List.cons_append] at hr
      injection hr with hd _
      exact hslash r hc (by rw [hd])

/-- A gap up to the end of the text goes on behind it. A comment goes on too, unless a new line follows. -/
theorem gapFrom_through (hd : d ≠ '/') {inside : Bool} (hcomment : d = '\n' ∨ inside = false ∧ ¬ ['/', '/'] <:+: cs)
    (h : (gapFrom inside cs).2 = []) : (gapFrom inside (cs ++ d :: tail)).2 = (gap (d :: tail)).2 := by
  have hrest : ∀ {c : Char} {r : List Char}, ¬ ['/', '/'] <:+: c :: r → ¬ ['/', '/'] <:+: r :=
    fun h hin => h (hin.trans (List.suffix_cons _ _).isInfix)
  fun_induction gapFrom inside cs with
  | case1 inside =>
    rcases hcomment with rfl | ⟨rfl, _⟩
    · cases inside <;> rfl
    · rfl
  | case2 c r ih =>
    rw [List.cons_append, gapFrom]
    exact ih (hcomment.imp_right fun hno => by cases hno.1) h
  | case3 r ih =>
    rw [List.cons_append, List.cons_append, gapFrom]
    exact ih (hcomment.imp_right fun hno => absurd ⟨[], r, rfl⟩ hno.2) h
  | case4 c r hslash hspace ih =>
    rw [List.cons_append, gapFrom.eq_4 _ _ ?_, if_pos hspace]
    · exact ih (hcomment.imp_right fun hno => ⟨rfl, hrest hno.2⟩) h
    · rintro s rfl _
      cases hspace
  | case5 => cases h

/-! ## Lexemes -/

/-- A character that protects nothing is no backslash. -/
theorem ne_backslash {c : Char} {r : List Char} (hlast : c = '\\' → r = [] → False)
    (hpair : ∀ d s, c = '\\' → r = d :: s → False) : c ≠ '\\' := by
  intro hc
  cases r with
  | nil => exact hlast hc rfl
  | cons d s => exact hpair d s hc rfl

/-- The closing quote is found again before any text. -/
theorem quoted_before {quote : Char} {body : List Char} (h : quoted quote cs = some (body, rest)) (r : List Char) :
    quoted quote (body ++ r) = some (body, r) := by
  fun_induction quoted quote cs generalizing body rest with
  | case1 => cases h
  | case2 => cases h
  | case3 c s ih =>
    obtain ⟨⟨b, t⟩, hb, he⟩ := Option.map_eq_some_iff.1 h
    cases he
    rw [List.cons_append, List.cons_append, quoted, ih hb]
    rfl
  | case4 s hlast hpair =>
    cases h
    have hne := ne_backslash hlast hpair
    rw [List.singleton_append, quoted.eq_4 _ _ _ (fun hc _ => hne hc) (fun _ _ hc _ => hne hc), if_pos rfl]
  | case5 c s hlast hpair hc ih =>
    obtain ⟨⟨b, t⟩, hb, he⟩ := Option.map_eq_some_iff.1 h
    cases he
    have hne := ne_backslash hlast hpair
    rw [List.cons_append, quoted.eq_4 _ _ _ (fun hc _ => hne hc) (fun _ _ hc _ => hne hc), if_neg hc, ih hb]
    rfl

theorem quoted_continued {quote : Char} {body : List Char} (h : quoted quote cs = some (body, rest)) :
    quoted quote (cs ++ tail) = some (body, rest ++ tail) := by
  rw [← quoted_append h, List.append_assoc]
  exact quoted_before h _

/-- A class without the next character takes no more of the longer text. -/
theorem while_continued {p : Char → Bool} (hp : p d = false) (cs : List Char) :
    (cs ++ d :: tail).takeWhile p = cs.takeWhile p ∧ (cs ++ d :: tail).dropWhile p = cs.dropWhile p ++ d :: tail := by
  induction cs with
  | nil => simp [hp]
  | cons c cs ih =>
    cases hc : p c with
    | true => simp [hc, ih]
    | false => simp [hc]

theorem touchesNumber_continued (hd : Breaks d) (cs : List Char) :
    touchesNumber (cs ++ d :: tail) = touchesNumber cs := by
  match cs with
  | [] =>
    rw [List.nil_append, touchesNumber.eq_2 _ _ fun _ he _ => hd.point he, hd.word, Bool.or_false]
    exact beq_eq_false_iff_ne.2 hd.point
  | [c] =>
    have hne : ∀ r, d :: tail = '.' :: r → False := by
      intro r hr
      injection hr with hr _
      exact hd.point hr
    rw [List.singleton_append, touchesNumber.eq_2 _ _ fun r _ => hne r, touchesNumber.eq_2 _ _ fun _ _ h => by cases h]
  | c :: e :: cs =>
    by_cases hdots : c = '.' ∧ e = '.'
    · obtain ⟨rfl, rfl⟩ := hdots
      rfl
    · have hne : ∀ r s, c = '.' → e :: s = '.' :: r → False := by
        intro r s hc he
        injection he with he _
        exact hdots ⟨hc, he⟩
      rw [List.cons_append, List.cons_append, touchesNumber.eq_2 _ _ fun r => hne r _, touchesNumber.eq_2 _ _ fun r => hne r _]

theorem number_continued (hd : Breaks d) {c : Char} {text : List Char} (hc : c.isDigit = true)
    (hn : number (c :: cs) = (text, rest)) (ht : touchesNumber rest = false) :
    number (c :: (cs ++ d :: tail)) = (text, rest ++ d :: tail) := by
  obtain ⟨ds, f, x, hparts, hds, hf, hx⟩ := number_parts (r := cs) hc
  have happ := number_append (c :: cs)
  rw [hn] at hparts happ
  have hlonger : c :: (cs ++ d :: tail) = ds ++ f ++ x ++ (rest ++ d :: tail) := by
    rw [← hparts, ← List.cons_append, ← happ, List.append_assoc]
  rw [hlonger, number_append_of hds hf hx (by rw [touchesNumber_continued _ hd, ht]), ← hparts]

theorem isPrefixOf_continued {s : List Char} (hs : ¬ cs ++ [d] <+: s) :
    s.isPrefixOf (cs ++ d :: tail) = s.isPrefixOf cs := by
  induction s generalizing cs with
  | nil => rfl
  | cons c s ih =>
    cases cs with
    | nil =>
      have hne : (c == d) = false := beq_eq_false_iff_ne.2 fun he => hs ⟨s, by rw [he]; rfl⟩
      simp [List.isPrefixOf, hne]
    | cons e cs =>
      by_cases he : c = e
      · have hs : ¬ cs ++ [d] <+: s := fun h => hs (by rw [he]; exact List.cons_prefix_cons.2 ⟨rfl, h⟩)
        simp [List.isPrefixOf, ih hs]
      · have hne : (c == e) = false := beq_eq_false_iff_ne.2 he
        simp [List.isPrefixOf, hne]

/-- Where no sign goes on with the next character, the same sign is found. -/
theorem sign?_continued (hsigns : ∀ s ∈ signs, ¬ cs ++ [d] <+: s.1) : sign? (cs ++ d :: tail) = sign? cs := by
  have hfind : signs.find? (fun s => s.1.isPrefixOf (cs ++ d :: tail)) = signs.find? fun s => s.1.isPrefixOf cs :=
    List.find?_congr fun s hs => isPrefixOf_continued tail (hsigns s hs)
  rw [sign?, sign?, hfind]

/-- A lexeme at the front of a text is at the front of the longer text. -/
theorem front_continued {l : Lexeme} (hd : Breaks d) (hsigns : ∀ s ∈ signs, ¬ cs ++ [d] <+: s.1)
    (h : front cs = .lexeme l rest) : front (cs ++ d :: tail) = .lexeme l (rest ++ d :: tail) := by
  obtain ⟨c, r, rfl, ⟨hc, body, hq, rfl⟩ | ⟨hdigit, hn, ht, hk⟩ | ⟨hw, rfl, rfl⟩ | ⟨hs, rfl⟩⟩ := front_cases h
  · rw [List.cons_append, front, if_pos hc, quoted_continued _ hq]
  · have hquote : ¬ (c = '"' ∨ c = '\x27') := by rintro (rfl | rfl) <;> cases hdigit
    rw [List.cons_append, front, if_neg hquote, if_pos hdigit]
    simp only [number_continued tail hd hdigit hn ht, touchesNumber_continued tail hd, ht]
    rw [← hk]
    rfl
  · obtain ⟨htake, hdrop⟩ := while_continued tail (p := isWordPart) hd.word (c :: r)
    rw [List.cons_append] at htake hdrop ⊢
    rw [front_word hw, htake, hdrop]
  · have hlonger : sign? (c :: (r ++ d :: tail)) = some l := by
      rw [← List.cons_append, sign?_continued _ hsigns, hs]
    have hlength : l.text.length ≤ (c :: r).length := (sign?_text hs).2.length_le
    rw [List.cons_append, front_sign hlonger, ← List.cons_append, List.drop_append_of_le_length hlength]

/-! ## What separates -/

/-- Behind texts with a property, `x` leaves the gaps and the lexemes as they are; the property is handed on to what is
left of a text. -/
structure Separates (P : List Char → Prop) (x : List Char) : Prop where
  gap {cs : List Char} : P cs → (gap cs).2 ≠ [] → (Lexeme.gap (cs ++ x)).2 = (Lexeme.gap cs).2 ++ x ∧ P (Lexeme.gap cs).2
  through {cs : List Char} : P cs → (Lexeme.gap cs).2 = [] → (Lexeme.gap (cs ++ x)).2 = (Lexeme.gap x).2
  front {cs rest : List Char} {l : Lexeme} : P cs → front cs = .lexeme l rest →
    Lexeme.front (cs ++ x) = .lexeme l (rest ++ x) ∧ P rest

theorem breaks_space : Breaks '\n' ∧ Breaks ' ' := by
  constructor <;> exact ⟨by decide, by decide, by decide⟩

/-- No sign of two characters ends in white space. -/
theorem sign_ne_space (hd : isGapSpace d = true) (cs : List Char) : ∀ s ∈ signs, ¬ cs ++ [d] <+: s.1 := by
  intro s hs hstart
  have hsigns : ∀ s ∈ signs, s.1.all (fun c => !isGapSpace c) = true := by decide
  have hfalse := List.all_eq_true.1 (hsigns s hs) d (hstart.subset (List.mem_append_right _ List.mem_cons_self))
  rw [hd] at hfalse
  cases hfalse

theorem separates_nil : Separates (fun _ => True) [] where
  gap _ _ := ⟨by simp, trivial⟩
  through _ h := by rw [List.append_nil, h]; rfl
  front _ h := ⟨by simpa using h, trivial⟩

/-- A new line separates whatever is before it. -/
theorem separates_newline : Separates (fun _ => True) ('\n' :: tail) where
  gap _ h := ⟨gapFrom_continued tail breaks_space.1.slash h, trivial⟩
  through _ h := gapFrom_through tail breaks_space.1.slash (.inl rfl) h
  front _ h := ⟨front_continued tail breaks_space.1 (sign_ne_space rfl _) h, trivial⟩

/-- There is no comment, and not even in a string does it look as if there were one. -/
def Slashless (cs : List Char) : Prop := ¬ ['/', '/'] <:+: cs

instance (cs : List Char) : Decidable (Slashless cs) := inferInstanceAs (Decidable (¬ _))

theorem Slashless.of_append {s : List Char} (h : Slashless (s ++ cs)) : Slashless cs :=
  fun hin => h (hin.trans (List.suffix_append s cs).isInfix)

theorem Slashless.gap (h : Slashless cs) : Slashless (gap cs).2 := .of_append (s := (Lexeme.gap cs).1) (by rwa [gap_append])

theorem Slashless.of_front {l : Lexeme} (h : Slashless cs) (hl : front cs = .lexeme l rest) : Slashless rest :=
  .of_append (s := l.text) (by rwa [(front_lexeme hl).2])

/-- A space separates what has no comments. -/
theorem separates_space : Separates Slashless (' ' :: tail) where
  gap hcs h := ⟨gapFrom_continued tail breaks_space.2.slash h, hcs.gap⟩
  through hcs h := gapFrom_through tail breaks_space.2.slash (.inr ⟨rfl, hcs⟩) h
  front hcs h := ⟨front_continued tail breaks_space.2 (sign_ne_space rfl _) h, hcs.of_front h⟩

end Lexeme

/-! ## Tokens -/

namespace Tokens

variable {P : List Char → Prop} {x : List Char}

/-- The tokens from a place on that is before a text up to a gap. -/
def At (x : List Char) (w : Tokens) : Prop := ∃ d : Cursor, w = read d ∧ (Lexeme.gap d.rest).2 = (Lexeme.gap x).2

/-- The tokens of a text are in front of those of the text behind it. -/
theorem tracks_continued (hx : Lexeme.Separates P x) {c d : Cursor} (hP : P c.rest) (h : d.rest = c.rest ++ x) :
    Tracks (fun c d => d.rest = c.rest ++ x) (At x) (read c) (read d) := by
  fun_induction read c generalizing d with
  | case1 c l rest hfront _ ih =>
    have hgap : (Lexeme.gap c.rest).2 ≠ [] := by
      intro hnil
      have hrest : c.skipGap.rest = [] := hnil
      rw [hrest] at hfront
      cases hfront
    obtain ⟨hlonger, hP⟩ := hx.gap hP hgap
    have hskip : d.skipGap.rest = c.skipGap.rest ++ x := by
      show (Lexeme.gap d.rest).2 = (Lexeme.gap c.rest).2 ++ x
      rw [h, hlonger]
    obtain ⟨hlonger, hP⟩ := hx.front hP hfront
    have hfront' : Lexeme.front d.skipGap.rest = .lexeme l (rest ++ x) := by rw [hskip]; exact hlonger
    rw [read_lexeme hfront']
    exact .token h rfl rfl (ih hP rfl)
  | case2 c hfront =>
    -- where the text ends, the gap before its end goes on behind it; a fault is tracked by anything
    cases hc : Lexeme.front c.skipGap.rest with
    | ended =>
      have hgap : (Lexeme.gap c.rest).2 = [] := Lexeme.eq_nil_of_front hc
      rw [← read_of_not_lexeme hfront, read_ended hc]
      refine .ended (by rw [cursor_read, h]) rfl ⟨d, rfl, ?_⟩
      rw [h]
      exact hx.through hP hgap
    | lexeme l rest => exact absurd hc (hfront l rest)
    | fault f =>
      rw [← read_of_not_lexeme hfront, read_fault hc]
      exact .fault

end Tokens

/-! ## Expressions -/

/-- The text of an expression is read as that expression, up to locations, before something that separates and closes an
expression, and reading stops there. -/
theorem Expr.read_continued {P : List Char → Prop} {text : String} {x : List Char} {e : Expr} {d : Cursor}
    (hx : Lexeme.Separates P x) (hP : P text.toList) (hclosing : ∀ w, Tokens.At x w → w.Closes)
    (h : Expr.parse text = .ok e) (hd : d.rest = text.toList ++ x) :
    ∃ f k, Expr.read .lenient d = (.ok f, k) ∧ f.unplaced = e.unplaced ∧ (Lexeme.gap k.rest).2 = (Lexeme.gap x).2 := by
  obtain ⟨s', t, hreads, hhead, hkind⟩ := Expr.parse_iff.1 h
  have htracks : Tokens.Tracks _ (Tokens.At x) (Tokens.ofText text) (Tokens.read d) :=
    Tokens.tracks_continued hx (c := Cursor.start text .start) hP hd
  obtain ⟨_, w', hreads', halike, htracks'⟩ := hreads.tracks hclosing htracks
  obtain ⟨k, rfl, hgap⟩ := htracks'.after_end (hreads.wf (Tokens.wf_ofText text)) hhead hkind
  cases halike with | @expression _ f hf =>
  exact ⟨f, k, Expr.read_lenient_iff.2 ⟨_, hreads', Tokens.cursor_read k⟩, hf, hgap⟩

/-- At the end of a text nothing is ahead. -/
theorem Tokens.At.ended {w : Tokens} (h : At [] w) : ∃ u, w.head = .ok u ∧ u.kind = .endOfInput := by
  obtain ⟨d, rfl, hgap⟩ := h
  rw [read_gap hgap]
  exact ⟨_, rfl, rfl⟩

theorem Tokens.closes_of_ended {w : Tokens} (h : ∃ u, w.head = .ok u ∧ u.kind = .endOfInput) : w.Closes :=
  let ⟨u, hu, hend⟩ := h
  ⟨u, hu, by simp [hend]⟩

/-- Where the same text follows, the same expression is read up to locations, and reading stops before the same text. -/
theorem Expr.read_same {c d k : Cursor} {e : Expr} (hrest : d.rest = c.rest) (h : Expr.read .lenient c = (.ok e, k)) :
    ∃ f k', Expr.read .lenient d = (.ok f, k') ∧ f.unplaced = e.unplaced ∧ k'.rest = k.rest := by
  obtain ⟨s', hreads, rfl⟩ := Expr.read_lenient_iff.1 h
  have htracks := Tokens.tracks_continued Lexeme.separates_nil (c := c) (d := d) trivial (by rw [hrest, List.append_nil])
  obtain ⟨_, w', hreads', halike, htracks'⟩ := hreads.tracks (fun _ hw => Tokens.closes_of_ended hw.ended) htracks
  cases halike with | @expression _ f hf =>
  obtain ⟨t, ht, _⟩ := hreads.stops
  refine ⟨f, _, Expr.read_lenient_iff.2 ⟨w', hreads', rfl⟩, hf, ?_⟩
  rw [htracks'.cursors ht, List.append_nil]

/-- What is read from the whole rest of a source is read from another one with the same tokens. -/
theorem Expr.read_strict_of_tracks {near : Cursor → Cursor → Prop} {after : Tokens → Prop} {c d : Cursor} {e : Expr}
    (hafter : ∀ w, after w → ∃ u, w.head = .ok u ∧ u.kind = .endOfInput)
    (htracks : Tokens.Tracks near after (Tokens.read c) (Tokens.read d)) (h : (Expr.read .strict c).1 = .ok e) :
    ∃ f, (Expr.read .strict d).1 = .ok f ∧ f.unplaced = e.unplaced := by
  obtain ⟨s', t, hreads, ht, hk⟩ := read_strict_iff.1 h
  obtain ⟨_, w', hreads', halike, htracks'⟩ :=
    hreads.tracks (fun w hw => Tokens.closes_of_ended (hafter w hw)) htracks
  cases halike with | @expression _ f hf =>
  obtain ⟨u, hu, hend⟩ := hafter _ (htracks'.after_end (hreads.wf (Tokens.wf_read c)) ht hk)
  exact ⟨f, read_strict_iff.2 ⟨w', u, hreads', hu, hend⟩, hf⟩

/-- A text is read as the same expression, up to locations, wherever it stands. -/
theorem Expr.read_strict_same {c d : Cursor} {e : Expr} (hrest : d.rest = c.rest)
    (h : (Expr.read .strict c).1 = .ok e) : ∃ f, (Expr.read .strict d).1 = .ok f ∧ f.unplaced = e.unplaced :=
  read_strict_of_tracks (fun _ hw => hw.ended)
    (Tokens.tracks_continued Lexeme.separates_nil trivial (by rw [hrest, List.append_nil])) h

end ExprLang
