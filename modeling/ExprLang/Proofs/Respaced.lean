import ExprLang.Proofs.Cuts
import ExprLang.Proofs.Printing.Shape

/-!
# Other gaps between the same lexemes

The lexemes of a text may be written with other gaps before, between and behind them, also where
they touch. If each gap begins with white space, the same tokens are read, and so the same
expression or none.

* `Cut.scans_of_gaps`: white space parts all lexemes.
* `Cut.Holds.lexemes_eq`: the tokens of a text say where it is cut.
* `Expr.equals_unplaced`: locations do not count in equality.
* `Expr.parse_respaced`: other gaps between the lexemes of a text.
-/

namespace ExprLang

/-! ## Equality -/

mutual

theorem Expr.equals_unplaced : ∀ e f : Expr, e.unplaced.equals f.unplaced = e.equals f
  | .literal _ _, f | .var _ _, f => by cases f <;> rfl
  | .array _ es, f => by
    cases f with
    | array _ fs => exact equalExprs_unplaced es fs
    | _ => rfl
  | .map _ es, f => by
    cases f with
    | map _ fs =>
      rw [Expr.unplaced, Expr.unplaced, Expr.equals, Expr.equals, equalExprEntries_unplaced es fs, unplacedEntries_eq,
        unplacedEntries_eq]
      simp [Entries.mapValues]
    | _ => rfl
  | .unary _ op a, f => by
    cases f with
    | unary _ _ b => rw [Expr.unplaced, Expr.unplaced, Expr.equals, Expr.equals, Expr.equals_unplaced a b]
    | _ => rfl
  | .binary _ op a b, f => by
    cases f with
    | binary _ _ c d =>
      rw [Expr.unplaced, Expr.unplaced, Expr.equals, Expr.equals, Expr.equals_unplaced a c, Expr.equals_unplaced b d]
    | _ => rfl
  | .subscript _ a b, f => by
    cases f with
    | subscript _ c d =>
      rw [Expr.unplaced, Expr.unplaced, Expr.equals, Expr.equals, Expr.equals_unplaced a c, Expr.equals_unplaced b d]
    | _ => rfl
  | .switch _ es, f => by
    cases f with
    | switch _ fs => exact equalExprs_unplaced es fs
    | _ => rfl

theorem equalExprs_unplaced : ∀ es fs : List Expr,
    equalExprs (unplacedItems es) (unplacedItems fs) = equalExprs es fs
  | [], [] | [], _ :: _ | _ :: _, [] => rfl
  | e :: es, f :: fs => by
    rw [unplacedItems, unplacedItems, equalExprs, equalExprs, Expr.equals_unplaced e f, equalExprs_unplaced es fs]

theorem equalExprEntries_unplaced : ∀ es fs : List (String × Expr),
    equalExprEntries (unplacedEntries es) (unplacedEntries fs) = equalExprEntries es fs
  | [], _ => rfl
  | (k, e) :: es, fs => by
    rw [unplacedEntries, equalExprEntries, equalExprEntries, equalExprEntries_unplaced es fs, unplacedEntries_eq,
      Entries.find?_mapValues]
    cases Entries.find? fs k with
    | none => rfl
    | some f => exact congrArg (· && _) (Expr.equals_unplaced e f)

end

/-- Expressions that differ in locations only are equal, if no map in them repeats a key. -/
theorem Expr.equals_of_unplaced_eq {e f : Expr} (h : f.unplaced = e.unplaced) (he : e.Keyed) : (f == e) = true := by
  show f.equals e = true
  rw [← equals_unplaced, h, equals_unplaced]
  exact equals_self he

theorem Expr.keyed_of_parse {text : String} {e : Expr} (h : parse text = .ok e) : e.Keyed :=
  fun n hn => ((formed_of_parse h).1 n hn).2

/-! ## Streams -/

namespace Tokens

/-- The same lexemes up to the end of two sources. -/
theorem tracks_of_shows {here stop here' stop' : Cursor} {t u : Token} (ht : t.kind = .endOfInput)
    (hu : u.kind = .endOfInput) : ∀ {ws : List Lexeme} {s w : Tokens}, Shows ws s (.ending here (.ok t) stop) →
    Shows ws w (.ending here' (.ok u) stop') →
    Tracks (fun _ _ => True) (fun w => ∃ u, w.head = .ok u ∧ u.kind = .endOfInput) s w
  | [], _, _, hs, hw => by
    cases hs
    cases hw
    exact .ended trivial ht ⟨u, rfl, hu⟩
  | _ :: _, _, _, hs, hw => by
    obtain ⟨_, t, _, rfl, ⟨hk, hd⟩, hs⟩ := shows_cons.1 hs
    obtain ⟨_, u, _, rfl, ⟨hk', hd'⟩, hw⟩ := shows_cons.1 hw
    exact .token trivial (hk'.trans hk.symm) (hd'.trans hd.symm) (tracks_of_shows ht hu hs hw)

end Tokens

/-- What is read from the whole of a source is read from another one with the same tokens. -/
theorem Expr.parse_of_tracks {near : Cursor → Cursor → Prop} {text text' : String} {e : Expr}
    (htracks : Tokens.Tracks near (fun w => ∃ u, w.head = .ok u ∧ u.kind = .endOfInput) (Tokens.ofText text)
      (Tokens.ofText text'))
    (h : parse text = .ok e) : ∃ f, parse text' = .ok f ∧ f.unplaced = e.unplaced :=
  read_strict_of_tracks (fun _ hw => hw) htracks h

/-- Two sources with the same tokens. -/
theorem Expr.parse_both_of_shows {text text' : String} {ws : List Lexeme} {b b' d d' : Cursor}
    {stop stop' : Cursor} (h : Tokens.Shows ws (Tokens.ofText text) (.ending b (.ok d.endToken) stop))
    (h' : Tokens.Shows ws (Tokens.ofText text') (.ending b' (.ok d'.endToken) stop')) :
    Outcome.Both (fun e f => (f == e) = true) (parse text) (parse text') := by
  have hthere := Tokens.tracks_of_shows rfl rfl h h'
  have hback := Tokens.tracks_of_shows rfl rfl h' h
  cases he : parse text with
  | ok e =>
    obtain ⟨f, hf, hunplaced⟩ := parse_of_tracks hthere he
    rw [hf]
    exact .ok (equals_of_unplaced_eq hunplaced (keyed_of_parse he))
  | error e =>
    cases hf : parse text' with
    | error e' => exact .error e e'
    | ok f =>
      obtain ⟨e', he', _⟩ := parse_of_tracks hback hf
      rw [he] at he'
      cases he'

/-! ## Cuts -/

theorem Text.append_inj_of_byteSize {cs r : List Char} : ∀ {ds r' : List Char}, cs ++ r = ds ++ r' →
    byteSize cs = byteSize ds → cs = ds ∧ r = r' := by
  induction cs with
  | nil =>
    intro ds r' happ hsize
    by_cases hds : ds = []
    · subst hds
      exact ⟨rfl, happ⟩
    · have hpos := byteSize_pos hds
      simp only [byteSize] at hsize
      omega
  | cons c cs ih =>
    intro ds r' happ hsize
    cases ds with
    | nil =>
      have hpos := byteSize_pos (List.cons_ne_nil c cs)
      rw [hsize] at hpos
      exact absurd hpos (Nat.lt_irrefl _)
    | cons d ds =>
      rw [List.cons_append, List.cons_append] at happ
      obtain ⟨rfl, htail⟩ := List.cons_eq_cons.1 happ
      obtain ⟨rfl, rfl⟩ := ih htail (Nat.add_left_cancel hsize)
      exact ⟨rfl, rfl⟩

namespace Cut

/-- A text is cut where its tokens say: there is one way only. -/
theorem Holds.lexemes_eq {k k' : Cut} {n : Nat} {ts : List Token} (h : k.Holds n ts) (h' : k'.Holds n ts)
    (htext : k'.text = k.text) : k'.lexemes = k.lexemes := by
  induction k generalizing k' n ts with
  | ended =>
    cases ts with
    | cons => exact h.elim
    | nil =>
      cases k' with
      | ended => rfl
      | lexeme => exact h'.elim
  | lexeme gap l after ih =>
    cases ts with
    | nil => exact h.elim
    | cons t ts =>
      cases k' with
      | ended => exact h'.elim
      | lexeme gap' l' after' =>
        obtain ⟨hkind, _, hfirst, hbehind, h⟩ := h
        obtain ⟨hkind', _, hfirst', hbehind', h'⟩ := h'
        obtain ⟨_, htext⟩ := Text.append_inj_of_byteSize (htext : gap' ++ _ = gap ++ _) (by omega)
        obtain ⟨htext, hafter⟩ := Text.append_inj_of_byteSize htext (by omega)
        have hl : l' = l := by
          cases l
          cases l'
          exact congrArg₂ Lexeme.mk (hkind'.symm.trans hkind) htext
        rw [lexemes, lexemes, hl, ih h h' hafter]

/-- There are gaps before, between and behind the lexemes, and each begins with white space; so a gap before a lexeme also
ends in white space, for a comment would go on. -/
structure Spaced (k : Cut) : Prop where
  gapped : k.Gapped
  last : Lexeme.IsGap [] k.rest
  begins : ∀ g ∈ k.gaps, ∃ c ∈ g.head?, Lexeme.isGapSpace c = true

theorem text_begins {k : Cut} (h : ∀ g ∈ k.gaps, ∃ c ∈ g.head?, Lexeme.isGapSpace c = true) :
    ∃ d tail, k.text = d :: tail ∧ Lexeme.isGapSpace d = true := by
  have hfirst : ∀ g r : List Char, (∃ c ∈ g.head?, Lexeme.isGapSpace c = true) →
      ∃ d tail, g ++ r = d :: tail ∧ Lexeme.isGapSpace d = true := by
    rintro g r ⟨c, hc, hspace⟩
    obtain ⟨tail, rfl⟩ := List.head?_eq_some_iff.1 hc
    exact ⟨c, tail ++ r, rfl, hspace⟩
  cases k with
  | ended rest => simpa [text] using hfirst rest [] (h rest List.mem_cons_self)
  | lexeme gap l after => exact hfirst gap _ (h gap List.mem_cons_self)

/-- White space parts all lexemes. -/
theorem scans_of_gaps {k : Cut} (hgapped : k.Gapped) (hwhole : ∀ l ∈ k.lexemes, l.Whole)
    (hbegins : ∀ g ∈ k.gaps, ∃ c ∈ g.head?, Lexeme.isGapSpace c = true) : Lexeme.Scans k.text k.lexemes k.rest := by
  induction k with
  | ended rest => rfl
  | lexeme gap l after ih =>
    obtain ⟨hgap, hgapped⟩ := hgapped
    obtain ⟨hl, hwhole⟩ := List.forall_mem_cons.1 hwhole
    obtain ⟨_, hbegins⟩ := List.forall_mem_cons.1 hbegins
    obtain ⟨d, tail, htext, hd⟩ := text_begins hbegins
    refine ⟨after.text, ?_, ih hgapped hwhole hbegins⟩
    rw [text, hgap.gap, htext]
    exact hl.front_space hd tail

/-- The tokens of a text with white space between its lexemes. -/
theorem Spaced.shows {k : Cut} (h : k.Spaced) (hwhole : ∀ l ∈ k.lexemes, l.Whole) {c : Cursor} (hc : c.rest = k.text) :
    ∃ here stop d, Tokens.Shows k.lexemes (Tokens.read c) (.ending here (.ok (Cursor.endToken d)) stop) := by
  have hscans := scans_of_gaps h.gapped hwhole h.begins
  rw [← hc] at hscans
  obtain ⟨c', hc', hshows⟩ := Tokens.shows_of_scans hscans
  have hgap := h.last.gap
  rw [List.append_nil, ← hc'] at hgap
  rw [Tokens.read_gap hgap] at hshows
  exact ⟨_, _, _, hshows⟩

/-- The text is cut into the lexemes of its tokens, with gaps before, between and behind them. -/
structure IsOf (k : Cut) (text : String) : Prop where
  chars : k.text = text.toList
  gapped : k.Gapped
  last : Lexeme.IsGap [] k.rest
  holds : k.Holds 0 (Tokens.ofText text).toList.1.dropLast

end Cut

theorem Cursor.Cuts.shows {c : Cursor} {k : Cut} {ts : List Token} {result : Except Error Token}
    (h : c.Cuts k ts result) : ∃ b stop, Tokens.Shows k.lexemes (Tokens.read c) (.ending b result stop) := by
  obtain ⟨b, stop, hstream⟩ := h.stream
  refine ⟨b, stop, ?_⟩
  rw [Tokens.Shows, ← h.holds.shapes]
  exact hstream.map

/-- A text without errors is cut into the lexemes of its tokens. -/
theorem Tokens.exists_cut_of {text : String} (h : (ofText text).toList.2 = none) : ∃ k : Cut, k.IsOf text ∧
    (∀ l ∈ k.lexemes, l.Whole) ∧ ∃ b d stop, Shows k.lexemes (ofText text) (.ending b (.ok (Cursor.endToken d)) stop) := by
  obtain ⟨k, ts, result, hcuts⟩ := exists_cut (Cursor.start text .start)
  obtain ⟨b, stop, hstream⟩ := hcuts.stream
  obtain ⟨hlist, hlast⟩ := hstream.toList
  cases result with
  | error e =>
    rw [ofText, hlast] at h
    cases h
  | ok t =>
    obtain ⟨⟨d, rfl⟩, hgap⟩ := hcuts.last t rfl
    have htokens : (ofText text).toList.1.dropLast = ts := by
      rw [ofText, ← List.map_id (toList _).1, hlist]
      exact List.dropLast_concat
    refine ⟨k, ⟨hcuts.text, hcuts.gapped, hgap, ?_⟩, hcuts.whole, ?_⟩
    · rw [htokens]
      exact hcuts.holds
    · obtain ⟨b, stop, hshows⟩ := hcuts.shows
      exact ⟨b, d, stop, hshows⟩

/-! ## Expressions -/

/-- A text that falls into tokens is cut into their lexemes. If the gaps before, between and behind these are replaced by
others that begin with white space, the tokens are of the same kinds and have the same data, and the expression that is
read is equal, if there is one. -/
theorem Expr.parse_respaced {text : String} (h : (Tokens.ofText text).toList.2 = none) :
    (∃ k : Cut, k.IsOf text) ∧ ∀ (k k' : Cut) (text' : String), k.IsOf text → k'.text = text'.toList →
      k'.lexemes = k.lexemes → k'.Spaced →
      (Tokens.ofText text').toList.2 = none ∧
      (Tokens.ofText text').toList.1.map (fun t => (t.kind, t.data)) =
        (Tokens.ofText text).toList.1.map (fun t => (t.kind, t.data)) ∧
      Outcome.Both (fun e f => (f == e) = true) (parse text) (parse text') := by
  obtain ⟨k₀, hk₀, hwhole, _, _, _, hshows⟩ := Tokens.exists_cut_of h
  refine ⟨⟨k₀, hk₀⟩, fun k k' text' hk htext hlexemes hspaced => ?_⟩
  have hsame : k'.lexemes = k₀.lexemes := by
    rw [hlexemes, hk₀.holds.lexemes_eq hk.holds (hk.chars.trans hk₀.chars.symm)]
  rw [← hsame] at hwhole hshows
  obtain ⟨_, _, _, hshows'⟩ := hspaced.shows hwhole (c := Cursor.start text' .start) htext.symm
  obtain ⟨hlist, _⟩ := hshows.toList
  obtain ⟨hlist', hnone⟩ := hshows'.toList
  refine ⟨hnone, ?_, parse_both_of_shows hshows hshows'⟩
  rw [hlist, Tokens.ofText, hlist']
  rfl

theorem Expr.parse_respaced_range : (Tokens.ofText "1..-x").toList.2 = none ∧
    Outcome.Both (fun e f => (f == e) = true) (parse "1..-x") (parse " 1 ..\t//to\n- x\n") := by
  have h : (Tokens.ofText "1..-x").toList.2 = none := by decide +kernel
  let k : Cut := .lexeme [] ⟨.number, ['1']⟩ (.lexeme [] ⟨.dots, ['.', '.']⟩ (.lexeme [] ⟨.minus, ['-']⟩
    (.lexeme [] ⟨.name, ['x']⟩ (.ended []))))
  let k' : Cut := .lexeme [' '] ⟨.number, ['1']⟩ (.lexeme [' '] ⟨.dots, ['.', '.']⟩
    (.lexeme ['\t', '/', '/', 't', 'o', '\n'] ⟨.minus, ['-']⟩ (.lexeme [' '] ⟨.name, ['x']⟩ (.ended ['\n']))))
  have hk : k.IsOf "1..-x" := ⟨by decide +kernel, ⟨.nil, .nil, .nil, .nil, trivial⟩, .nil, by decide +kernel⟩
  have hspaced : k'.Spaced := by
    refine ⟨⟨.space rfl .nil, .space rfl .nil, .space rfl ?_, .space rfl .nil, trivial⟩, .space rfl .nil, ?_⟩
    · exact @Lexeme.IsGap.comment _ ['t', 'o'] ['\n'] (by simp [Lexeme.endsComment]) (by simp [Lexeme.endsComment])
        (.space rfl .nil)
    · simp [k', Cut.gaps, Lexeme.isGapSpace]
  exact ⟨h, ((parse_respaced h).2 k k' " 1 ..\t//to\n- x\n" hk (by decide +kernel) rfl hspaced).2.2⟩

end ExprLang
