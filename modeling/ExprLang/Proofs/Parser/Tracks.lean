import ExprLang.Proofs.Unplaced

/-!
# Reading the same tokens elsewhere

What is read depends on the kinds and the data of the tokens alone. If the tokens of two sources are
the same up to the end of the first, and the second goes on with something that closes an expression
(`Tokens.Tracks`), then the same is read from both, up to locations (`Reads.tracks`). All that reading
asks of two such sources is in `Tokens.Carries`.
-/

namespace ExprLang

/-! ## Tokens -/

namespace Token

variable {t u : Token}

theorem word_eq (hk : u.kind = t.kind) (hd : u.data = t.data) : u.word = t.word := by
  rw [word, word, hk, hd]

/-- A token that stands for a value does so wherever it stands. -/
theorem literal_eq {v : Value} (hk : u.kind = t.kind) (hd : u.data = t.data) (h : t.literal = .ok v) :
    u.literal = .ok v := by
  have hnumber : ∀ w, Value.number <$> t.number = .ok w → Value.number <$> u.number = .ok w := by
    intro w hw
    unfold number at hw ⊢
    rw [hd]
    cases hx : Numeral.value? t.data with
    | some x =>
      rw [hx] at hw
      exact hw
    | none =>
      rw [hx] at hw
      cases hw
  unfold literal at h ⊢
  rw [hk, word_eq hk hd, hd]
  split at h
  · exact h
  · exact hnumber v h
  · exact h
  · exact h

end Token

namespace Tokens

/-- The tokens have the same kinds and data as long as the first source goes on, and the cursors before them are near each
other. Where it ends, the second goes on as `after` says; behind a fault of the first nothing is said. -/
inductive Tracks (near : Cursor → Cursor → Prop) (after : Tokens → Prop) : Tokens → Tokens → Prop
  | token {c c' : Cursor} {t u : Token} {s w : Tokens} : near c c' →
      u.kind = t.kind → u.data = t.data → Tracks near after s w → Tracks near after (.token c t s) (.token c' u w)
  | ended {c stop : Cursor} {t : Token} {w : Tokens} : near c w.cursor →
      t.kind = .endOfInput → after w → Tracks near after (.ending c (.ok t) stop) w
  | fault {c stop : Cursor} {e : Error} {w : Tokens} : Tracks near after (.ending c (.error e) stop) w

namespace Tracks

variable {near : Cursor → Cursor → Prop} {after : Tokens → Prop} (hafter : ∀ w, after w → w.Closes) {s w : Tokens}
  {t : Token}

theorem cursors (h : Tracks near after s w) (ht : s.head = .ok t) : near s.cursor w.cursor := by
  cases h with
  | token hnear => exact hnear
  | ended hnear => exact hnear
  | fault => cases ht

theorem of_token {c : Cursor} (h : Tracks near after (.token c t s) w) : ∃ c' u w', w = .token c' u w' ∧
    (u.kind = t.kind ∧ u.data = t.data) ∧ Tracks near after s w' := by
  cases h with
  | token _ hk hd h => exact ⟨_, _, _, rfl, ⟨hk, hd⟩, h⟩

/-- At the end of the first source. -/
theorem after_end (h : Tracks near after s w) (hs : s.Wf) (ht : s.head = .ok t) (hk : t.kind = .endOfInput) : after w := by
  cases h with
  | token =>
    cases ht
    exact absurd hk hs.1.kind_ne
  | ended _ _ hw => exact hw
  | fault => cases ht

include hafter

/-- What is known of the next kind in the first source holds in the second, if it holds of all that closes an
expression. -/
theorem head (P : Token.Kind → Prop) (hP : ∀ w : Tokens, w.Closes → ∃ u, w.head = .ok u ∧ P u.kind)
    (h : Tracks near after s w) (ht : s.head = .ok t) (hk : P t.kind) : ∃ u, w.head = .ok u ∧ P u.kind := by
  cases h with
  | token _ hkind _ _ =>
    cases ht
    rw [← hkind] at hk
    exact ⟨_, rfl, hk⟩
  | ended _ _ hw => exact hP _ (hafter _ hw)
  | fault => cases ht

theorem stops (h : Tracks near after s w) (hs : s.Stops) : w.Stops := by
  cases h with
  | token _ hkind _ h =>
    obtain ⟨t, ht, hstop⟩ := hs
    cases ht
    refine ⟨_, rfl, ?_⟩
    rw [hkind]
    refine hstop.imp_right fun ⟨hdots, v, hv, hterm⟩ => ⟨hdots, ?_⟩
    exact h.head hafter (· ∉ Token.Kind.terms) (fun _ => Closes.not_term) hv hterm
  | ended _ _ hw => exact (hafter _ hw).stops
  | fault =>
    obtain ⟨t, ht, _⟩ := hs
    cases ht

end Tracks

/-- What a relation between sources has to keep for the same phrases to be read from them: the tokens that are taken, and
what is looked at before reading goes on or stops. -/
structure Carries (R : Tokens → Tokens → Prop) : Prop where
  token {c : Cursor} {t : Token} {s w : Tokens} : R (.token c t s) w → ∃ c' u w', w = .token c' u w' ∧
    (u.kind = t.kind ∧ u.data = t.data) ∧ R s w'
  stops {s w : Tokens} : R s w → s.Stops → w.Stops
  ready {s w : Tokens} : R s w → s.Ready → w.Ready
  ne_dots {s w : Tokens} : R s w → (∃ t, s.head = .ok t ∧ t.kind ≠ .dots) → ∃ u, w.head = .ok u ∧ u.kind ≠ .dots

theorem Tracks.carries {near : Cursor → Cursor → Prop} {after : Tokens → Prop} (hafter : ∀ w, after w → w.Closes) :
    Carries (Tracks near after) where
  token h := h.of_token
  stops h := h.stops hafter
  ready h := fun ⟨_, ht, hk⟩ => h.head hafter (· ≠ .openBracket) (fun _ => Closes.ready) ht hk
  ne_dots h := fun ⟨_, ht, hk⟩ => h.head hafter (· ≠ .dots) (fun _ => Closes.ne_dots) ht hk

end Tokens

/-! ## Phrases -/

/-- Two phrases that differ in locations only. -/
inductive Phrase.Alike : Phrase → Phrase → Prop
  | expression {e f : Expr} : f.unplaced = e.unplaced → Alike (.expression e) (.expression f)
  | operators {js ks : List Joint} :
      ks.map Joint.unplaced = js.map Joint.unplaced → Alike (.operators js) (.operators ks)
  | term {e f : Expr} : f.unplaced = e.unplaced → Alike (.term e) (.term f)
  | subscripts {is ks : List (Location × List Expr)} :
      ks.map Expr.unplacedIndex = is.map Expr.unplacedIndex → Alike (.subscripts is) (.subscripts ks)
  | simple {e f : Expr} : f.unplaced = e.unplaced → Alike (.simple e) (.simple f)
  | list {kind : Item} {es fs : List Expr} :
      fs.map Expr.unplaced = es.map Expr.unplaced → Alike (.list kind es) (.list kind fs)
  | items {kind : Item} {es fs : List Expr} :
      fs.map Expr.unplaced = es.map Expr.unplaced → Alike (.items kind es) (.items kind fs)
  | item {kind : Item} {e f : Expr} : f.unplaced = e.unplaced → Alike (.item kind e) (.item kind f)
  | map {es fs : Entries Expr} :
      Entries.mapValues Expr.unplaced fs = Entries.mapValues Expr.unplaced es → Alike (.map es) (.map fs)
  | entries {es fs : Entries Expr} :
      Entries.mapValues Expr.unplaced fs = Entries.mapValues Expr.unplaced es → Alike (.entries es) (.entries fs)

open Tokens (Tracks)

variable {near : Cursor → Cursor → Prop} {after : Tokens → Prop} {p : Phrase} {s s' w : Tokens}

/-- A phrase that is read from a source is read from a related one. -/
theorem Reads.carried {R : Tokens → Tokens → Prop} (hR : Tokens.Carries R) (h : Reads p s s') :
    ∀ {w}, R s w → ∃ q w', Reads q w w' ∧ p.Alike q ∧ R s' w' := by
  -- a token that is taken has its counterpart; of one that is only looked at it is known what it is not
  induction h with
  | expression _ _ iht ihjs =>
    intro w hw
    obtain ⟨_, w₁, rt, hterm, hw₁⟩ := iht hw
    obtain ⟨_, w', rjs, hops, hw'⟩ := ihjs hw₁
    cases hterm with | term he =>
    cases hops with | operators hjs =>
    refine ⟨_, w', .expression rt rjs, .expression ?_, hw'⟩
    rw [Expr.unplaced_joinAll, Expr.unplaced_joinAll, he, hjs]
  | noOperator hstop =>
    intro w hw
    exact ⟨_, w, .noOperator (hR.stops hw hstop), .operators rfl, hw⟩
  | operator hk _ _ ihr ihjs =>
    intro w hw
    obtain ⟨c', u, w₀, rfl, ⟨hkind, _⟩, hw₀⟩ := hR.token hw
    obtain ⟨_, w₁, rr, hterm, hw₁⟩ := ihr hw₀
    obtain ⟨_, w', rjs, hops, hw'⟩ := ihjs hw₁
    cases hterm with | term he =>
    cases hops with | operators hjs =>
    refine ⟨_, w', .operator (by rw [hkind]; exact hk) rr rjs, .operators ?_, hw'⟩
    simp only [List.map_cons, Joint.unplaced, he]
    rw [hjs]
  | switch hk _ ih =>
    intro w hw
    obtain ⟨c', u, w₀, rfl, ⟨hkind, _⟩, hw₀⟩ := hR.token hw
    obtain ⟨_, w', rl, hlist, hw'⟩ := ih hw₀
    cases hlist with | list hes =>
    refine ⟨_, w', .switch (hkind.trans hk) rl, .term ?_, hw'⟩
    simp only [Expr.unplaced, unplacedItems_eq, hes]
  | term _ _ ihb ihsubs =>
    intro w hw
    obtain ⟨_, w₁, rb, hsimple, hw₁⟩ := ihb hw
    obtain ⟨_, w', rsubs, hsub, hw'⟩ := ihsubs hw₁
    cases hsimple with | simple he =>
    cases hsub with | subscripts his =>
    refine ⟨_, w', .term rb rsubs, .term ?_, hw'⟩
    rw [Expr.unplaced_subscriptAll, Expr.unplaced_subscriptAll, he, his]
  | noSubscript ht hk =>
    intro w hw
    obtain ⟨u, hu, hne⟩ := hR.ready hw ⟨_, ht, hk⟩
    exact ⟨_, w, .noSubscript hu hne, .subscripts rfl, hw⟩
  | subscript hk _ _ ihl ihsubs =>
    intro w hw
    obtain ⟨c', u, w₀, rfl, ⟨hkind, _⟩, hw₀⟩ := hR.token hw
    obtain ⟨_, w₁, rl, hlist, hw₁⟩ := ihl hw₀
    obtain ⟨_, w', rsubs, hsub, hw'⟩ := ihsubs hw₁
    cases hlist with | list hes =>
    cases hsub with | subscripts his =>
    refine ⟨_, w', .subscript (hkind.trans hk) rl rsubs, .subscripts ?_, hw'⟩
    rw [List.map_cons, List.map_cons, his, Expr.unplacedIndex, Expr.unplacedIndex, Expr.unplaced_ofIndices hes]
  | unary hk _ ih =>
    intro w hw
    obtain ⟨c', u, w₀, rfl, ⟨hkind, _⟩, hw₀⟩ := hR.token hw
    obtain ⟨_, w', ra, hterm, hw'⟩ := ih hw₀
    cases hterm with | term he =>
    refine ⟨_, w', .unary (by rw [hkind]; exact hk) ra, .simple ?_, hw'⟩
    rw [Expr.unplaced, Expr.unplaced, he]
  | group hk _ hclose ih =>
    intro w hw
    obtain ⟨c', u, w₀, rfl, ⟨hkind, _⟩, hw₀⟩ := hR.token hw
    obtain ⟨_, w₁, ra, hexpr, hw₁⟩ := ih hw₀
    obtain ⟨c'', u', w', rfl, ⟨hkind', _⟩, hw'⟩ := hR.token hw₁
    cases hexpr with | expression he =>
    refine ⟨_, w', .group (hkind.trans hk) ra (hkind'.trans hclose), .simple ?_, hw'⟩
    rw [Expr.unplaced, Expr.unplaced, he]
  | name hk =>
    intro w hw
    obtain ⟨c', u, w', rfl, ⟨hkind, hdata⟩, hw'⟩ := hR.token hw
    refine ⟨_, w', .name (hkind.trans hk), .simple ?_, hw'⟩
    rw [Expr.unplaced, Expr.unplaced, Token.word_eq hkind hdata]
  | array hk _ ih =>
    intro w hw
    obtain ⟨c', u, w₀, rfl, ⟨hkind, _⟩, hw₀⟩ := hR.token hw
    obtain ⟨_, w', rl, hlist, hw'⟩ := ih hw₀
    cases hlist with | list hes =>
    refine ⟨_, w', .array (hkind.trans hk) rl, .simple ?_, hw'⟩
    simp only [Expr.unplaced, unplacedItems_eq, hes]
  | mapping hk _ ih =>
    intro w hw
    obtain ⟨c', u, w₀, rfl, ⟨hkind, _⟩, hw₀⟩ := hR.token hw
    obtain ⟨_, w', rm, hmap, hw'⟩ := ih hw₀
    cases hmap with | map hes =>
    refine ⟨_, w', .mapping (hkind.trans hk) rm, .simple ?_, hw'⟩
    simp only [Expr.unplaced, unplacedEntries_eq, hes]
  | literal hk hv =>
    intro w hw
    obtain ⟨c', u, w', rfl, ⟨hkind, hdata⟩, hw'⟩ := hR.token hw
    exact ⟨_, w', .literal (by rw [hkind]; exact hk) (Token.literal_eq hkind hdata hv), .simple rfl, hw'⟩
  | emptyList hk =>
    intro w hw
    obtain ⟨c', u, w', rfl, ⟨hkind, _⟩, hw'⟩ := hR.token hw
    exact ⟨_, w', .emptyList (hkind.trans hk), .list rfl, hw'⟩
  | list _ ih =>
    intro w hw
    obtain ⟨_, w', ri, hitems, hw'⟩ := ih hw
    cases hitems with | items hes =>
    exact ⟨_, w', .list ri, .list hes, hw'⟩
  | lastItem _ hk ih =>
    intro w hw
    obtain ⟨_, w₁, ri, hitem, hw₁⟩ := ih hw
    obtain ⟨c', u, w', rfl, ⟨hkind, _⟩, hw'⟩ := hR.token hw₁
    cases hitem with | item he =>
    refine ⟨_, w', .lastItem ri (hkind.trans hk), .items ?_, hw'⟩
    rw [List.map_singleton, List.map_singleton, he]
  | items _ hk _ ihi ihis =>
    intro w hw
    obtain ⟨_, w₁, ri, hitem, hw₁⟩ := ihi hw
    obtain ⟨c', u, w₂, rfl, ⟨hkind, _⟩, hw₂⟩ := hR.token hw₁
    obtain ⟨_, w', ris, hitems, hw'⟩ := ihis hw₂
    cases hitem with | item he =>
    cases hitems with | items hes =>
    refine ⟨_, w', .items ri (hkind.trans hk) ris, .items ?_, hw'⟩
    rw [List.map_cons, List.map_cons, he, hes]
  | @item _ kind _ _ _ _ ht hk ih =>
    intro w hw
    obtain ⟨_, w', re, hexpr, hw'⟩ := ih hw
    cases hexpr with | expression he =>
    by_cases hcase : kind = .case
    · obtain ⟨u, hu, _⟩ := re.stops
      exact ⟨_, w', .item re hu fun hne => absurd hcase hne, .item he, hw'⟩
    · obtain ⟨u, hu, hne⟩ := hR.ne_dots hw' ⟨_, ht, hk hcase⟩
      exact ⟨_, w', .item re hu fun _ => hne, .item he, hw'⟩
  | startingAt _ hk ih =>
    intro w hw
    obtain ⟨_, w₁, re, hexpr, hw₁⟩ := ih hw
    obtain ⟨c', u, w', rfl, ⟨hkind, _⟩, hw'⟩ := hR.token hw₁
    cases hexpr with | expression he =>
    refine ⟨_, w', .startingAt re (hkind.trans hk), .item ?_, hw'⟩
    rw [Expr.unplaced, Expr.unplaced, he]
  | endingAt hk _ ih =>
    intro w hw
    obtain ⟨c', u, w₀, rfl, ⟨hkind, _⟩, hw₀⟩ := hR.token hw
    obtain ⟨_, w', re, hexpr, hw'⟩ := ih hw₀
    cases hexpr with | expression he =>
    refine ⟨_, w', .endingAt (hkind.trans hk) re, .item ?_, hw'⟩
    rw [Expr.unplaced, Expr.unplaced, he]
  | emptyMap hk =>
    intro w hw
    obtain ⟨c', u, w', rfl, ⟨hkind, _⟩, hw'⟩ := hR.token hw
    exact ⟨_, w', .emptyMap (hkind.trans hk), .map rfl, hw'⟩
  | map _ ih =>
    intro w hw
    obtain ⟨_, w', res, hentries, hw'⟩ := ih hw
    cases hentries with | entries hes =>
    refine ⟨_, w', .map res, .map ?_, hw'⟩
    rw [← Entries.insertAll_mapValues, ← Entries.insertAll_mapValues, hes]
  | lastEntry hkey hcolon _ hk ih =>
    intro w hw
    obtain ⟨c₁, key, w₁, rfl, ⟨hkind₁, hdata₁⟩, hw₁⟩ := hR.token hw
    obtain ⟨c₂, colon, w₂, rfl, ⟨hkind₂, _⟩, hw₂⟩ := hR.token hw₁
    obtain ⟨_, w₃, re, hexpr, hw₃⟩ := ih hw₂
    obtain ⟨c', u, w', rfl, ⟨hkind, _⟩, hw'⟩ := hR.token hw₃
    cases hexpr with | expression he =>
    refine ⟨_, w', .lastEntry (by rw [hkind₁]; exact hkey) (hkind₂.trans hcolon) re (hkind.trans hk), .entries ?_, hw'⟩
    rw [Entries.mapValues_cons, Entries.mapValues_cons, he, Token.word_eq hkind₁ hdata₁]
  | entries hkey hcolon _ hk _ ihe ihes =>
    intro w hw
    obtain ⟨c₁, key, w₁, rfl, ⟨hkind₁, hdata₁⟩, hw₁⟩ := hR.token hw
    obtain ⟨c₂, colon, w₂, rfl, ⟨hkind₂, _⟩, hw₂⟩ := hR.token hw₁
    obtain ⟨_, w₃, re, hexpr, hw₃⟩ := ihe hw₂
    obtain ⟨c', u, w₄, rfl, ⟨hkind, _⟩, hw₄⟩ := hR.token hw₃
    obtain ⟨_, w', res, hentries, hw'⟩ := ihes hw₄
    cases hexpr with | expression he =>
    cases hentries with | entries hes =>
    refine ⟨_, w', .entries (by rw [hkind₁]; exact hkey) (hkind₂.trans hcolon) re (hkind.trans hk) res, .entries ?_, hw'⟩
    rw [Entries.mapValues_cons, Entries.mapValues_cons, he, hes, Token.word_eq hkind₁ hdata₁]

/-- A phrase that is read from a source is read from the same tokens in another one. -/
theorem Reads.tracks (hafter : ∀ w, after w → w.Closes) (h : Reads p s s') :
    ∀ {w}, Tracks near after s w → ∃ q w', Reads q w w' ∧ p.Alike q ∧ Tracks near after s' w' :=
  h.carried (Tracks.carries hafter)

end ExprLang
