import ExprLang.Proofs.Denotation
import ExprLang.Proofs.Equality
import ExprLang.Proofs.Printing.RoundTrip

/-!
# Reading the text of a value

The text of a value, in every layout, is the source of an expression that evaluates to the value.

* `Number.Expressible`, `Value.Expressible`: the values that a text can express.
* `Layout.writes_bracket`: both layouts separate the parts of a container in the same way.
* `Value.expressed`: the text falls into words off which an expression is read that means the value.
* `Value.parse_render`: hence it is parsed and evaluates to the value, keys in the same order.
-/

namespace ExprLang

open Lexeme

/-! ## What a text can express -/

/-- The text of the number is a number lexeme, maybe after a minus sign, that reads as the absolute value. -/
structure Number.Expressible (x : Float) : Prop where
  finite : x.isFinite = true
  lexeme : ∃ cs, ((Number.text x).toList = cs ∨ (Number.text x).toList = '-' :: cs) ∧
    front cs = .lexeme ⟨.number, cs⟩ [] ∧ Numeral.value? cs = some x.abs

/-- Neither a range nor undefined, no map that repeats a key, and a number only if its text expresses it. -/
def Value.ExpressiblePart : Value → Prop
  | ⟨_, .number x⟩ => Number.Expressible x
  | ⟨_, .map es⟩ => Entries.Nodup es
  | ⟨_, .range _⟩ | ⟨_, .undefined⟩ => False
  | _ => True

def Value.Expressible (v : Value) : Prop := v.Each ExpressiblePart

theorem Value.Expressible.kind_ne {v : Value} (h : v.Expressible) : v.kind ≠ .range := by
  obtain ⟨m, c⟩ := v
  cases c with
  | range => exact absurd h id
  | _ => exact Kind.noConfusion

/-- A number has a minus sign in front if and only if it is not its absolute value but the negative of that. -/
theorem Number.Expressible.cases {x : Float} (h : Expressible x) : ∃ cs, front cs = .lexeme ⟨.number, cs⟩ [] ∧
    Numeral.value? cs = some x.abs ∧
      ((Number.text x).toList = cs ∧ x.abs = x ∨ (Number.text x).toList = '-' :: cs ∧ -x.abs = x) := by
  obtain ⟨cs, htext, hfront, hvalue⟩ := h.lexeme
  obtain ⟨body, hbody, hnumeral⟩ := Number.text_finite h.finite
  refine ⟨cs, hfront, hvalue, ?_⟩
  cases hs : Number.signOf (Number.bits x) with
  | positive =>
    have hbody : (Number.text x).toList = body := by rw [hbody, hs]; rfl
    refine .inl ⟨htext.resolve_right fun hminus => ?_, Number.abs_of_positive h.finite hs⟩
    have hmem : '-' ∈ body := by rw [← hbody, hminus]; exact List.mem_cons_self
    exact absurd (hnumeral.chars '-' hmem) (by decide)
  | negative =>
    have hbody : (Number.text x).toList = '-' :: body := by rw [hbody, hs]; rfl
    refine .inr ⟨htext.resolve_left fun hplain => ?_, Number.neg_abs_of_negative h.finite hs⟩
    obtain ⟨c, r, rfl, hdigit, _, _⟩ := front_number_cases hfront rfl
    rw [hbody] at hplain
    rw [← List.head_eq_of_cons_eq hplain] at hdigit
    cases hdigit

/-- Behind its minus signs the text of a number is read as the absolute value. -/
theorem Number.expressible_iff {x : Float} : Expressible x ↔ x.isFinite = true ∧
    Numeral.value? ((Number.text x).toList.dropWhile (· == '-')) = some x.abs := by
  have hdigit {c : Char} {r : List Char} (h : c.isDigit = true) : (c :: r).dropWhile (· == '-') = c :: r := by
    rw [List.dropWhile_cons, if_neg]
    rw [beq_iff_eq]
    rintro rfl
    cases h
  refine ⟨fun h => ⟨h.finite, ?_⟩, fun ⟨hfinite, hvalue⟩ => ⟨hfinite, ?_⟩⟩
  · obtain ⟨cs, htext, hfront, hvalue⟩ := h.lexeme
    obtain ⟨c, r, rfl, hc, -, -⟩ := front_number_cases hfront rfl
    rcases htext with htext | htext
    · rw [htext, hdigit hc, hvalue]
    · rw [htext, List.dropWhile_cons, if_pos (beq_self_eq_true '-'), hdigit hc, hvalue]
  · obtain ⟨body, htext, hbody⟩ := Number.text_finite hfinite
    obtain ⟨c, r, rfl, hc⟩ := hbody.head
    have hdrop : (Number.text x).toList.dropWhile (· == '-') = c :: r := by
      rw [htext]
      cases Number.signOf (Number.bits x) with
      | positive => exact hdigit hc
      | negative => exact hdigit hc
    refine ⟨c :: r, ?_, hbody.front, hdrop ▸ hvalue⟩
    rw [htext]
    cases Number.signOf (Number.bits x) with
    | positive => exact .inl rfl
    | negative => exact .inr rfl

instance (x : Float) : Decidable (Number.Expressible x) := decidable_of_iff' _ Number.expressible_iff

instance : DecidablePred Value.ExpressiblePart
  | ⟨_, .number x⟩ => inferInstanceAs (Decidable (Number.Expressible x))
  | ⟨_, .map es⟩ => inferInstanceAs (Decidable (Entries.keys es).Nodup)
  | ⟨_, .range _⟩ | ⟨_, .undefined⟩ => isFalse id
  | ⟨_, .boolean _⟩ | ⟨_, .string _⟩ | ⟨_, .array _⟩ | ⟨_, .null⟩ => isTrue trivial

/-! ## Texts of containers -/

/-- The inside of an opening brace begins with a gap. -/
theorem before_openBrace {c : Char} {r : List Char} (hc : isGapSpace c = true) : Before .openBrace (c :: r) := by
  simp only [isGapSpace, Bool.or_eq_true, beq_iff_eq] at hc
  rcases hc with ((rfl | rfl) | rfl) | rfl <;> rfl

theorem Layout.tabs_gap (n : Nat) : ∀ c ∈ (tabs n).toList, isGapSpace c = true := fun c hc => by
  rw [tabs, String.toList_ofList] at hc
  rw [List.eq_of_mem_replicate hc]
  rfl

/-- Parts between brackets fall into their words with commas between them, on one line or on several. -/
theorem Layout.writes_bracket (layout : Layout) (opening closing : Token.Kind) {o c : String}
    (ho : o.toList = (sign opening).text) (hc : c.toList = (sign closing).text)
    (hopens : ∃ c cs, (sign opening).text = c :: cs ∧ opens c = true)
    (hopen : ∀ {c r}, isGapSpace c = true → Before opening (c :: r)) (hclose : ∀ {r}, Delimits r → Before closing r)
    {parts : List String} {wss : List (List Lexeme)} (h : List.Forall₂ (fun p ws => Writes p.toList ws) parts wss) :
    Writes (layout.bracket o c parts).toList (sign opening :: (separate wss ++ [sign closing])) := by
  cases layout with
  | line =>
    refine writes_spaced ?_ hopens (fun _ => hopen rfl) hclose
      (scans_intercalate (g := " ") gap_space (h.imp fun _ _ h => h.falls))
    simp [bracket, ho, hc]
  | block depth =>
    have hgap : ∀ c ∈ '\n' :: (tabs depth).toList, isGapSpace c = true := List.forall_mem_cons.2 ⟨rfl, tabs_gap depth⟩
    have hparts : List.Forall₂ (fun p ws => Falls p.toList ws) (parts.map (tabs (depth + 1) ++ ·)) wss :=
      List.forall₂_map_left_iff.2 (h.imp fun p ws h => by
        rw [String.toList_append]
        exact h.falls.gap (tabs_gap _))
    have hnewline : ∀ c ∈ ['\n'], isGapSpace c = true := List.forall_mem_singleton.2 rfl
    refine writes_enclosed ['\n'] ('\n' :: (tabs depth).toList) ?_ hnewline hgap hopens (fun _ => hopen rfl) hclose
      (fun _ => delimits_of_mem (by decide)) (scans_intercalate (g := "\n") hnewline hparts)
    simp [bracket, ho, hc]

/-! ## Expressions that mean a value -/

/-- The expression evaluates to the value whatever the variables are. -/
def Expr.Means (e : Expr) (v : Value) : Prop := ∀ σ, e.denote .strict σ = .ok v.bare

theorem denoteItems_of_means {us : List Expr} {vs : List Value} {σ : String → Value}
    (h : List.Forall₂ (fun u v => u.denote .strict σ = .ok v.bare) us vs) (hvs : ∀ v ∈ vs, v.kind ≠ .range) :
    denoteItems .strict σ us = .ok (vs.map Value.bare) := by
  induction h with
  | nil => rfl
  | @cons u v us vs hu _ ih =>
    obtain ⟨hv, hvs⟩ := List.forall_mem_cons.1 hvs
    have hsplice : v.bare.splice = .ok [v.bare] := by rw [Value.splice, Value.kind_bare, if_neg hv]
    rw [denoteItems, hu, ih hvs]
    show (v.bare.splice >>= _) = _
    rw [hsplice]
    rfl

theorem denoteEntries_of_means {us : Entries Expr} {es : Entries Value} {σ : String → Value}
    (h : List.Forall₂ (fun f g => f.1 = g.1 ∧ f.2.denote .strict σ = .ok g.2.bare) us es) :
    denoteEntries .strict σ us = .ok (Entries.mapValues Value.bare es) := by
  induction h with
  | nil => rfl
  | @cons f g us es hfirst _ ih =>
    obtain ⟨k, u⟩ := f
    obtain ⟨l, v⟩ := g
    obtain ⟨rfl, hu⟩ := hfirst
    rw [denoteEntries, hu, ih]
    rfl

/-! ## Values read off words -/

theorem ReadOff.item {kind : Item} {α : Type} {R : Expr → α → Prop} {ws : List Lexeme} {a : α}
    (h : ReadOff .expression R ws a) : ReadOff (.item kind) R ws a := fun s s' hs hc => by
  obtain ⟨u, hu, hR⟩ := h s s' hs hc
  obtain ⟨t, ht, hne⟩ := hc.ne_dots
  exact ⟨u, .item hu ht fun _ => hne, hR⟩

theorem means_of_literal {l : Lexeme} {w : Value} (v : Value) (hk : l.kind ∈ Token.Kind.literals) (hv : v.bare = w.bare)
    (h : ∀ t : Token, t.kind = l.kind → t.data = l.data → t.literal = .ok v) : ReadOff .expression Expr.Means [l] w := by
  intro s s' hs hc
  obtain ⟨c, t, rest, rfl, ⟨hkind, hdata⟩, hrest⟩ := Tokens.shows_cons.1 hs
  obtain rfl : rest = s' := hrest
  exact ⟨_, Reads.whole (.literal (by rw [hkind]; exact hk) (h t hkind hdata)) hc, fun _ => by rw [← hv]; rfl⟩

/-- A number lexeme after a minus sign means the negative number. -/
theorem means_of_negative {cs : List Char} {x : Float} (hx : Numeral.value? cs = some x) :
    ReadOff .expression Expr.Means [sign .minus, ⟨.number, cs⟩] (.number (-x)) := by
  intro s s' hs hc
  obtain ⟨c, t, rest, rfl, ⟨hkind, _⟩, hs⟩ := Tokens.shows_cons.1 hs
  obtain ⟨c', t', rest', rfl, ⟨hkind', hdata⟩, hrest⟩ := Tokens.shows_cons.1 hs
  obtain rfl : rest' = s' := hrest
  have hkind' : t'.kind = .number := hkind'
  have hdata : t'.data = cs := hdata
  have hliteral : t'.literal = .ok (.number x) := Token.literal_number hkind' (by rw [hdata, hx])
  have hterm : Reads (.term (.literal t'.location (.number x))) (.token c' t' rest') rest' :=
    .term (.literal (by rw [hkind']; decide) hliteral) hc.ready.reads
  exact ⟨_, Reads.whole (.unary (show UnaryOp.ofKind? t.kind = some .minus by rw [hkind]; rfl) hterm) hc, fun _ => rfl⟩

theorem means_of_array {wss : List (List Lexeme)} {vs : List Value} (m : Option Nat)
    (h : List.Forall₂ (ReadOff .expression Expr.Means) wss vs) (hvs : ∀ v ∈ vs, v.kind ≠ .range) :
    ReadOff .expression Expr.Means (sign .openBracket :: (separate wss ++ [sign .closeBracket])) ⟨m, .array vs⟩ := by
  intro s s' hs hc
  obtain ⟨c, t, rest, rfl, ⟨hkind, _⟩, hs⟩ := Tokens.shows_cons.1 hs
  obtain ⟨us, hus, hmeans⟩ := list_of_words (k := .element) (h.imp fun _ _ h => h.item) hs
  refine ⟨_, Reads.whole (.array hkind hus) hc, fun σ => ?_⟩
  rw [Expr.denote, denoteItems_of_means (hmeans.imp fun _ _ h => h σ) hvs, Value.bare, bareItems_eq]
  rfl

theorem means_of_map {wss : List (List Lexeme)} {es : Entries Value} (m : Option Nat) (h : List.Forall₂ (fun ws f =>
    ∃ vs, ws = entryWords f.1 vs ∧ ReadOff .expression Expr.Means vs f.2) wss es) (hnodup : Entries.Nodup es) :
    ReadOff .expression Expr.Means (sign .openBrace :: (separate wss ++ [sign .closeBrace])) ⟨m, .map es⟩ := by
  intro s s' hs hc
  obtain ⟨c, t, rest, rfl, ⟨hkind, _⟩, hs⟩ := Tokens.shows_cons.1 hs
  obtain ⟨us, hus, hmeans⟩ := map_of_words h hnodup hs
  refine ⟨_, Reads.whole (.mapping hkind hus) hc, fun σ => ?_⟩
  rw [Expr.denote, denoteEntries_of_means (hmeans.imp fun _ _ h => ⟨h.1, h.2 σ⟩), Value.bare, bareEntries_eq]
  rfl

/-! ## Every value that a text expresses -/

/-- A number falls into its lexeme, or into a minus sign and the lexeme of its absolute value. -/
theorem Number.Expressible.expressed {x : Float} (h : Expressible x) (m : Option Nat) :
    ∃ ws, Writes (Number.text x).toList ws ∧ ReadOff .expression Expr.Means ws ⟨m, .number x⟩ := by
  obtain ⟨cs, hfront, hvalue, ⟨htext, habs⟩ | ⟨htext, hneg⟩⟩ := h.cases
  · refine ⟨[⟨.number, cs⟩], by rw [htext]; exact (firm_number hfront).writes, ?_⟩
    exact means_of_literal (.number x) (.tail _ (.head _)) rfl fun t hk hd =>
      Token.literal_number hk (by rw [hd, ← habs, ← hvalue]; rfl)
  · refine ⟨[sign .minus, ⟨.number, cs⟩], ?_, ?_⟩
    · rw [htext]
      exact (firm_number hfront).writes.behind ⟨'-', [], rfl, rfl⟩ before_minus
    · have hmeans := means_of_negative hvalue
      rw [hneg] at hmeans
      exact hmeans

mutual

/-- The text of a value falls into words off which an expression is read that means the value. -/
theorem Value.expressed : ∀ {v : Value}, v.Expressible → ∀ layout : Layout,
    ∃ ws, Writes (v.render layout).toList ws ∧ ReadOff .expression Expr.Means ws v
  | ⟨_, .boolean b⟩, _, _ => ⟨_, (Value.boolean_readsBack b).1.writes,
      means_of_literal (.boolean b) (Value.lexeme_kind (.boolean b)) rfl fun _ hk hd => Token.literal_boolean hk hd⟩
  | ⟨_, .string s⟩, _, _ => ⟨_, (Value.string_readsBack s).1.writes,
      means_of_literal (.string s) (Value.lexeme_kind (.string s)) rfl fun _ hk hd => Token.literal_string hk hd⟩
  | ⟨_, .null⟩, _, _ => ⟨_, Value.null_readsBack.1.writes,
      means_of_literal .null (Value.lexeme_kind .null) rfl fun _ hk _ => Token.literal_null hk⟩
  | ⟨m, .number x⟩, h, _ => Number.Expressible.expressed h m
  | ⟨m, .array []⟩, _, _ => by
    refine ⟨_, ⟨⟨'[', [']'], by rw [Value.render]; rfl, rfl⟩, fun _ => ?_⟩, means_of_array m .nil fun _ h => (nomatch h)⟩
    rw [Value.render]
    exact .sign (k := .openBracket) (by decide) (.sign (k := .closeBracket) (by decide) rfl)
  | ⟨m, .array (v :: vs)⟩, h, layout => by
    obtain ⟨_, hvs⟩ := Value.each_array.1 h
    obtain ⟨wss, hwrites, hread⟩ := items_expressed hvs layout.inner
    refine ⟨_, ?_, means_of_array m hread fun v hv => Value.Expressible.kind_ne (hvs v hv)⟩
    rw [Value.render]
    exact layout.writes_bracket .openBracket .closeBracket rfl rfl ⟨'[', [], rfl, rfl⟩ (fun _ => rfl) (fun _ => rfl)
      hwrites
  | ⟨m, .map []⟩, _, _ => by
    refine ⟨_, ⟨⟨'\x7b', ['\x7d'], by rw [Value.render]; rfl, rfl⟩, fun hr => ?_⟩, means_of_map m .nil .nil⟩
    rw [Value.render]
    exact Before.scans (k := .openBrace) rfl ((before_closeBrace hr).scans rfl)
  | ⟨m, .map (e :: es)⟩, h, layout => by
    obtain ⟨hnodup, hes⟩ := Value.each_map.1 h
    obtain ⟨wss, hwrites, hread⟩ := entries_expressed hes layout.inner
    refine ⟨_, ?_, means_of_map m hread hnodup⟩
    rw [Value.render]
    exact layout.writes_bracket .openBrace .closeBrace rfl rfl ⟨'\x7b', [], rfl, rfl⟩ before_openBrace before_closeBrace
      hwrites

theorem items_expressed : ∀ {vs : List Value}, (∀ v ∈ vs, v.Expressible) → ∀ layout : Layout,
    ∃ wss, List.Forall₂ (fun p ws => Writes p.toList ws) (renderItems layout vs) wss ∧
      List.Forall₂ (ReadOff .expression Expr.Means) wss vs
  | [], _, _ => ⟨[], .nil, .nil⟩
  | v :: vs, h, layout => by
    obtain ⟨hv, hvs⟩ := List.forall_mem_cons.1 h
    obtain ⟨ws, hwrites, hread⟩ := Value.expressed hv layout
    obtain ⟨wss, hwritess, hreads⟩ := items_expressed hvs layout
    exact ⟨ws :: wss, .cons hwrites hwritess, .cons hread hreads⟩

theorem entries_expressed : ∀ {es : List (String × Value)}, (∀ f ∈ es, f.2.Expressible) → ∀ layout : Layout,
    ∃ wss, List.Forall₂ (fun p ws => Writes p.toList ws) (renderEntries layout es) wss ∧
      List.Forall₂ (fun ws f => ∃ vs, ws = entryWords f.1 vs ∧ ReadOff .expression Expr.Means vs f.2) wss es
  | [], _, _ => ⟨[], .nil, .nil⟩
  | (k, v) :: es, h, layout => by
    obtain ⟨hv, hes⟩ := List.forall_mem_cons.1 h
    obtain ⟨ws, hwrites, hread⟩ := Value.expressed hv layout
    obtain ⟨wss, hwritess, hreads⟩ := entries_expressed hes layout
    exact ⟨entryWords k ws :: wss, .cons (hwrites.key k) hwritess, .cons ⟨ws, rfl, hread⟩ hreads⟩

end

/-! ## Reading back -/

namespace Value

theorem expressiblePart_bare (v : Value) : v.bare.ExpressiblePart ↔ v.ExpressiblePart := by
  obtain ⟨m, c⟩ := v
  cases c with
  | map es => exact keyed_heritable.bare ⟨m, .map es⟩
  | _ => exact Iff.rfl

/-- What a text can express does not depend on marks. -/
theorem expressible_of_bare_eq {v w : Value} (h : v.Expressible) (hbare : w.bare = v.bare) : w.Expressible := by
  rw [Expressible, ← each_bare expressiblePart_bare, hbare, each_bare expressiblePart_bare]
  exact h

theorem Expressible.keyed {v : Value} (h : v.Expressible) : v.Keyed :=
  Each.mono (fun v hv => by
    obtain ⟨m, c⟩ := v
    cases c with
    | map es => exact hv
    | _ => trivial) h

theorem Expressible.notNaN {v : Value} (h : v.Expressible) : v.Each NotNaN :=
  Each.mono (fun v hv => by
    obtain ⟨m, c⟩ := v
    cases c with
    | number x => exact Number.isNaN_of_isFinite (Number.Expressible.finite hv)
    | _ => trivial) h

/-- The text of a value, in every layout, is read as an expression that evaluates, in every context, to
an equal value with the same keys in the same order. -/
theorem parse_render {v : Value} (h : v.Expressible) (layout : Layout) : ∃ t, Expr.parse (v.render layout) = .ok t ∧
    ∀ c : Context, ∃ w, (t.evaluate c).1 = .ok w ∧ (w == v) = true ∧ w.bare = v.bare := by
  obtain ⟨ws, hwrites, hread⟩ := expressed h layout
  have hscans : Scans (v.render layout).toList ws [] := by simpa using hwrites.scans (.inl rfl : Delimits [])
  obtain ⟨t, ht, hmeans⟩ := Expr.parse_of_scans hscans hread
  refine ⟨t, ht, fun c => ?_⟩
  have hyields := (t.run_yields .strict c.store c rfl).2
  rw [hmeans c.store.values] at hyields
  obtain ⟨w, hw, hbare⟩ := hyields.exists_ok
  have hexpressible := expressible_of_bare_eq h hbare
  exact ⟨w, hw, equals_of_bare_eq hbare hexpressible.keyed (.inl hexpressible.notNaN), hbare⟩

/-- An entry under a key with a quote, a comment in a string, a negative number and brackets side by side. -/
theorem parse_render_nested :
    let v := Value.map [("\"k", .array [.number (-2.5), .string "// \n\\\x7d", .map []]),
      ("", .array [.null, .boolean true])]
    v.Expressible ∧ ∀ layout, ∃ t, Expr.parse (v.render layout) = .ok t ∧
      ∀ c : Context, ∃ w, (t.evaluate c).1 = .ok w ∧ (w == v) = true ∧ w.bare = v.bare := by
  have hnumber : Number.Expressible (-2.5) :=
    ⟨by decide +kernel, ['2', '.', '5'], .inr (by decide +kernel), rfl, by decide +kernel⟩
  have hexpressible : (Value.map [("\"k", .array [.number (-2.5), .string "// \n\\\x7d", .map []]),
      ("", .array [.null, .boolean true])]).Expressible :=
    ⟨show List.Nodup ["\"k", ""] by decide, ⟨trivial, hnumber, trivial, ⟨.nil, trivial⟩, trivial⟩, ⟨trivial, trivial, trivial, trivial⟩, trivial⟩
  exact ⟨hexpressible, parse_render hexpressible⟩

end Value

end ExprLang
