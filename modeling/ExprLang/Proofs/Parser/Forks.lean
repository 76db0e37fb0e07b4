import ExprLang.Proofs.Grammar

/-!
# Where a brace becomes the end of a switch

Two sources have the same kinds of tokens up to the last token of the first, which closes a map, and
there the second closes a switch (`Tokens.Forks`). No phrase can be read beyond that place from both:
where a map may be closed, no switch may (`Reads.forks`). So an expression that is all of the first
source is not read from the second (`Tokens.Forks.not_reads`).
-/

namespace ExprLang

namespace Tokens

theorem startsIn_token {c : Cursor} {t : Token} {k : Token.Kind} {s : Tokens} (h : t.kind = k) :
    (token c t s).StartsIn [k] := ⟨t, rfl, by rw [h]; exact List.mem_singleton_self _⟩

/-- The same kinds up to a closing brace that is the last token of the first source; there the second has the end of a
switch. Behind a fault of the first nothing is said. -/
inductive Forks : Tokens → Tokens → Prop
  | here {c d stop c' : Cursor} {t u : Token} {r : Except Error Token} {w : Tokens} :
      t.kind = .closeBrace → u.kind = .closeSwitch → Forks (.token c t (.ending d r stop)) (.token c' u w)
  | token {c c' : Cursor} {t u : Token} {s w : Tokens} :
      u.kind = t.kind → Forks s w → Forks (.token c t s) (.token c' u w)
  | fault {c stop : Cursor} {e : Error} {w : Tokens} : Forks (.ending c (.error e) stop) w

namespace Forks

variable {s w : Tokens} {K L : List Token.Kind}

/-- A token that closes no map stands in both sources. -/
theorem of_token {c : Cursor} {t : Token} (h : Forks (.token c t s) w) (ht : t.kind ≠ .closeBrace) :
    ∃ c' u w', w = .token c' u w' ∧ u.kind = t.kind ∧ Forks s w' := by
  cases h with
  | here hk => exact absurd hk ht
  | token hk h => exact ⟨_, _, _, rfl, hk, h⟩

/-- A token that closes a map in the second source stands in both sources. -/
theorem of_brace {c c' : Cursor} {t u : Token} (h : Forks (.token c t s) (.token c' u w)) (hu : u.kind = .closeBrace) :
    Forks s w := by
  cases h with
  | here _ hk =>
    rw [hk] at hu
    cases hu
  | token _ h => exact h

/-- The sources cannot begin in different ways, unless with the two tokens where they part. -/
theorem not_apart (h : Forks s w) (hs : s.StartsIn K) (hw : w.StartsIn L) (hne : ∀ k ∈ K, k ∉ L)
    (hclose : .closeBrace ∉ K ∨ .closeSwitch ∉ L) : False := by
  obtain ⟨t, ht, hks⟩ := hs
  obtain ⟨u, hu, hls⟩ := hw
  cases h with
  | here hk hk' =>
    cases ht
    cases hu
    rw [hk] at hks
    rw [hk'] at hls
    exact hclose.elim (· hks) (· hls)
  | token hk _ =>
    cases ht
    cases hu
    rw [hk] at hls
    exact hne _ hks hls
  | fault => cases ht

/-- No operator is read from the second source where the first stops. -/
theorem not_stops {c : Cursor} {u : Token} {op : BinaryOp} (h : Forks s (.token c u w)) (hs : s.Stops)
    (hop : BinaryOp.ofKind? u.kind = some op) (hw : w.StartsIn Token.Kind.terms) : False := by
  obtain ⟨t, ht, hstop⟩ := hs
  cases h with
  | here _ hk =>
    rw [hk] at hop
    cases hop
  | fault => cases ht
  | token hk h =>
    cases ht
    rcases hstop with hnone | ⟨_, v, hv, hterm⟩
    · rw [hk, hnone] at hop
      cases hop
    · exact h.not_apart (K := [v.kind]) ⟨v, hv, List.mem_singleton_self _⟩ hw
        (fun k hk' => by rw [List.mem_singleton.1 hk']; exact hterm) (.inr (by decide))

/-- No operator is read from the first source where the second stops. -/
theorem not_stops' {c : Cursor} {t : Token} {op : BinaryOp} (h : Forks (.token c t s) w) (hw : w.Stops)
    (hop : BinaryOp.ofKind? t.kind = some op) (hs : s.StartsIn Token.Kind.terms) : False := by
  obtain ⟨u, hu, hstop⟩ := hw
  cases h with
  | here hk _ =>
    rw [hk] at hop
    cases hop
  | token hk h =>
    cases hu
    rcases hstop with hnone | ⟨_, v, hv, hterm⟩
    · rw [← hk, hnone] at hop
      cases hop
    · exact h.not_apart (L := [v.kind]) hs ⟨v, hv, List.mem_singleton_self _⟩
        (fun k hk' hmem => hterm (List.mem_singleton.1 hmem ▸ hk')) (.inl (by decide))

end Forks

end Tokens

/-- Two phrases of one sort. -/
inductive Phrase.Alongside : Phrase → Phrase → Prop
  | expression (e f : Expr) : Alongside (.expression e) (.expression f)
  | operators (js ks : List Joint) : Alongside (.operators js) (.operators ks)
  | term (e f : Expr) : Alongside (.term e) (.term f)
  | subscripts (is ks : List (Location × List Expr)) : Alongside (.subscripts is) (.subscripts ks)
  | simple (e f : Expr) : Alongside (.simple e) (.simple f)
  | list (kind : Item) (es fs : List Expr) : Alongside (.list kind es) (.list kind fs)
  | items (kind : Item) (es fs : List Expr) : Alongside (.items kind es) (.items kind fs)
  | item (kind : Item) (e f : Expr) : Alongside (.item kind e) (.item kind f)
  | map (es fs : Entries Expr) : Alongside (.map es) (.map fs)
  | entries (es fs : Entries Expr) : Alongside (.entries es) (.entries fs)

open Tokens (Forks)

theorem Reads.forks {p : Phrase} {s s' : Tokens} (h : Reads p s s') : ∀ {q : Phrase} {w w' : Tokens},
    p.Alongside q → Reads q w w' → Forks s w → Forks s' w' := by
  have ne_brace : ∀ {t : Token} {ks : List Token.Kind}, t.kind ∈ ks → .closeBrace ∉ ks → t.kind ≠ .closeBrace := by
    intro t ks ht hks hk
    exact hks (hk ▸ ht)
  induction h with
  | expression _ _ iht ihops =>
    rintro _ w w' ⟨⟩ h' hf
    cases h' with
    | expression rt rops => exact ihops (.operators _ _) rops (iht (.term _ _) rt hf)
  | noOperator hstop =>
    rintro _ w w' ⟨⟩ h' hf
    cases h' with
    | noOperator => exact hf
    | operator hk rr _ => exact (hf.not_stops hstop hk rr.starts).elim
  | operator hk rr _ ihr ihops =>
    rintro _ w w' ⟨⟩ h' hf
    cases h' with
    | noOperator hstop => exact (hf.not_stops' hstop hk rr.starts).elim
    | operator hk' rr' rops' =>
      obtain ⟨_, _, _, ⟨⟩, _, hf⟩ := hf.of_token (ne_brace (mem_binaryOperators.2 ⟨_, hk⟩) (by decide))
      exact ihops (.operators _ _) rops' (ihr (.term _ _) rr' hf)
  | switch hk _ ih =>
    rintro _ w w' ⟨⟩ h' hf
    cases h' with
    | switch _ rl =>
      obtain ⟨_, _, _, ⟨⟩, _, hf⟩ := hf.of_token (by rw [hk]; decide)
      exact ih (.list _ _ _) rl hf
    | term rb _ =>
      exact (hf.not_apart (L := Token.Kind.simpleTerms) (Tokens.startsIn_token hk) rb.starts (by decide)
        (.inl (by decide))).elim
  | term rb _ ihb ihsubs =>
    rintro _ w w' ⟨⟩ h' hf
    cases h' with
    | switch hk _ =>
      exact (hf.not_apart (K := Token.Kind.simpleTerms) rb.starts (Tokens.startsIn_token hk) (by decide)
        (.inr (by decide))).elim
    | term rb' rsubs' => exact ihsubs (.subscripts _ _) rsubs' (ihb (.simple _ _) rb' hf)
  | noSubscript ht hk =>
    rintro _ w w' ⟨⟩ h' hf
    cases h' with
    | noSubscript => exact hf
    | subscript hk' =>
      have hs : Tokens.StartsIn _ _ := ⟨_, ht, List.mem_singleton_self _⟩
      exact (hf.not_apart hs (Tokens.startsIn_token hk') (by simpa using hk) (.inr (by decide))).elim
  | subscript hk _ _ ihl ihsubs =>
    rintro _ w w' ⟨⟩ h' hf
    cases h' with
    | noSubscript hu hne =>
      have hw : Tokens.StartsIn _ _ := ⟨_, hu, List.mem_singleton_self _⟩
      exact (hf.not_apart (Tokens.startsIn_token hk) hw (by simpa using Ne.symm hne) (.inl (by decide))).elim
    | subscript _ rl rsubs =>
      obtain ⟨_, _, _, ⟨⟩, _, hf⟩ := hf.of_token (by rw [hk]; decide)
      exact ihsubs (.subscripts _ _) rsubs (ihl (.list _ _ _) rl hf)
  | unary hk _ ih =>
    rintro _ w w' ⟨⟩ h' hf
    obtain ⟨_, _, _, rfl, hkind, hf⟩ := hf.of_token (ne_brace (mem_unaryOperators.2 ⟨_, hk⟩) (by decide))
    cases h' with
    | unary _ ra => exact ih (.term _ _) ra hf
    | _ => grind [UnaryOp.ofKind?, Token.Kind.literals]
  | group hk _ hclose ih =>
    rintro _ w w' ⟨⟩ h' hf
    obtain ⟨_, _, _, rfl, hkind, hf⟩ := hf.of_token (by rw [hk]; decide)
    cases h' with
    | group _ ra _ =>
      obtain ⟨_, _, _, ⟨⟩, _, hf⟩ := (ih (.expression _ _) ra hf).of_token (by rw [hclose]; decide)
      exact hf
    | _ => grind [UnaryOp.ofKind?, Token.Kind.literals]
  | name hk =>
    rintro _ w w' ⟨⟩ h' hf
    obtain ⟨_, _, _, rfl, hkind, hf⟩ := hf.of_token (by rw [hk]; decide)
    cases h' with
    | name => exact hf
    | _ => grind [UnaryOp.ofKind?, Token.Kind.literals]
  | array hk _ ih =>
    rintro _ w w' ⟨⟩ h' hf
    obtain ⟨_, _, _, rfl, hkind, hf⟩ := hf.of_token (by rw [hk]; decide)
    cases h' with
    | array _ rl => exact ih (.list _ _ _) rl hf
    | _ => grind [UnaryOp.ofKind?, Token.Kind.literals]
  | mapping hk _ ih =>
    rintro _ w w' ⟨⟩ h' hf
    obtain ⟨_, _, _, rfl, hkind, hf⟩ := hf.of_token (by rw [hk]; decide)
    cases h' with
    | mapping _ rm => exact ih (.map _ _) rm hf
    | _ => grind [UnaryOp.ofKind?, Token.Kind.literals]
  | literal hk _ =>
    rintro _ w w' ⟨⟩ h' hf
    obtain ⟨_, _, _, rfl, hkind, hf⟩ := hf.of_token (ne_brace hk (by decide))
    cases h' with
    | literal => exact hf
    | _ => grind [UnaryOp.ofKind?, Token.Kind.literals]
  | @emptyList _ _ kind _ hk =>
    rintro _ w w' ⟨⟩ h' hf
    have hne : kind.close ≠ .closeBrace := by cases kind <;> decide
    obtain ⟨_, _, _, rfl, hkind, hf⟩ := hf.of_token (by rw [hk]; exact hne)
    cases h' with
    | emptyList => exact hf
    | list ri =>
      obtain ⟨_, ⟨⟩, hclose⟩ := ri.items_ne_close
      exact absurd (hkind.trans hk) hclose
  | @list kind _ _ _ ri ih =>
    rintro _ w w' ⟨⟩ h' hf
    cases h' with
    | emptyList hk =>
      have hs : Tokens.StartsIn _ (.dots :: Token.Kind.terms) := ri.starts.mono fun k hmem => by
        cases kind with
        | index => exact hmem
        | _ => exact List.mem_cons_of_mem _ hmem
      exact (hf.not_apart hs (Tokens.startsIn_token hk) (by cases kind <;> decide) (.inl (by decide))).elim
    | list ri' => exact ih (.items _ _ _) ri' hf
  | @lastItem _ _ kind _ _ _ _ hk ih =>
    rintro _ w w' ⟨⟩ h' hf
    have hne : kind.close ≠ .closeBrace := by cases kind <;> decide
    cases h' with
    | lastItem ri _ =>
      obtain ⟨_, _, _, ⟨⟩, _, hf⟩ := (ih (.item _ _ _) ri hf).of_token (by rw [hk]; exact hne)
      exact hf
    | items ri hk' _ =>
      obtain ⟨_, _, _, ⟨⟩, hkind, _⟩ := (ih (.item _ _ _) ri hf).of_token (by rw [hk]; exact hne)
      rw [hkind, hk] at hk'
      cases kind <;> cases hk'
  | @items _ _ kind _ _ _ _ _ _ hk _ ihi ihis =>
    rintro _ w w' ⟨⟩ h' hf
    cases h' with
    | lastItem ri hk' =>
      obtain ⟨_, _, _, ⟨⟩, hkind, _⟩ := (ihi (.item _ _ _) ri hf).of_token (by rw [hk]; decide)
      rw [hkind, hk] at hk'
      cases kind <;> cases hk'
    | items ri _ ris =>
      obtain ⟨_, _, _, ⟨⟩, _, hf⟩ := (ihi (.item _ _ _) ri hf).of_token (by rw [hk]; decide)
      exact ihis (.items _ _ _) ris hf
  | @item _ kind _ _ _ re ht hne ih =>
    rintro _ w w' ⟨⟩ h' hf
    cases h' with
    | item re' => exact ih (.expression _ _) re' hf
    | startingAt re' hk =>
      have hs : Tokens.StartsIn _ _ := ⟨_, ht, List.mem_singleton_self _⟩
      exact ((ih (.expression _ _) re' hf).not_apart hs (Tokens.startsIn_token hk) (by simpa using hne)
        (.inr (by decide))).elim
    | endingAt hk =>
      exact (hf.not_apart (K := Token.Kind.terms) re.starts (Tokens.startsIn_token hk) (by decide)
        (.inl (by decide))).elim
  | startingAt re hk ih =>
    rintro _ w w' ⟨⟩ h' hf
    cases h' with
    | item re' hu hne =>
      have hw : Tokens.StartsIn _ _ := ⟨_, hu, List.mem_singleton_self _⟩
      exact ((ih (.expression _ _) re' hf).not_apart (Tokens.startsIn_token hk) hw (by simpa [eq_comm] using hne)
        (.inl (by decide))).elim
    | startingAt re' _ =>
      obtain ⟨_, _, _, ⟨⟩, _, hf⟩ := (ih (.expression _ _) re' hf).of_token (by rw [hk]; decide)
      exact hf
    | endingAt hk' =>
      exact (hf.not_apart (K := Token.Kind.terms) re.starts (Tokens.startsIn_token hk') (by decide)
        (.inl (by decide))).elim
  | endingAt hk _ ih =>
    rintro _ w w' ⟨⟩ h' hf
    cases h' with
    | item re' | startingAt re' =>
      exact (hf.not_apart (L := Token.Kind.terms) (Tokens.startsIn_token hk) re'.starts (by decide)
        (.inl (by decide))).elim
    | endingAt _ re' =>
      obtain ⟨_, _, _, ⟨⟩, _, hf⟩ := hf.of_token (by rw [hk]; decide)
      exact ih (.expression _ _) re' hf
  | emptyMap hk =>
    rintro _ w w' ⟨⟩ h' hf
    cases h' with
    | emptyMap hk' => exact hf.of_brace hk'
    | map res =>
      exact (hf.not_apart (L := [.string, .name]) (Tokens.startsIn_token hk) res.starts (by decide)
        (.inr (by decide))).elim
  | map res ih =>
    rintro _ w w' ⟨⟩ h' hf
    cases h' with
    | emptyMap hk =>
      exact (hf.not_apart (K := [.string, .name]) res.starts (Tokens.startsIn_token hk) (by decide)
        (.inl (by decide))).elim
    | map res' => exact ih (.entries _ _) res' hf
  | lastEntry hkey hcolon _ hk ih =>
    rintro _ w w' ⟨⟩ h' hf
    obtain ⟨_, _, _, rfl, _, hf⟩ := hf.of_token (ne_brace hkey (by decide))
    obtain ⟨_, _, _, rfl, _, hf⟩ := hf.of_token (by rw [hcolon]; decide)
    cases h' with
    | lastEntry _ _ re hk' => exact (ih (.expression _ _) re hf).of_brace hk'
    | entries _ _ re hk' =>
      exact ((ih (.expression _ _) re hf).not_apart (Tokens.startsIn_token hk) (Tokens.startsIn_token hk') (by decide)
        (.inr (by decide))).elim
  | entries hkey hcolon _ hk _ ihe ihes =>
    rintro _ w w' ⟨⟩ h' hf
    obtain ⟨_, _, _, rfl, _, hf⟩ := hf.of_token (ne_brace hkey (by decide))
    obtain ⟨_, _, _, rfl, _, hf⟩ := hf.of_token (by rw [hcolon]; decide)
    cases h' with
    | lastEntry _ _ re hk' =>
      exact ((ihe (.expression _ _) re hf).not_apart (Tokens.startsIn_token hk) (Tokens.startsIn_token hk') (by decide)
        (.inl (by decide))).elim
    | entries _ _ re _ res =>
      obtain ⟨_, _, _, ⟨⟩, _, hf⟩ := (ihe (.expression _ _) re hf).of_token (by rw [hk]; decide)
      exact ihes (.entries _ _) res hf

/-- No expression is read from the second source if the first is all one expression. -/
theorem Tokens.Forks.not_reads {s s' w w' : Tokens} {e f : Expr} {t : Token} (h : Forks s w) (hwf : s.Wf)
    (hs : Reads (.expression e) s s') (ht : s'.head = .ok t) (hend : t.kind = .endOfInput) :
    ¬ Reads (.expression f) w w' := by
  intro hw
  have hf := hs.forks (.expression e f) hw h
  have hwf' := hs.wf hwf
  cases hf with
  | here | token =>
    cases ht
    exact hwf'.1.kind_ne hend
  | fault => cases ht

end ExprLang
