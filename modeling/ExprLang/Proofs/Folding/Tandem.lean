import ExprLang.Proofs.Folding.Constants

/-!
# Two evaluations side by side

An expression is evaluated on the left, and what it was folded to on the right. A tandem is a pair of contexts that two such
evaluations have come to, with the objects that correspond: those that both sides have made, in the same places. The other
objects of the right side are those of folded literals, and those that they stand for on the left come from inside constant
parts (`Tandem.Apart`). Tandems only grow, and values that match go on matching (`Tandem.Matched.mono`).
-/

namespace ExprLang

/-- The contexts of two evaluations. -/
structure Tandem where
  left : Context
  right : Context
  /-- The marks of objects that correspond. -/
  pairs : Nat → Nat → Prop
  /-- All literals with marks below it have been evaluated on the right. -/
  bound : Nat

namespace Tandem

variable {s : Setting} {t t' t'' : Tandem} {u x : Value}

/-- The marks that are in use on the right: those of literals and those that the context has issued. -/
def Used (s : Setting) (t : Tandem) (b : Nat) : Prop := b < t.bound ∨ s.first ≤ b ∧ b < t.right.next

/-- What two evaluations keep. -/
structure Sound (s : Setting) (t : Tandem) : Prop where
  store : t.right.store = t.left.store
  left : t.left.Known
  right {b : Nat} : ¬ t.Used s b → t.right.place b = none
  bound : t.bound ≤ s.first
  first : s.first ≤ t.right.next
  paired {a b : Nat} : t.pairs a b → a < t.left.next ∧ s.first ≤ b ∧ b < t.right.next
  place {a b : Nat} : t.pairs a b → t.left.place a = t.right.place b
  one {a b a' b' : Nat} : t.pairs a b → t.pairs a' b' → (a = a' ↔ b = b')
  vars (name : String) : (t.left.lookup name).Each fun u => ∀ m, u.mark = some m → t.pairs m m

/-- Both sides go on: more objects, and more of them with a known place. -/
structure Grows (s : Setting) (t t' : Tandem) : Prop where
  next : t.left.next ≤ t'.left.next
  used {b : Nat} : t.Used s b → t'.Used s b
  keeps {a b : Nat} : t.pairs a b → t'.pairs a b
  fresh {a b : Nat} : t'.pairs a b → t.pairs a b ∨ t.left.next ≤ a ∧ ¬ t.Used s b
  left {m : Nat} {l : Location} : t.left.place m = some l → t'.left.place m = some l
  right {m : Nat} {l : Location} : t.right.place m = some l → t'.right.place m = some l

theorem Grows.refl (s : Setting) (t : Tandem) : t.Grows s t :=
  ⟨Nat.le_refl _, id, id, .inl, id, id⟩

theorem Grows.trans (h : t.Grows s t') (h' : t'.Grows s t'') : t.Grows s t'' where
  next := h.next.trans h'.next
  used hb := h'.used (h.used hb)
  keeps hab := h'.keeps (h.keeps hab)
  fresh hab := by
    rcases h'.fresh hab with hab | ⟨ha, hb⟩
    · exact h.fresh hab
    · exact .inr ⟨h.next.trans ha, fun hused => hb (h.used hused)⟩
  left hl := h'.left (h.left hl)
  right hl := h'.right (h.right hl)

/-! ## Values that match -/

/-- Objects that do not correspond. Either the left one comes from inside a constant part, or both were produced in the same
place, or they are integers of a range that was spliced into an array. -/
structure Apart (s : Setting) (t : Tandem) (u x : Value) : Prop where
  left {a : Nat} : u.mark = some a → a < t.left.next ∧ ∀ b, ¬ t.pairs a b
  right {b : Nat} : x.mark = some b → t.Used s b ∧ ∀ a, ¬ t.pairs a b
  partless : x.mark = none → x.Partless
  excuse : (∃ l, t.left.origin u = some l ∧ (s.inner l ∨ t.right.origin x = some l)) ∨ s.spreads ∧ u.kind = .number

/-- How a value on the left and one on the right belong together. -/
inductive Matched (s : Setting) (t : Tandem) : Value → Value → Prop
  | new {u x : Value} : u.mark = none → x.mark = none → Matched s t u x
  | pair {u x : Value} {a b : Nat} : u.mark = some a → x.mark = some b → t.pairs a b → Matched s t u x
  | apart {u x : Value} : t.Apart s u x → Matched s t u x

theorem origin_mono {c d : Context} {l : Location} (h : ∀ {m : Nat}, c.place m = some l → d.place m = some l)
    (hu : c.origin u = some l) : d.origin u = some l := by
  obtain ⟨m, hm, hl⟩ := Option.bind_eq_some_iff.1 hu
  exact Option.bind_eq_some_iff.2 ⟨m, hm, h hl⟩

theorem Apart.mono (h : t.Apart s u x) (hgrows : t.Grows s t') : t'.Apart s u x where
  left ha := by
    refine ⟨(h.left ha).1.trans_le hgrows.next, fun b hab => ?_⟩
    rcases hgrows.fresh hab with hab | ⟨hnext, -⟩
    · exact (h.left ha).2 b hab
    · exact absurd (h.left ha).1 hnext.not_gt
  right hb := by
    refine ⟨hgrows.used (h.right hb).1, fun a hab => ?_⟩
    rcases hgrows.fresh hab with hab | ⟨-, hunused⟩
    · exact (h.right hb).2 a hab
    · exact hunused (h.right hb).1
  partless := h.partless
  excuse := h.excuse.imp_left fun ⟨l, hl, h⟩ =>
    ⟨l, origin_mono hgrows.left hl, h.imp_right fun hx => origin_mono hgrows.right hx⟩

theorem Matched.mono (h : t.Matched s u x) (hgrows : t.Grows s t') : t'.Matched s u x := by
  cases h with
  | new hu hx => exact .new hu hx
  | pair ha hb hab => exact .pair ha hb (hgrows.keeps hab)
  | apart h => exact .apart (h.mono hgrows)

/-- Values that match part by part. -/
abbrev Match (s : Setting) (t : Tandem) : Value → Value → Prop := Value.Paired (t.Matched s)

theorem match_mono (h : t.Match s u x) (hgrows : t.Grows s t') : t'.Match s u x :=
  Value.Paired.mono h fun _ _ h => h.mono hgrows

/-- What steps make of values that match. -/
theorem match_of_made (h : u.Made (t.Matched s) x) : t.Match s u x := by
  cases h with
  | same h => exact h
  | new h => exact .mk (.new rfl rfl) h

/-! ## New objects -/

/-- The next mark on the right is free. -/
theorem Sound.unused (h : t.Sound s) : ¬ t.Used s t.right.next := by
  rintro (hb | ⟨-, hb⟩)
  · exact Nat.not_lt.2 (h.bound.trans h.first) hb
  · exact Nat.lt_irrefl _ hb

theorem Sound.alone_left (h : t.Sound s) {a : Nat} (ha : t.left.next ≤ a) (b : Nat) : ¬ t.pairs a b := fun hab =>
  Nat.not_lt.2 ha (h.paired hab).1

theorem Sound.alone_right (h : t.Sound s) {b : Nat} (hb : t.right.next ≤ b) (a : Nat) : ¬ t.pairs a b := fun hab =>
  Nat.not_lt.2 hb (h.paired hab).2.2

/-- Objects of literals do not correspond to any. -/
theorem Sound.alone_literal (h : t.Sound s) {b : Nat} (hb : b < s.first) (a : Nat) : ¬ t.pairs a b := fun hab =>
  Nat.not_lt.2 (h.paired hab).2.1 hb

/-! ## One side alone -/

/-- The left side makes objects that the right side does not have. -/
theorem Sound.goLeft (h : t.Sound s) {c : Context} (hc : t.left.Makes c) :
    ({ t with left := c } : Tandem).Sound s ∧ t.Grows s { t with left := c } where
  left := { h with
    store := h.store.trans hc.store.symm
    left := hc.known
    paired := fun hab => ⟨(h.paired hab).1.trans_le hc.next, (h.paired hab).2⟩
    place := fun hab => (hc.place (h.paired hab).1).trans (h.place hab)
    vars := fun name => by
      rw [Context.lookup, hc.store]
      exact h.vars name }
  right := { Grows.refl s t with
    next := hc.next
    left := fun {m l} hl => by
      refine (hc.place (Nat.lt_of_not_le fun hle => ?_)).trans hl
      rw [h.left m hle] at hl
      cases hl }

/-- On the right, more literals count as evaluated. -/
theorem Sound.raise (h : t.Sound s) {n : Nat} (hle : t.bound ≤ n) (hn : n ≤ s.first) :
    ({ t with bound := n } : Tandem).Sound s ∧ t.Grows s { t with bound := n } := by
  have hused : ∀ {b}, t.Used s b → ({ t with bound := n } : Tandem).Used s b := fun hb =>
    hb.imp_left fun hb => hb.trans_le hle
  exact ⟨{ h with right := fun hb => h.right fun hused' => hb (hused hused'), bound := hn }, { Grows.refl s t with used := hused }⟩

/-- The right side makes one object that the left side does not have. -/
theorem Sound.issueRight (h : t.Sound s) :
    let t' : Tandem := { t with right := { t.right with next := t.right.next + 1 } }
    t'.Sound s ∧ t.Grows s t' := by
  intro t'
  have hused : ∀ {b}, t.Used s b → t'.Used s b := fun hb => hb.imp_right fun hb => ⟨hb.1, Nat.lt_succ_of_lt hb.2⟩
  refine ⟨{ h with right := ?_, first := ?_, paired := ?_ }, { Grows.refl s t with used := hused }⟩
  · exact fun hb => h.right fun hused' => hb (hused hused')
  · exact Nat.le_succ_of_le h.first
  · exact fun hab => ⟨(h.paired hab).1, (h.paired hab).2.1, Nat.lt_succ_of_lt (h.paired hab).2.2⟩

/-- Each side makes an object, and they correspond. -/
def issue (t : Tandem) : Tandem where
  left := { t.left with next := t.left.next + 1 }
  right := { t.right with next := t.right.next + 1 }
  pairs a b := t.pairs a b ∨ a = t.left.next ∧ b = t.right.next
  bound := t.bound

theorem Sound.issue (h : t.Sound s) : t.issue.Sound s ∧ t.Grows s t.issue := by
  have hused : ∀ {b}, t.Used s b → t.issue.Used s b := fun hb => hb.imp_right fun hb => ⟨hb.1, Nat.lt_succ_of_lt hb.2⟩
  constructor
  · exact
      { store := h.store
        left := fun m hm => h.left m (Nat.le_of_succ_le hm)
        right := fun hb => h.right fun hused' => hb (hused hused')
        bound := h.bound
        first := Nat.le_succ_of_le h.first
        paired := by
          rintro a b (hab | ⟨rfl, rfl⟩)
          · obtain ⟨ha, hfirst, hb⟩ := h.paired hab
            exact ⟨Nat.lt_succ_of_lt ha, hfirst, Nat.lt_succ_of_lt hb⟩
          · exact ⟨Nat.lt_succ_self _, h.first, Nat.lt_succ_self _⟩
        place := by
          rintro a b (hab | ⟨rfl, rfl⟩)
          · exact h.place hab
          · exact (h.left _ (Nat.le_refl _)).trans (h.right h.unused).symm
        one := by
          rintro a b a' b' (hab | ⟨rfl, rfl⟩) (hab' | ⟨rfl, rfl⟩)
          · exact h.one hab hab'
          · exact iff_of_false (h.paired hab).1.ne (h.paired hab).2.2.ne
          · exact iff_of_false (h.paired hab').1.ne' (h.paired hab').2.2.ne'
          · exact iff_of_true rfl rfl
        vars := fun name => (h.vars name).mono fun u hu m hm => .inl (hu m hm) }
  · refine { Grows.refl s t with next := Nat.le_succ _, used := hused, keeps := .inl, fresh := fun hab => hab.imp_right ?_ }
    rintro ⟨rfl, rfl⟩
    exact ⟨Nat.le_refl _, h.unused⟩

/-! ## Recording -/

theorem place_record_mono {c : Context} {m : Nat} {l : Location} (u : Value) (at? : Option Location)
    (hl : c.place m = some l) : (c.record u at?).place m = some l := by
  rw [Context.place_record, hl, Option.some_or]

theorem place_record_of_ne {c : Context} {m : Nat} (at? : Option Location) (hm : ¬ u.mark = some m) :
    (c.record u at?).place m = c.place m := by
  rw [Context.place_record, if_neg hm, Option.or_none]

variable {l : Option Location}

theorem Sound.recordLeft (h : t.Sound s) (hu : ∀ {a}, u.mark = some a → a < t.left.next ∧ ∀ b, ¬ t.pairs a b) :
    let t' : Tandem := { t with left := t.left.record u l }
    t'.Sound s ∧ t.Grows s t' := by
  intro t'
  have hnext : t'.left.next = t.left.next := Context.next_record _ _ _
  have hstore : t'.left.store = t.left.store := Evaluation.store_record _ _ _
  refine ⟨{ h with store := h.store.trans hstore.symm, left := ?_, paired := ?_, place := ?_, vars := ?_ },
    { Grows.refl s t with next := hnext.ge, left := place_record_mono u l }⟩
  · intro m hm
    rw [hnext] at hm
    exact (place_record_of_ne l fun hmark => (hu hmark).1.not_ge hm).trans (h.left m hm)
  · rw [hnext]
    exact h.paired
  · exact fun {a b} hab => (place_record_of_ne l fun hmark => (hu hmark).2 b hab).trans (h.place hab)
  · intro name
    rw [Context.lookup, hstore]
    exact h.vars name

theorem Sound.recordRight (h : t.Sound s) (hx : ∀ {b}, x.mark = some b → t.Used s b ∧ ∀ a, ¬ t.pairs a b) :
    let t' : Tandem := { t with right := t.right.record x l }
    t'.Sound s ∧ t.Grows s t' := by
  intro t'
  have hnext : t'.right.next = t.right.next := Context.next_record _ _ _
  have hused : ∀ {b}, t'.Used s b ↔ t.Used s b := by
    unfold Used
    rw [hnext]
  refine ⟨{ h with store := ?_, right := ?_, first := hnext ▸ h.first, paired := ?_, place := ?_ },
    { Grows.refl s t with used := hused.2, right := place_record_mono x l }⟩
  · exact (Evaluation.store_record _ _ _).trans h.store
  · intro b hb
    rw [hused] at hb
    exact (place_record_of_ne l fun hmark => hb (hx hmark).1).trans (h.right hb)
  · rw [hnext]
    exact h.paired
  · exact fun {a b} hab => (h.place hab).trans (place_record_of_ne l fun hmark => (hx hmark).2 a hab).symm

/-- Objects that correspond are recorded in the same place. -/
theorem Sound.recordPair (h : t.Sound s) {a b : Nat} (hu : u.mark = some a) (hx : x.mark = some b) (hab : t.pairs a b) :
    let t' : Tandem := { t with left := t.left.record u l, right := t.right.record x l }
    t'.Sound s ∧ t.Grows s t' := by
  intro t'
  have hleft : t'.left.next = t.left.next := Context.next_record _ _ _
  have hright : t'.right.next = t.right.next := Context.next_record _ _ _
  have hstore : t'.left.store = t.left.store := Evaluation.store_record _ _ _
  have hused : ∀ {b}, t'.Used s b ↔ t.Used s b := by
    unfold Used
    rw [hright]
  refine ⟨{ h with store := ?_, left := ?_, right := ?_, first := hright ▸ h.first, paired := ?_, place := ?_, vars := ?_ },
    { Grows.refl s t with
      next := hleft.ge, used := hused.2, left := place_record_mono u l, right := place_record_mono x l }⟩
  · exact (Evaluation.store_record _ _ _).trans (h.store.trans hstore.symm)
  · intro m hm
    rw [hleft] at hm
    refine (place_record_of_ne l fun hmark => ?_).trans (h.left m hm)
    rw [hu] at hmark
    cases hmark
    exact (h.paired hab).1.not_ge hm
  · intro k hk
    rw [hused] at hk
    refine (place_record_of_ne l fun hmark => ?_).trans (h.right hk)
    rw [hx] at hmark
    cases hmark
    exact hk (.inr (h.paired hab).2)
  · rw [hleft, hright]
    exact h.paired
  · intro a' b' hpair
    have hsame : (u.mark = some a') ↔ x.mark = some b' := by
      rw [hu, hx, Option.some_inj, Option.some_inj]
      exact h.one hab hpair
    show (t.left.record u l).place a' = (t.right.record x l).place b'
    rw [Context.place_record, Context.place_record, h.place hpair, if_congr hsame rfl rfl]
  · intro name
    rw [Context.lookup, hstore]
    exact h.vars name

/-- Recording values that match in the same place. -/
theorem Sound.record (h : t.Sound s) (hux : t.Matched s u x) :
    let t' : Tandem := { t with left := t.left.record u l, right := t.right.record x l }
    t'.Sound s ∧ t.Grows s t' := by
  cases hux with
  | new hu hx =>
    obtain ⟨m, c⟩ := u
    obtain ⟨n, d⟩ := x
    cases hu
    cases hx
    exact ⟨h, .refl s t⟩
  | pair hu hx hab => exact h.recordPair hu hx hab
  | apart hux =>
    obtain ⟨hsound, hgrows⟩ := h.recordLeft (l := l) hux.left
    have hlater := hux.mono hgrows
    obtain ⟨hsound', hgrows'⟩ := hsound.recordRight (l := l) hlater.right
    exact ⟨hsound', hgrows.trans hgrows'⟩

end Tandem

/-! ## Evaluations side by side -/

/-- The same error, in the same place, or about an object that comes from inside a constant part or is an integer of a range
that was spliced into an array. -/
structure Setting.Shifts (s : Setting) (r r' : Error) : Prop where
  bare : r.bare = r'.bare
  location : r.location = r'.location ∨
    ∃ k, r.About k ∧ ((∃ l, r.location = some l ∧ s.inner l) ∨ k = .number ∧ s.spreads)

theorem Setting.Shifts.refl (s : Setting) (r : Error) : s.Shifts r r := ⟨rfl, .inl rfl⟩

theorem Error.location_orLocation_eq (r : Error) (l : Option Location) :
    (r.orLocation l).location = if r.bare.isEvaluation = true then r.location.or l else r.location := by
  cases r <;> rfl

/-- Attributing an error to an expression keeps its place, if it has one. -/
theorem Error.location_inExpression_eq (r : Error) (text : String) (l : Option Location) :
    (r.inExpression text l).location = if r.bare.isEvaluation = true then r.location.or l else r.location := by
  cases r with
  | evaluation m text? f => cases text? <;> rfl
  | _ => rfl

theorem Setting.Shifts.blame {s : Setting} {e e' : Expr} {r r' : Error} (h : s.Shifts r r')
    (hl : e'.location = e.location) : s.Shifts (e.blame r) (e'.blame r') where
  bare := by rw [Expr.blame_eq, Expr.blame_eq, Error.bare_inExpression, Error.bare_inExpression, h.bare]
  location := by
    rw [Expr.blame_eq, Expr.blame_eq, Error.location_inExpression_eq, Error.location_inExpression_eq, h.bare, hl]
    rcases h.location with hsame | ⟨k, habout, hplace⟩
    · rw [hsame]
      exact .inl rfl
    · refine .inr ⟨k, habout.inExpression _ _, hplace.imp_left ?_⟩
      rintro ⟨l, hl, hinner⟩
      refine ⟨l, ?_, hinner⟩
      rw [hl]
      exact ite_self _

namespace Tandem

variable {α β γ δ : Type} {s : Setting} {t t' : Tandem} {m n : Nat}

/-- How two evaluations end that started in a tandem: with results that are related in a later one, or with errors. -/
inductive Ends (s : Setting) (t : Tandem) (n : Nat) (R : Tandem → α → β → Prop) :
    Except Error α × Context → Except Error β × Context → Prop
  | ok {t' : Tandem} {a : α} {b : β} : t.Grows s t' → t'.Sound s → t'.bound ≤ n → R t' a b →
      Ends s t n R (.ok a, t'.left) (.ok b, t'.right)
  | error {r r' : Error} {c d : Context} : s.Shifts r r' → Ends s t n R (.error r, c) (.error r', d)

theorem Ends.after {R : Tandem → α → β → Prop} {p : Except Error α × Context} {q : Except Error β × Context}
    (hgrows : t.Grows s t') (h : t'.Ends s n R p q) : t.Ends s n R p q := by
  cases h with
  | ok hgrows' hsound hn hab => exact .ok (hgrows.trans hgrows') hsound hn hab
  | error hr => exact .error hr

/-- Two evaluations that are started in a tandem. -/
def Follows (s : Setting) (t : Tandem) (n : Nat) (x : Evaluation α) (y : Evaluation β) (R : Tandem → α → β → Prop) : Prop :=
  t.Ends s n R (x t.left) (y t.right)

variable {x : Evaluation α} {y : Evaluation β} {R S : Tandem → α → β → Prop} {Q : Tandem → γ → δ → Prop}

theorem Follows.pure {a : α} {b : β} (h : t.Sound s) (hn : t.bound ≤ n) (hab : R t a b) :
    t.Follows s n (Pure.pure a) (Pure.pure b) R := .ok (.refl s t) h hn hab

theorem Follows.result {r : Except Error α} {r' : Except Error β} (h : t.Sound s) (hn : t.bound ≤ n)
    (hr : Outcome.Related s.Shifts (R t) r r') : t.Follows s n (Evaluation.result r) (Evaluation.result r') R := by
  cases hr with
  | ok hab => exact .ok (.refl s t) h hn hab
  | error hr => exact .error hr

theorem Follows.bind {k : α → Evaluation γ} {l : β → Evaluation δ} (h : t.Follows s n x y R)
    (hk : ∀ t' a b, t.Grows s t' → t'.Sound s → t'.bound ≤ n → R t' a b → t'.Follows s m (k a) (l b) Q) :
    t.Follows s m (x >>= k) (y >>= l) Q := by
  unfold Follows at h ⊢
  rw [Evaluation.bind_apply, Evaluation.bind_apply]
  generalize x t.left = p at h ⊢
  generalize y t.right = q at h ⊢
  cases h with
  | ok hgrows hsound hbound hab => exact .after hgrows (hk _ _ _ hgrows hsound hbound hab)
  | error hr => exact .error hr

end Tandem

/-! ## Productions side by side -/

/-- A supply of marks, taken from the context. -/
def Evaluation.ofSupply {α : Type} (x : Supply α) : Evaluation α := fun c => (.ok (c.supply x).1, (c.supply x).2)

theorem Evaluation.ofSupply_bind {α β : Type} (x : Supply α) (k : α → Supply β) :
    ofSupply (x >>= k) = ofSupply x >>= fun a => ofSupply (k a) := rfl

/-- A value that is recorded at a place. -/
def Evaluation.recorded (l : Option Location) (v : Value) : Evaluation Value := fun c => (.ok v, c.record v l)

theorem Value.Partless.stamp_eq {c : Content Value} (h : (Value.new c).Partless) : Value.stamp ⟨none, c⟩ = Supply.issue c := by
  cases c with
  | array => exact absurd rfl h.1
  | map => exact absurd rfl h.2
  | _ => rfl

namespace Tandem

open Evaluation (ofSupply recorded)

variable {s : Setting} {t t' : Tandem} {n : Nat} {c d : Content Value} {u x : Value}

theorem Follows.bindSupply {α β γ δ : Type} {x : Supply α} {y : Supply β} {k : α → Supply γ} {l : β → Supply δ} {m : Nat}
    {R : Tandem → α → β → Prop} {Q : Tandem → γ → δ → Prop} (h : t.Follows s n (ofSupply x) (ofSupply y) R)
    (hk : ∀ t' a b, t.Grows s t' → t'.Sound s → t'.bound ≤ n → R t' a b → t'.Follows s m (ofSupply (k a)) (ofSupply (l b)) Q) :
    t.Follows s m (ofSupply (x >>= k)) (ofSupply (y >>= l)) Q := by
  rw [Evaluation.ofSupply_bind, Evaluation.ofSupply_bind]
  exact h.bind hk

theorem Follows.issue (h : t.Sound s) (hn : t.bound ≤ n) (halike : c.Alike (t.Match s) d) :
    t.Follows s n (ofSupply (Supply.issue c)) (ofSupply (Supply.issue d)) (Match s) := by
  obtain ⟨hsound, hgrows⟩ := h.issue
  refine .ok hgrows hsound hn (.mk (.pair rfl rfl (.inr ⟨rfl, rfl⟩)) ?_)
  exact halike.mono fun _ _ h => match_mono h hgrows

/-- An object on the left, and on the right a new value that it comes apart from. -/
theorem Follows.issueRight {a : Nat} (h : t.Sound s) (hn : t.bound ≤ n) (hapart : t.Apart s ⟨some a, c⟩ ⟨none, d⟩)
    (halike : c.Alike (t.Match s) d) :
    t.Follows s n (Pure.pure ⟨some a, c⟩) (ofSupply (Supply.issue d)) (Match s) := by
  obtain ⟨hsound, hgrows⟩ := h.issueRight
  refine .ok hgrows hsound hn (.mk (.apart ⟨hapart.left, fun {b} hb => ?_, fun hnone => (by cases hnone), ?_⟩) ?_)
  · cases hb
    exact ⟨.inr ⟨h.first, Nat.lt_succ_self _⟩, h.alone_right (Nat.le_refl _)⟩
  · refine hapart.excuse.imp_left ?_
    rintro ⟨l, hl, hinner | hright⟩
    · exact ⟨l, hl, .inl hinner⟩
    · cases hright
  · exact halike.mono fun _ _ h => match_mono h hgrows

/-- An integer of a range on the left, and its literal on the right. -/
theorem Follows.issueLeft {b : Nat} (h : t.Sound s) (hn : t.bound ≤ n) (hapart : t.Apart s ⟨none, c⟩ ⟨some b, d⟩)
    (halike : c.Alike (t.Match s) d) :
    t.Follows s n (ofSupply (Supply.issue c)) (Pure.pure ⟨some b, d⟩) (Match s) := by
  have hmakes : t.left.Makes { t.left with next := t.left.next + 1 } :=
    ⟨rfl, Nat.le_succ _, fun m hm => h.left m (Nat.le_of_succ_le hm), fun _ => rfl⟩
  obtain ⟨hsound, hgrows⟩ := h.goLeft hmakes
  refine .ok hgrows hsound hn (.mk (.apart ⟨fun {a} ha => ?_, hapart.right, hapart.partless, ?_⟩) ?_)
  · cases ha
    exact ⟨Nat.lt_succ_self _, h.alone_left (Nat.le_refl _)⟩
  · rcases hapart.excuse with ⟨l, hl, -⟩ | hnumber
    · cases hl
    · exact .inr hnumber
  · exact halike.mono fun _ _ h => match_mono h hgrows

/-- Values that match are made objects on both sides, and match as before. -/
def Stamps (s : Setting) (t : Tandem) (n : Nat) (u x : Value) : Prop :=
  ∀ t', t.Grows s t' → t'.Sound s → t'.bound ≤ n → t'.Follows s n (ofSupply u.stamp) (ofSupply x.stamp) (Match s)

theorem follows_stampItems {vs ws : List Value} (h : List.Forall₂ (fun u x => t.Match s u x ∧ t.Stamps s n u x) vs ws)
    (hgrows : t.Grows s t') (hsound : t'.Sound s) (hn : t'.bound ≤ n) :
    t'.Follows s n (ofSupply (stampItems vs)) (ofSupply (stampItems ws)) fun t => List.Forall₂ (t.Match s) := by
  induction h generalizing t' with
  | nil => exact .pure hsound hn .nil
  | cons h _ ih =>
    rw [stampItems, stampItems]
    refine Follows.bindSupply (h.2 t' hgrows hsound hn) fun t₁ a b hgrows₁ hsound₁ hn₁ hab => ?_
    refine Follows.bindSupply (ih (hgrows.trans hgrows₁) hsound₁ hn₁) fun t₂ as bs hgrows₂ hsound₂ hn₂ hrest => ?_
    exact .pure hsound₂ hn₂ (.cons (match_mono hab hgrows₂) hrest)

theorem follows_stampEntries {es fs : Entries Value}
    (h : Entries.Related (fun u x => t.Match s u x ∧ t.Stamps s n u x) es fs)
    (hgrows : t.Grows s t') (hsound : t'.Sound s) (hn : t'.bound ≤ n) :
    t'.Follows s n (ofSupply (stampEntries es)) (ofSupply (stampEntries fs)) fun t => Entries.Related (t.Match s) := by
  induction h generalizing t' with
  | nil => exact .pure hsound hn .nil
  | cons h _ ih =>
    rw [stampEntries, stampEntries]
    refine Follows.bindSupply (h.2 t' hgrows hsound hn) fun t₁ a b hgrows₁ hsound₁ hn₁ hab => ?_
    refine Follows.bindSupply (ih (hgrows.trans hgrows₁) hsound₁ hn₁) fun t₂ as bs hgrows₂ hsound₂ hn₂ hrest => ?_
    exact .pure hsound₂ hn₂ (.cons (match_mono hab hgrows₂) hrest)

theorem stamps_of_match (h : t.Match s u x) (n : Nat) : t.Stamps s n u x := by
  refine Value.Paired.induct (P := t.Stamps s n) (fun {m k c d} hux halike t' hgrows hsound hn => ?_) h
  have hux := hux.mono hgrows
  have hparts : c.Alike (t'.Match s) d := halike.mono fun _ _ h => match_mono h.1 hgrows
  match m, k with
  | some a, some b => exact .pure hsound hn (.mk hux hparts)
  | none, none =>
    cases halike with
    | scalar hc =>
      rw [hc.stamp_eq]
      exact .issue hsound hn hparts
    | array hvs =>
      rw [Value.stamp, Value.stamp]
      refine Follows.bindSupply (follows_stampItems hvs hgrows hsound hn) fun t₁ vs ws _ hsound₁ hn₁ hrest => ?_
      exact .issue hsound₁ hn₁ (.array hrest)
    | map hes =>
      rw [Value.stamp, Value.stamp]
      refine Follows.bindSupply (follows_stampEntries hes hgrows hsound hn) fun t₁ es fs _ hsound₁ hn₁ hrest => ?_
      exact .issue hsound₁ hn₁ (.map hrest)
  | some a, none =>
    cases hux with
    | new hu => cases hu
    | pair _ hx => cases hx
    | apart hapart =>
      rw [Value.Partless.stamp_eq (c := d) (hapart.partless rfl)]
      exact .issueRight hsound hn hapart hparts
  | none, some b =>
    cases hux with
    | new _ hx => cases hx
    | pair hu => cases hu
    | apart hapart =>
      have hnumber : Value.kind ⟨none, c⟩ = .number := by
        rcases hapart.excuse with ⟨l, hl, -⟩ | ⟨-, hnumber⟩
        · cases hl
        · exact hnumber
      rw [Value.Partless.stamp_eq (c := c) ⟨hnumber.trans_ne Kind.noConfusion, hnumber.trans_ne Kind.noConfusion⟩]
      exact .issueLeft hsound hn hapart hparts

theorem Follows.recorded (h : t.Sound s) (hn : t.bound ≤ n) (hux : t.Match s u x) (l : Option Location) :
    t.Follows s n (recorded l u) (recorded l x) (Match s) := by
  have hself : t.Matched s u x := by
    obtain ⟨hself, -⟩ := hux
    exact hself
  obtain ⟨hsound, hgrows⟩ := h.record (l := l) hself
  exact .ok hgrows hsound hn (match_mono hux hgrows)

/-- Nodes in the same place, whose steps do the same. -/
theorem Follows.settle {e e' : Expr} {y z : Evaluation Value} (hl : e'.location = e.location)
    (h : t.Follows s n y z (Match s)) :
    t.Follows s n (Evaluation.settle .strict e y) (Evaluation.settle .strict e' z) (Match s) := by
  unfold Follows at h ⊢
  unfold Evaluation.settle
  generalize y t.left = p at h ⊢
  generalize z t.right = q at h ⊢
  cases h with
  | @ok t' v w hgrows hsound hn hvw =>
    have hproduced : t'.Follows s n (ofSupply v.stamp >>= Evaluation.recorded e.location)
        (ofSupply w.stamp >>= Evaluation.recorded e'.location) (Match s) := by
      rw [hl]
      exact (stamps_of_match hvw n t' (.refl s t') hsound hn).bind fun _ _ _ _ hsound hn hux => .recorded hsound hn hux _
    exact .after hgrows hproduced
  | error hr =>
    dsimp only
    rw [if_neg (by simp), if_neg (by simp)]
    exact .error (hr.blame hl)

end Tandem

end ExprLang
