import ExprLang.Proofs.Folding.Stable
import ExprLang.Proofs.Folding.Tandem
import ExprLang.Proofs.Located
import ExprLang.Proofs.Printing.RoundTrip

/-!
# Where a folded expression fails

If an expression fails, what it was folded to fails as well, with the same cause. The location of the error is that of the
node whose step fails, and this node is kept; only an error that is located at the origin of an object can move, if the
object was made inside a part that was folded to a literal, or is an integer of a range that was spliced into an array as it
was folded (`Expr.optimize_keeps_place`).
-/

namespace ExprLang

/-! ## Literals on the right -/

theorem Expr.run_literal (l : Option Location) (v : Value) (c : Context) : (literal l v).run .strict c =
    (.ok (v.stamp c.next).1, ({ c with next := (v.stamp c.next).2 } : Context).record (v.stamp c.next).1 l) := rfl

namespace Tandem

variable {s : Setting} {t t' : Tandem} {n m : Nat} {w x : Value} {l : Option Location}

/-- An object that the right side has for itself, and that has been recorded at a place. -/
structure Placed (s : Setting) (t : Tandem) (l : Option Location) (x : Value) : Prop where
  marked : x.mark.isSome = true
  alone {b : Nat} : x.mark = some b → t.Used s b ∧ ∀ a, ¬ t.pairs a b
  origin : t.right.origin x = l

theorem Placed.partless (h : t.Placed s l x) (hnone : x.mark = none) : x.Partless := by
  have hmarked := h.marked
  rw [hnone] at hmarked
  cases hmarked

theorem Sound.recordNew {b : Nat} (h : t.Sound s) (hx : x.mark = some b) (hused : t.Used s b) (halone : ∀ a, ¬ t.pairs a b)
    (hnone : t.right.place b = none) (l : Option Location) :
    let t' : Tandem := { t with right := t.right.record x l }
    t'.Sound s ∧ t.Grows s t' ∧ t'.Placed s l x := by
  intro t'
  have hmark : ∀ {k}, x.mark = some k → t.Used s k ∧ ∀ a, ¬ t.pairs a k := fun hk => by
    rw [hx] at hk
    cases hk
    exact ⟨hused, halone⟩
  obtain ⟨hsound, hgrows⟩ := h.recordRight (l := l) hmark
  refine ⟨hsound, hgrows, ⟨by rw [hx]; rfl, fun hk => ⟨hgrows.used (hmark hk).1, (hmark hk).2⟩, ?_⟩⟩
  rw [Context.origin, hx, Option.bind_some]
  show (t.right.record x l).place b = l
  rw [Context.place_record, hnone, Option.none_or, if_pos hx]

/-- A literal that has not been evaluated yet. -/
theorem Sound.literal (h : t.Sound s) (hw : w.Within n m) (hn : t.bound ≤ n) (hm : n ≤ m) (hfirst : m ≤ s.first)
    (l : Option Location) : ∃ t' x, t.Grows s t' ∧ t'.Sound s ∧ t'.left = t.left ∧ t'.pairs = t.pairs ∧ t'.bound = m ∧
      (Expr.literal l w).run .strict t.right = (.ok x, t'.right) ∧ x.bare = w.bare ∧ t'.Placed s l x ∧
      ∀ y ∈ x.parts, y.Each (Value.InStretch n m) := by
  obtain ⟨hself, hparts⟩ := Value.each_iff_parts.1 hw
  obtain ⟨hsound, hgrows⟩ := h.raise (hn.trans hm) hfirst
  obtain ⟨_ | b, c⟩ := w
  · -- A literal of the text, or a switch that was folded to one: its value becomes an object only now.
    have hc := hself.partless rfl
    obtain ⟨hsound₁, hgrows₁⟩ := hsound.issueRight
    obtain ⟨hsound₂, hgrows₂, hplaced⟩ := hsound₁.recordNew (x := ⟨some t.right.next, c⟩) rfl
      (.inr ⟨h.first, Nat.lt_succ_self _⟩) (h.alone_right (Nat.le_refl _)) (h.right h.unused) l
    have hissued : Value.stamp ⟨none, c⟩ t.right.next = (⟨some t.right.next, c⟩, t.right.next + 1) := by
      rw [hc.stamp_eq]
      rfl
    refine ⟨_, _, (hgrows.trans hgrows₁).trans hgrows₂, hsound₂, rfl, rfl, rfl, ?_, ?_, hplaced, hparts⟩
    · rw [Expr.run_literal, hissued]
    · rw [← Value.bare_stamp ⟨none, c⟩ t.right.next, hissued]
  · obtain ⟨hfrom, hto⟩ := hself.mark rfl
    have hnone : t.right.place b = none := by
      refine h.right ?_
      rintro (hb | ⟨hb, -⟩)
      · exact Nat.not_lt.2 (hn.trans hfrom) hb
      · exact Nat.not_lt.2 (hfirst.trans hb) hto
    obtain ⟨hsound₁, hgrows₁, hplaced⟩ := hsound.recordNew (x := ⟨some b, c⟩) rfl (.inl hto)
      (h.alone_literal (hto.trans_le hfirst)) hnone l
    exact ⟨_, _, hgrows.trans hgrows₁, hsound₁, rfl, rfl, rfl, rfl, rfl, hplaced, hparts⟩

end Tandem

/-! ## Constant parts -/

open Evaluation (result settle)

theorem Setting.plain_of_suits {s : Setting} {e : Expr} (he : e.Each s.Suits) : e.Each Expr.PlainLiteral :=
  fun n hn => (he n hn).plain

namespace Tandem

variable {s : Setting} {t t' : Tandem} {n m : Nat} {e : Expr} {w : Value} {l : Option Location}

/-- A constant part, and the literal that it was folded to. -/
theorem Sound.follows_literal (h : t.Sound s) (he : e.Each s.Suits) (hn : t.bound ≤ n) (hfirst : (e.fold n).2 ≤ s.first)
    (hw : (e.fold n).1.value? = some w) :
    t.Follows s (e.fold n).2 (e.run .strict) ((e.fold n).1.run .strict) (Match s) := by
  obtain ⟨v, c, hleft, hbare⟩ := Expr.run_of_value? hw t.left
  obtain ⟨hmakes, hbuilds⟩ := Expr.run_builds he (Option.isSome_iff_exists.2 ⟨w, hw⟩) h.left v c hleft
  obtain ⟨hle, hwithin⟩ := Expr.fold_within (Setting.plain_of_suits he) n
  obtain ⟨hsound, hgrows⟩ := h.goLeft hmakes
  obtain ⟨t₁, x, hgrows₁, hsound₁, hleft₁, hpairs₁, hbound₁, hrun, hx, hplaced, hparts⟩ :=
    hsound.literal (hwithin w hw) hn hle hfirst e.location
  obtain rfl : c = t₁.left := hleft₁.symm
  have hright : (e.fold n).1.run .strict t.right = (.ok x, t₁.right) := by
    rw [Expr.eq_literal_of_value? hw, Expr.location_fold]
    exact hrun
  have hnew : ∀ {a}, t.left.next ≤ a → ∀ b, ¬ t₁.pairs a b := fun {a} ha b hab => by
    rw [hpairs₁] at hab
    exact h.alone_left ha b hab
  unfold Follows
  rw [hleft, hright]
  refine .ok (hgrows.trans hgrows₁) hsound₁ hbound₁.le (Value.Paired.of_parts (P := s.Made t.left.next t₁.left)
    (Q := Value.InStretch n (e.fold n).2) (fun u y _ hu hy => ?_) (hbare.trans hx.symm) ?_ hbuilds.parts hparts)
  · refine .apart ⟨fun ha => ⟨(hu.mark ha).2, hnew (hu.mark ha).1⟩, fun {b} hb => ⟨.inl ?_, fun a hab => ?_⟩, hy.partless, ?_⟩
    · rw [hbound₁]
      exact (hy.mark hb).2
    · rw [hpairs₁] at hab
      exact h.alone_literal ((hy.mark hb).2.trans_le hfirst) a hab
    · exact hu.origin.imp_left fun ⟨l, hl, hinner⟩ => ⟨l, hl, .inl hinner⟩
  · have hself := hbuilds.self
    refine .apart ⟨fun ha => ⟨(hself.mark ha).2, hnew (hself.mark ha).1⟩, hplaced.alone, hplaced.partless, ?_⟩
    exact hself.origin.imp_left fun ⟨l, hl, h⟩ => ⟨l, hl, h.imp_right fun hplace => hplaced.origin.trans hplace⟩

/-- It remains to look at parts that are not constant. -/
theorem Sound.follows_of_open (h : t.Sound s) (he : e.Each s.Suits) (hn : t.bound ≤ n) (hfirst : (e.fold n).2 ≤ s.first)
    (hopen : (e.fold n).1.value? = none → t.Follows s (e.fold n).2 (e.run .strict) ((e.fold n).1.run .strict) (Match s)) :
    t.Follows s (e.fold n).2 (e.run .strict) ((e.fold n).1.run .strict) (Match s) := by
  cases hw : (e.fold n).1.value? with
  | none => exact hopen hw
  | some w => exact h.follows_literal he hn hfirst hw

/-! ## Steps -/

variable {u v x : Value}

theorem related_of_made {r r' : Except Error Value} (h : Outcome.Related Eq (Value.Made (t.Matched s)) r r') :
    Outcome.Related s.Shifts (t.Match s) r r' :=
  h.mono (fun _ _ h => h ▸ .refl s _) fun _ _ h => match_of_made h

theorem related_splice (h : t.Match s u x) : Outcome.Related s.Shifts (List.Forall₂ (t.Match s)) u.splice x.splice :=
  (Value.splice_paired h).mono (fun _ _ h => h ▸ .refl s _) fun _ _ h => h.imp fun _ _ h => match_of_made h

/-- An error about an object of the left side, and about the one on the right that it matches. -/
theorem Sound.shifts_origin {r : Error} (h : t.Sound s) (hux : t.Matched s u x) (habout : r.About u.kind) :
    s.Shifts (r.orLocation (t.left.origin u)) (r.orLocation (t.right.origin x)) := by
  have hsame : t.left.origin u = t.right.origin x →
      s.Shifts (r.orLocation (t.left.origin u)) (r.orLocation (t.right.origin x)) := fun heq => by
    rw [heq]
    exact .refl s _
  refine ⟨by rw [Error.bare_orLocation, Error.bare_orLocation], ?_⟩
  cases hux with
  | new hu hx => exact (hsame (by rw [Context.origin, Context.origin, hu, hx]; rfl)).location
  | pair hu hx hab =>
    have hplace : t.left.origin u = t.right.origin x := by
      rw [Context.origin, Context.origin, hu, hx]
      exact h.place hab
    exact (hsame hplace).location
  | apart hapart =>
    rcases hapart.excuse with ⟨l, hl, hinner | hright⟩ | ⟨hspreads, hnumber⟩
    · rw [Error.location_orLocation_eq, Error.location_orLocation_eq, hl]
      cases hr : r.location with
      | some l' => exact .inl rfl
      | none =>
        split
        · exact .inr ⟨u.kind, habout.orLocation _, .inl ⟨l, rfl, hinner⟩⟩
        · exact .inl rfl
    · exact (hsame (hl.trans hright.symm)).location
    · exact .inr ⟨.number, hnumber ▸ habout.orLocation _, .inr ⟨rfl, hspreads⟩⟩

/-- Subscripts name the origins of objects that match. -/
theorem Sound.related_subscript {y : Value} (h : t.Sound s) (hv : t.Match s v x) (hu : t.Match s u y) :
    Outcome.Related s.Shifts (t.Match s) (v.subscript t.left.origin u) (x.subscript t.right.origin y) := by
  refine (Value.subscript_paired (.refl s) (fun {u x r} hux habout => ?_) hv hu).mono (fun _ _ h => h)
    fun _ _ h => match_of_made h
  obtain ⟨hself, -⟩ := hux
  exact h.shifts_origin hself habout

/-! ## Items -/

/-- Literals for the integers of a range, on the right alone. -/
theorem Sound.literals (h : t.Sound s) (hspreads : s.spreads) (is : List Int) (hn : t.bound ≤ n)
    (hfirst : (Expr.literals l (is.map Value.integer) n).2 ≤ s.first) :
    ∃ t' xs, t.Grows s t' ∧ t'.Sound s ∧ t'.left = t.left ∧ t'.bound ≤ (Expr.literals l (is.map Value.integer) n).2 ∧
      runItems .strict (Expr.literals l (is.map Value.integer) n).1 t.right = (.ok xs, t'.right) ∧
      List.Forall₂ (t'.Match s) (is.map Value.integer) xs := by
  induction is generalizing t n with
  | nil => exact ⟨t, [], .refl s t, h, rfl, hn, rfl, .nil⟩
  | cons i is ih =>
    rw [List.map_cons, Expr.literals_cons] at hfirst ⊢
    have hplain : ∀ v ∈ is.map Value.integer, v.Plain := List.forall_mem_map.2 fun _ _ => Value.plain_number _
    have hle : n + 1 ≤ (Expr.literals l (is.map Value.integer) (n + 1)).2 := (Expr.numbers_literals (Nat.le_refl _) hplain).1
    have hwithin : Value.Within n (n + 1) ⟨some n, .number (Float.ofInt i)⟩ := by
      refine ⟨fun hm => ?_, fun hnone => (by cases hnone)⟩
      cases hm
      exact ⟨Nat.le_refl n, Nat.lt_succ_self n⟩
    obtain ⟨t₁, x, hgrows₁, hsound₁, hleft₁, -, hbound₁, hrun, hx, hplaced, -⟩ :=
      h.literal hwithin hn (Nat.le_succ n) (hle.trans hfirst) l
    obtain ⟨t₂, xs, hgrows₂, hsound₂, hleft₂, hbound₂, hrest, hxs⟩ := ih hsound₁ hbound₁.le hfirst
    have hkind : x.kind ≠ .range := by
      rw [← x.kind_bare, hx]
      exact Kind.noConfusion
    have hmatch : t₁.Match s (Value.integer i) x := by
      obtain ⟨k, c⟩ := x
      obtain rfl := Value.content_of_partless ⟨Kind.noConfusion, Kind.noConfusion⟩ hx.symm
      exact .mk (.apart ⟨fun ha => (by cases ha), hplaced.alone, hplaced.partless, .inr ⟨hspreads, rfl⟩⟩)
        (.scalar ⟨Kind.noConfusion, Kind.noConfusion⟩)
    refine ⟨t₂, x :: xs, hgrows₁.trans hgrows₂, hsound₂, hleft₂.trans hleft₁, hbound₂, ?_, .cons (match_mono hmatch hgrows₂) hxs⟩
    refine Evaluation.bind_ok.2 ⟨x, t₁.right, hrun, Evaluation.bind_ok.2 ⟨[x], t₁.right, ?_, ?_⟩⟩
    · rw [Value.splice, if_neg hkind]
      rfl
    · exact Evaluation.bind_ok.2 ⟨xs, t₂.right, hrest, rfl⟩

theorem runItems_cons (mode : Mode) (e : Expr) (es : List Expr) : runItems mode (e :: es) = do
    let vs ← e.run mode >>= fun v => result v.splice
    return vs ++ (← runItems mode es) := by
  rw [runItems, bind_assoc]

theorem runItems_singleton (mode : Mode) (e : Expr) : runItems mode [e] = e.run mode >>= fun v => result v.splice := by
  simp [runItems]

/-- An item, and what it was folded to. -/
theorem Sound.follows_item (h : t.Sound s) (he : e.Each s.Suits)
    (hspreads : ∀ v, (e.fold n).1.value? = some v → v.kind = .range → s.spreads) (hn : t.bound ≤ n)
    (hfirst : (Expr.spliceItem (e.fold n).1 (e.fold n).2).2 ≤ s.first)
    (hrun : t.Follows s (e.fold n).2 (e.run .strict) ((e.fold n).1.run .strict) (Match s)) :
    t.Follows s (Expr.spliceItem (e.fold n).1 (e.fold n).2).2 (e.run .strict >>= fun v => result v.splice)
      (runItems .strict (Expr.spliceItem (e.fold n).1 (e.fold n).2).1) fun t => List.Forall₂ (t.Match s) := by
  rcases Expr.spliceItem_cases (e.fold n).1 with hsingle | ⟨k, a, b, hw, hsplice⟩
  · rw [hsingle, runItems_singleton]
    exact hrun.bind fun t' v x _ hsound hn hvx => .result hsound hn (related_splice hvx)
  · -- The left side has the range, and the right side the literals for its integers.
    obtain ⟨v, c, hleft, hbare⟩ := Expr.run_of_value? hw t.left
    obtain ⟨hmakes, -⟩ := Expr.run_builds he (Option.isSome_iff_exists.2 ⟨_, hw⟩) h.left v c hleft
    obtain ⟨hle, -⟩ := Expr.fold_within (Setting.plain_of_suits he) n
    obtain ⟨hsound, hgrows⟩ := h.goLeft hmakes
    rw [hsplice] at hfirst ⊢
    obtain ⟨t₁, xs, hgrows₁, hsound₁, hleft₁, hbound₁, hright, hxs⟩ :=
      hsound.literals (hspreads _ hw rfl) _ (hn.trans hle) hfirst
    obtain rfl : c = t₁.left := hleft₁.symm
    have hspliced : v.splice = .ok (Value.integers a b) := by
      obtain ⟨m, d⟩ := v
      obtain rfl := Value.content_of_partless ⟨Kind.noConfusion, Kind.noConfusion⟩ hbare.symm
      rfl
    have hitems : (e.run .strict >>= fun v => result v.splice) t.left = (.ok (Value.integers a b), t₁.left) :=
      Evaluation.bind_ok.2 ⟨v, t₁.left, hleft, by rw [hspliced]; rfl⟩
    unfold Follows
    rw [hitems]
    exact hright ▸ .ok (hgrows.trans hgrows₁) hsound₁ hbound₁ hxs

/-- A case that is not dropped. -/
theorem Follows.case {e' : Expr} {es es' : List Expr} (h : t.Follows s n (e.run .strict) (e'.run .strict) (Match s))
    (hnm : n ≤ m) (hrest : ∀ t' : Tandem, t'.Sound s → t'.bound ≤ n →
      t'.Follows s m (runCases .strict es) (runCases .strict es') (Match s)) :
    t.Follows s m (runCases .strict (e :: es)) (runCases .strict (e' :: es')) (Match s) := by
  refine h.bind fun t₁ v x _ hsound₁ hn₁ hvx => ?_
  rw [← v.isUndefined_bare, ← x.isUndefined_bare, hvx.bare_eq]
  split
  · exact hrest t₁ hsound₁ hn₁
  · exact .pure hsound₁ (hn₁.trans hnm) hvx

/-- A case that is known to be undefined, which only the left side has. -/
theorem Sound.follows_dropped {es es' : List Expr} (h : t.Sound s) (he : e.Each s.Suits)
    (hdropped : (e.fold n).1.isUndefinedLiteral = true)
    (hrest : ∀ t' : Tandem, t'.Sound s → t'.bound = t.bound →
      t'.Follows s m (runCases .strict es) (runCases .strict es') (Match s)) :
    t.Follows s m (runCases .strict (e :: es)) (runCases .strict es') (Match s) := by
  obtain ⟨w, hw, hundefined⟩ := (Option.any_eq_true _ _).1 hdropped
  obtain ⟨v, c, hleft, hbare⟩ := Expr.run_of_value? hw t.left
  obtain ⟨hmakes, -⟩ := Expr.run_builds he (Option.isSome_iff_exists.2 ⟨w, hw⟩) h.left v c hleft
  obtain ⟨hsound, hgrows⟩ := h.goLeft hmakes
  have hv : v.isUndefined = true := by rw [← v.isUndefined_bare, hbare, w.isUndefined_bare, hundefined]
  have hpassed : runCases .strict (e :: es) t.left = runCases .strict es c := by
    rw [runCases, Evaluation.bind_apply, hleft]
    dsimp only
    rw [if_pos hv]
  unfold Follows
  rw [hpassed]
  exact .after hgrows (hrest { t with left := c } hsound rfl)

end Tandem

/-! ## Whole expressions -/

open ExprLang.Expr ExprLang.Tandem in
mutual

/-- An expression and what it was folded to, evaluated side by side. -/
theorem Expr.run_follows {s : Setting} : ∀ {e : Expr} {n : Nat} {t : Tandem}, e.Each s.Suits → t.Sound s → t.bound ≤ n →
    (e.fold n).2 ≤ s.first → t.Follows s (e.fold n).2 (e.run .strict) ((e.fold n).1.run .strict) (Match s)
  | .literal _ v, n, t, he, h, hn, hfirst => h.follows_literal he hn hfirst rfl
  | .var l name, n, t, he, h, hn, hfirst => by
    have hvars : t.Match s (t.left.lookup name) (t.right.lookup name) := by
      have hright : t.right.lookup name = t.left.lookup name := congrArg (Store.lookup · name) h.store
      rw [hright]
      refine Value.Each.paired_self (fun u hu => ?_) (h.vars name)
      cases hm : u.mark with
      | none => exact .new hm hm
      | some m => exact .pair hm hm (hu m hm)
    exact Follows.settle rfl (.ok (.refl s t) h hn hvars)
  | .array l items, n, t, he, h, hn, hfirst => h.follows_of_open he hn hfirst fun hopen => by
    obtain ⟨hnode, hitems⟩ := each_array.1 he
    have hspreads : ∀ e ∈ items, ∀ n v, (e.fold n).1.value? = some v → v.kind = .range → s.spreads :=
      fun e he n v hv hkind => hnode.spreads ⟨l, items, rfl, e, he, n, v, hv, hkind⟩
    rw [fold_array_of_open hopen] at hfirst ⊢
    refine Follows.settle rfl ((runItems_follows hitems hspreads h hn hfirst).bind fun t' vs xs _ hsound hn hvs => ?_)
    exact .pure hsound hn (.mk (.new rfl rfl) (.array hvs))
  | .map l entries, n, t, he, h, hn, hfirst => h.follows_of_open he hn hfirst fun hopen => by
    obtain ⟨-, hentries⟩ := each_map.1 he
    rw [fold_map_of_open hopen] at hfirst ⊢
    refine Follows.settle rfl ((runEntries_follows hentries h hn hfirst).bind fun t' es fs _ hsound hn hes => ?_)
    exact .pure hsound hn (.mk (.new rfl rfl) (.map hes))
  | .unary l op a, n, t, he, h, hn, hfirst => h.follows_of_open he hn hfirst fun hopen => by
    obtain ⟨-, ha⟩ := each_unary.1 he
    rw [fold_unary_of_open hopen] at hfirst ⊢
    refine Follows.settle rfl ((Expr.run_follows ha h hn hfirst).bind fun t' v x _ hsound hn hvx => ?_)
    exact .result hsound hn (related_of_made (op.apply_paired hvx))
  | .binary l op a b, n, t, he, h, hn, hfirst => h.follows_of_open he hn hfirst fun hopen => by
    obtain ⟨-, ha, hb⟩ := each_binary.1 he
    rw [fold_binary_of_open hopen] at hfirst ⊢
    obtain ⟨hle, -⟩ := fold_within (Setting.plain_of_suits hb) (a.fold n).2
    refine Follows.settle rfl ((Expr.run_follows ha h hn (hle.trans hfirst)).bind fun t₁ v x _ hsound₁ hn₁ hvx => ?_)
    -- The demands do the same in this tandem and in every later one.
    have hdemand : ∀ M, v.Paired M x → (op.afterLeft v).Paired M (op.afterLeft x) := fun M => op.afterLeft_paired
    generalize op.afterLeft v = d at hdemand ⊢
    generalize op.afterLeft x = d' at hdemand ⊢
    cases hdemand _ hvx with
    | done hr => exact .result hsound₁ (hn₁.trans hle) (related_of_made hr)
    | right =>
      refine (Expr.run_follows hb hsound₁ hn₁ hfirst).bind fun t₂ u y hgrows₂ hsound₂ hn₂ huy => ?_
      cases hdemand _ (match_mono hvx hgrows₂) with
      | right hfinish => exact .result hsound₂ hn₂ (related_of_made (hfinish u y huy))
  | .subscript l a b, n, t, he, h, hn, hfirst => h.follows_of_open he hn hfirst fun hopen => by
    obtain ⟨-, ha, hb⟩ := each_subscript.1 he
    rw [fold_subscript_of_open hopen] at hfirst ⊢
    obtain ⟨hle, -⟩ := fold_within (Setting.plain_of_suits hb) (a.fold n).2
    refine Follows.settle rfl ((Expr.run_follows ha h hn (hle.trans hfirst)).bind fun t₁ v x _ hsound₁ hn₁ hvx => ?_)
    refine (Expr.run_follows hb hsound₁ hn₁ hfirst).bind fun t₂ u y hgrows₂ hsound₂ hn₂ huy => ?_
    exact .result hsound₂ hn₂ (hsound₂.related_subscript (match_mono hvx hgrows₂) huy)
  | .switch l cases, n, t, he, h, hn, hfirst => h.follows_of_open he hn hfirst fun hopen => by
    obtain ⟨-, hcases⟩ := each_switch.1 he
    rw [fold_switch_of_open hopen] at hfirst ⊢
    exact Follows.settle rfl (runCases_dropped_follows hcases h hn hfirst)

theorem runItems_follows {s : Setting} : ∀ {es : List Expr} {n : Nat} {t : Tandem}, (∀ e ∈ es, e.Each s.Suits) →
    (∀ e ∈ es, ∀ n v, (e.fold n).1.value? = some v → v.kind = .range → s.spreads) → t.Sound s → t.bound ≤ n →
    (foldItems es n).2 ≤ s.first → t.Follows s (foldItems es n).2 (runItems .strict es)
      (runItems .strict (foldItems es n).1) fun t => List.Forall₂ (t.Match s)
  | [], n, t, _, _, h, hn, _ => .pure h hn .nil
  | e :: es, n, t, hes, hspreads, h, hn, hfirst => by
    obtain ⟨he, hes⟩ := List.forall_mem_cons.1 hes
    obtain ⟨hspread, hspreads⟩ := List.forall_mem_cons.1 hspreads
    obtain ⟨hle, hwithin⟩ := fold_within (Setting.plain_of_suits he) n
    obtain ⟨hle', -⟩ := numbers_spliceItem hle hwithin
    obtain ⟨hle'', -⟩ := foldItems_within (fun e he => Setting.plain_of_suits (hes e he))
      (spliceItem (e.fold n).1 (e.fold n).2).2
    rw [foldItems] at hfirst ⊢
    change (foldItems es (spliceItem (e.fold n).1 (e.fold n).2).2).2 ≤ s.first at hfirst
    have hitem := h.follows_item he (hspread n) hn (hle''.trans hfirst)
      (Expr.run_follows he h hn (hle'.trans (hle''.trans hfirst)))
    show t.Follows s (foldItems es (spliceItem (e.fold n).1 (e.fold n).2).2).2 (runItems .strict (e :: es))
      (runItems .strict ((spliceItem (e.fold n).1 (e.fold n).2).1 ++
        (foldItems es (spliceItem (e.fold n).1 (e.fold n).2).2).1)) _
    rw [runItems_cons, runItems_append]
    refine hitem.bind fun t₁ vs xs _ hsound₁ hn₁ hvs => ?_
    refine (runItems_follows hes hspreads hsound₁ hn₁ hfirst).bind fun t₂ vs' xs' hgrows₂ hsound₂ hn₂ hvs' => ?_
    exact .pure hsound₂ hn₂ (List.rel_append (hvs.imp fun _ _ h => match_mono h hgrows₂) hvs')

theorem runEntries_follows {s : Setting} : ∀ {es : List (String × Expr)} {n : Nat} {t : Tandem},
    (∀ f ∈ es, f.2.Each s.Suits) → t.Sound s → t.bound ≤ n → (foldEntries es n).2 ≤ s.first →
    t.Follows s (foldEntries es n).2 (runEntries .strict es) (runEntries .strict (foldEntries es n).1)
      fun t => Entries.Related (t.Match s)
  | [], n, t, _, h, hn, _ => .pure h hn .nil
  | (k, e) :: es, n, t, hes, h, hn, hfirst => by
    obtain ⟨he, hes⟩ := List.forall_mem_cons.1 hes
    obtain ⟨hle, -⟩ := foldEntries_within (fun f hf => Setting.plain_of_suits (hes f hf)) (e.fold n).2
    rw [foldEntries] at hfirst ⊢
    refine (Expr.run_follows he h hn (hle.trans hfirst)).bind fun t₁ v x _ hsound₁ hn₁ hvx => ?_
    refine (runEntries_follows hes hsound₁ hn₁ hfirst).bind fun t₂ vs xs hgrows₂ hsound₂ hn₂ hvs => ?_
    exact .pure hsound₂ hn₂ (.cons (match_mono hvx hgrows₂) hvs)

theorem runCases_follows {s : Setting} : ∀ {es : List Expr} {n : Nat} {t : Tandem}, (∀ e ∈ es, e.Each s.Suits) →
    t.Sound s → t.bound ≤ n → (foldCases es n).2 ≤ s.first →
    t.Follows s (foldCases es n).2 (runCases .strict es) (runCases .strict (foldCases es n).1) (Match s)
  | [], n, t, _, h, hn, _ => .pure h hn (match_of_made (.of_plain Value.plain_undefined))
  | e :: es, n, t, hes, h, hn, hfirst => by
    obtain ⟨he, hes⟩ := List.forall_mem_cons.1 hes
    obtain ⟨hle, -⟩ := foldCases_within (fun e he => Setting.plain_of_suits (hes e he)) (e.fold n).2
    rw [foldCases] at hfirst ⊢
    exact (Expr.run_follows he h hn (hle.trans hfirst)).case hle fun t' hsound hn => runCases_follows hes hsound hn hfirst

/-- The right side does not have the cases that are known to be undefined. -/
theorem runCases_dropped_follows {s : Setting} : ∀ {es : List Expr} {n : Nat} {t : Tandem}, (∀ e ∈ es, e.Each s.Suits) →
    t.Sound s → t.bound ≤ n → (foldCases es n).2 ≤ s.first →
    t.Follows s (foldCases es n).2 (runCases .strict es)
      (runCases .strict ((foldCases es n).1.dropWhile isUndefinedLiteral)) (Match s)
  | [], n, t, _, h, hn, _ => .pure h hn (match_of_made (.of_plain Value.plain_undefined))
  | e :: es, n, t, hes, h, hn, hfirst => by
    obtain ⟨he, hes⟩ := List.forall_mem_cons.1 hes
    obtain ⟨hle, -⟩ := fold_within (Setting.plain_of_suits he) n
    obtain ⟨hle', -⟩ := foldCases_within (fun e he => Setting.plain_of_suits (hes e he)) (e.fold n).2
    rw [foldCases] at hfirst ⊢
    change (foldCases es (e.fold n).2).2 ≤ s.first at hfirst
    show t.Follows s (foldCases es (e.fold n).2).2 (runCases .strict (e :: es))
      (runCases .strict (((e.fold n).1 :: (foldCases es (e.fold n).2).1).dropWhile isUndefinedLiteral)) _
    rw [List.dropWhile_cons]
    split
    · next hdropped =>
      exact h.follows_dropped he hdropped fun t' hsound hbound =>
        runCases_dropped_follows hes hsound (hbound.le.trans (hn.trans hle)) hfirst
    · exact (Expr.run_follows he h hn (hle'.trans hfirst)).case hle' fun t' hsound hn =>
        runCases_follows hes hsound hn hfirst

end

/-! ## Contexts in which nothing has been evaluated -/

/-- Nothing has been evaluated in the context, and the objects of its variables have marks from a number on. -/
structure Context.Fresh (first : Nat) (c : Context) : Prop where
  trace : c.trace = []
  next : first ≤ c.next
  vars (name : String) : (c.lookup name).Each fun u => ∀ m, u.mark = some m → first ≤ m ∧ m < c.next

/-- Variables with values that are no objects yet. -/
theorem Context.fresh_ofStore {vars : Entries Value} (h : ∀ f ∈ vars, f.2.Each fun u => u.mark = none) (first : Nat) :
    (ofStore vars first).Fresh first := by
  have hfirst : first ≤ max first (nextMarkEntries vars) := Nat.le_max_left _ _
  have hvars : EachEntry (fun u => first ≤ max first (nextMarkEntries vars) ∧
      ∀ m, u.mark = some m → first ≤ m ∧ m < max first (nextMarkEntries vars)) vars :=
    eachEntry_iff.2 fun f hf => (h f hf).mono fun u hu => ⟨hfirst, fun m hm => by
      rw [hu] at hm
      cases hm⟩
  obtain ⟨hle, hstamped⟩ := Value.stampEntries_each (Value.lasting_mark first) hvars
  refine ⟨rfl, hfirst.trans hle, fun name => ?_⟩
  unfold lookup Store.lookup
  cases hfind : Entries.find? (ofStore vars first).store.entries name with
  | none => exact fun _ hm => by cases hm
  | some v =>
    have hmem := (Entries.mem_union (Entries.mem_of_find? hfind)).resolve_left List.not_mem_nil
    exact (hstamped _ hmem).mono fun _ hu => hu.2

/-- Both sides begin in the same context. -/
def Tandem.start (first : Nat) (c : Context) : Tandem where
  left := c
  right := c
  pairs a b := a = b ∧ first ≤ a ∧ a < c.next
  bound := 0

theorem Tandem.sound_start {s : Setting} {c : Context} (h : c.Fresh s.first) : (Tandem.start s.first c).Sound s where
  store := rfl
  left m _ := by
    show List.lookup m c.trace.reverse = none
    rw [h.trace]
    rfl
  right {m} _ := by
    show List.lookup m c.trace.reverse = none
    rw [h.trace]
    rfl
  bound := Nat.zero_le _
  first := h.next
  paired := by
    rintro a _ ⟨rfl, hfirst, hnext⟩
    exact ⟨hnext, hfirst, hnext⟩
  place := by
    rintro a _ ⟨rfl, -, -⟩
    rfl
  one := by
    rintro a _ a' _ ⟨rfl, -, -⟩ ⟨rfl, -, -⟩
    exact Iff.rfl
  vars name := (h.vars name).mono fun _ hu m hm => ⟨rfl, hu m hm⟩

/-! ## Expressions that were read -/

namespace Expr

/-- The literals of a text have new values without parts. -/
theorem Leaf.plainLiteral {n : Expr} (h : n.Leaf) : n.PlainLiteral := by
  intro v hv
  cases n with
  | literal l w =>
    cases hv
    rcases h with ⟨s, rfl⟩ | ⟨x, rfl⟩ | ⟨b, rfl⟩ | rfl
    · exact Value.plain_string s
    · exact Value.plain_number x
    · exact Value.plain_boolean b
    · exact ⟨rfl, Kind.noConfusion, Kind.noConfusion⟩
  | _ => cases hv

/-- The place of a node inside a part that is folded to a literal. -/
def Inside (t : Expr) (l : Location) : Prop := ∃ e ∈ t.nodes, e.Folds ∧ ∃ i ∈ e.nodes.tail, i.location = some l

end Expr

/-- What there is to know of an expression before it is folded. -/
def Setting.of (t : Expr) : Setting where
  inner := t.Inside
  spreads := ∃ e ∈ t.nodes, e.Spreads
  first := (t.fold t.nextMark).2

theorem Setting.suits_of_parse {text : String} {t : Expr} (h : Expr.parse text = .ok t) : t.Each (Setting.of t).Suits := by
  have hlocated : t.Located := (Expr.FromText.whole h).located
  obtain ⟨_, _, hread, _, _⟩ := Expr.parse_iff.1 h
  have hleaf : t.Each Expr.Leaf := readInvariant_leaf.each hread (Tokens.wf_ofText text)
  exact fun n hn =>
    { located := hlocated n hn
      plain := (hleaf n hn).plainLiteral
      inner := fun hfolds i hi l hl => ⟨n, hn, hfolds, i, hi, hl⟩
      spreads := fun hspreads => ⟨n, hn, hspreads⟩ }

namespace Expr

/-- If an expression that was read fails, what it is folded to fails with the same error, except for its location: that may be
another one if the error is located where the object that it is about comes from, and if this is a place inside a part that
was folded to a literal, or no place because the object is an integer of a range that was spliced into an array. -/
theorem optimize_keeps_place {text : String} {t : Expr} {c : Context} {err : Error} (h : parse text = .ok t)
    (hc : c.Fresh (t.fold t.nextMark).2) (herr : (t.evaluate c).1 = .error err) :
    ∃ err', (t.optimize.evaluate c).1 = .error err' ∧ err'.bare = err.bare ∧
      (err'.location = err.location ∨ ∃ k, err.About k ∧
        ((∃ l, err.location = some l ∧ t.Inside l) ∨ k = .number ∧ ∃ e ∈ t.nodes, e.Spreads)) := by
  have hfollows := Expr.run_follows (Setting.suits_of_parse h) (Tandem.sound_start hc) (Nat.zero_le t.nextMark) (Nat.le_refl _)
  unfold Tandem.Follows at hfollows
  change (t.run .strict c).1 = _ at herr
  change Tandem.Ends _ _ _ _ (t.run .strict c) (t.optimize.run .strict c) at hfollows
  show ∃ err', (t.optimize.run .strict c).1 = .error err' ∧ _
  generalize t.run .strict c = p at herr hfollows
  generalize t.optimize.run .strict c = q at hfollows
  cases hfollows with
  | ok => cases herr
  | @error r r' c' d' hshifts =>
    cases herr
    exact ⟨r', rfl, hshifts.bare.symm, hshifts.location.imp_left Eq.symm⟩

/-- The place of the error that an outcome is. -/
def failedAt {α : Type} : Except Error α → Option Location
  | .ok _ => none
  | .error err => err.location

/-- An array that is too short, in a switch that loses its first case. -/
theorem optimize_keeps_place_switch : ∃ (t : Expr) (c : Context) (err : Error), parse "{{ false -> 1, xs[5] }}" = .ok t ∧
    c.Fresh (t.fold t.nextMark).2 ∧ (t.evaluate c).1 = .error err ∧
    ∃ err', (t.optimize.evaluate c).1 = .error err' ∧ err'.bare = err.bare ∧
      (err'.location = err.location ∨ ∃ k, err.About k ∧
        ((∃ l, err.location = some l ∧ t.Inside l) ∨ k = .number ∧ ∃ e ∈ t.nodes, e.Spreads)) := by
  let vars : Entries Value := [("xs", .array [.boolean true])]
  have hfails : (parse "{{ false -> 1, xs[5] }}").toOption.any (fun t =>
      failedAt (t.evaluate (Context.ofStore vars (t.fold t.nextMark).2)).1 = some ⟨1, 16⟩) = true := by decide +kernel
  cases ht : parse "{{ false -> 1, xs[5] }}" with
  | error e =>
    rw [ht] at hfails
    cases hfails
  | ok t =>
    rw [ht] at hfails
    have hnew : ∀ f ∈ vars, f.2.Each fun u => u.mark = none := List.forall_mem_singleton.2 ⟨rfl, rfl, trivial⟩
    have hfresh := Context.fresh_ofStore hnew (t.fold t.nextMark).2
    have hfails := of_decide_eq_true hfails
    cases herr : (t.evaluate (Context.ofStore vars (t.fold t.nextMark).2)).1 with
    | ok v =>
      rw [herr] at hfails
      cases hfails
    | error err => exact ⟨t, _, err, rfl, hfresh, herr, optimize_keeps_place ht hfresh herr⟩

/-- A group is folded to a literal at its own place, where the array in it then seems to come from. -/
theorem optimize_keeps_place_group : ¬ ∀ (text : String) (t : Expr) (c : Context) (err : Error), parse text = .ok t →
    c.Fresh (t.fold t.nextMark).2 → (t.evaluate c).1 = .error err →
    ∃ err', (t.optimize.evaluate c).1 = .error err' ∧ err'.location = err.location := by
  intro h
  have hmoves : (parse "([1, 2])[5]").toOption.any (fun t =>
      failedAt (t.evaluate (Context.ofStore [] (t.fold t.nextMark).2)).1 = some ⟨1, 2⟩ ∧
        failedAt (t.optimize.evaluate (Context.ofStore [] (t.fold t.nextMark).2)).1 = some ⟨1, 1⟩) = true := by
    decide +kernel
  cases ht : parse "([1, 2])[5]" with
  | error e =>
    rw [ht] at hmoves
    cases hmoves
  | ok t =>
    rw [ht] at hmoves
    obtain ⟨hbefore, hafter⟩ := of_decide_eq_true hmoves
    have hnew : ∀ f ∈ ([] : Entries Value), f.2.Each fun u => u.mark = none := fun _ hf => absurd hf List.not_mem_nil
    have hfresh := Context.fresh_ofStore hnew (t.fold t.nextMark).2
    cases herr : (t.evaluate (Context.ofStore [] (t.fold t.nextMark).2)).1 with
    | ok v =>
      rw [herr] at hbefore
      cases hbefore
    | error err =>
      obtain ⟨err', herr', hsame⟩ := h _ t _ err ht hfresh herr
      rw [herr] at hbefore
      rw [herr'] at hafter
      cases (hbefore.symm.trans hsame.symm).trans hafter

end Expr

end ExprLang
