import ExprLang.Proofs.Bindings
import ExprLang.Proofs.Folding.Meaning
import ExprLang.Proofs.Folding.Numbered
import ExprLang.Proofs.Origins

/-!
# What evaluation makes of a constant part

A part of an expression that is folded to a literal reads no variable. If it is evaluated, all objects in its value are new,
and they come from inside the part: only the value itself may have been produced by the part as a whole, and only the
integers of a range that was spliced into an array have not been produced by any node (`Expr.run_builds`).
-/

namespace ExprLang

/-! ## Places of marks -/

namespace Context

variable {c d : Context} {v : Value} {l : Location} {m : Nat}

/-- Where the object with a mark was produced first. -/
def place (c : Context) (m : Nat) : Option Location := List.lookup m c.trace.reverse

theorem place_record (c : Context) (v : Value) (l : Option Location) (m : Nat) :
    (c.record v l).place m = (c.place m).or (if v.mark = some m then l else none) := by
  obtain ⟨_ | k, content⟩ := v
  · exact (Option.or_none).symm
  · cases l with
    | none => rw [ite_self, Option.or_none]; rfl
    | some l =>
      show List.lookup m ((k, l) :: c.trace).reverse = _
      rw [List.reverse_cons, List.lookup_append]
      by_cases hk : m = k
      · simp [place, hk, Value.mark]
      · have hne : (m == k) = false := by simp [hk]
        simp [place, List.lookup_cons, hne, Value.mark, Ne.symm hk]

theorem next_record (c : Context) (v : Value) (l : Option Location) : (c.record v l).next = c.next := by
  unfold record
  split <;> rfl

/-- No object is known that has not been made. -/
def Known (c : Context) : Prop := ∀ m, c.next ≤ m → c.place m = none

/-- The later context knows nothing more of the objects that existed before. -/
structure Makes (c d : Context) : Prop where
  store : d.store = c.store
  next : c.next ≤ d.next
  known : d.Known
  place {m : Nat} : m < c.next → d.place m = c.place m

theorem Makes.refl (h : c.Known) : c.Makes c := ⟨rfl, Nat.le_refl _, h, fun _ => rfl⟩

theorem Makes.trans {e : Context} (h : c.Makes d) (h' : d.Makes e) : c.Makes e :=
  ⟨h'.store.trans h.store, h.next.trans h'.next, h'.known, fun hm => (h'.place (hm.trans_le h.next)).trans (h.place hm)⟩

end Context

/-! ## Evaluations that succeed -/

/-- If the evaluation succeeds, it only makes new objects, and its result has a property. -/
def Evaluation.Ensures {α : Type} (c : Context) (x : Evaluation α) (Q : Context → α → Prop) : Prop :=
  ∀ a d, x c = (.ok a, d) → c.Makes d ∧ Q d a

namespace Evaluation.Ensures

variable {α β : Type} {c : Context} {x : Evaluation α} {Q R : Context → α → Prop} {S : Context → β → Prop}

theorem mono (h : Ensures c x Q) (hQ : ∀ d a, c.Makes d → Q d a → R d a) : Ensures c x R := fun a d hrun =>
  ⟨(h a d hrun).1, hQ d a (h a d hrun).1 (h a d hrun).2⟩

theorem pure {a : α} (hc : c.Known) (h : Q c a) : Ensures c (Pure.pure a) Q := by
  rintro _ _ ⟨⟩
  exact ⟨.refl hc, h⟩

theorem result {r : Except Error α} (hc : c.Known) (h : ∀ a, r = .ok a → Q c a) : Ensures c (result r) Q := by
  rintro a _ ⟨⟩
  exact ⟨.refl hc, h a rfl⟩

theorem bind {k : α → Evaluation β} (h : Ensures c x Q) (hk : ∀ d a, c.Makes d → Q d a → Ensures d (k a) S) :
    Ensures c (x >>= k) S := by
  intro b d' hrun
  obtain ⟨a, d, hx, hrest⟩ := bind_ok.1 hrun
  obtain ⟨hmakes, hQ⟩ := h a d hx
  obtain ⟨hmakes', hS⟩ := hk d a hmakes hQ b d' hrest
  exact ⟨hmakes.trans hmakes', hS⟩

/-- What is known of the result for another reason. -/
theorem and {P : α → Prop} (h : Ensures c x Q) (hP : ∀ a d, x c = (.ok a, d) → P a) :
    Ensures c x fun d a => Q d a ∧ P a := fun a d hrun =>
  ⟨(h a d hrun).1, (h a d hrun).2, hP a d hrun⟩

end Evaluation.Ensures

/-! ## Objects from inside -/

/-- What is known of an expression to be folded: where the parts of its constant parts stand, whether a range is spliced
into an array in it, and a number above all marks that folding takes. -/
structure Setting where
  inner : Location → Prop
  spreads : Prop
  first : Nat

namespace Setting

variable {s : Setting} {a b : Nat} {c d : Context} {u v w : Value} {place : Option Location}

/-- One more place counts. -/
def withPlace (s : Setting) (place : Option Location) : Setting := { s with inner := fun l => s.inner l ∨ place = some l }

/-- An object that is not older than a mark and that comes from inside, or an integer of a range. -/
structure Made (s : Setting) (first : Nat) (c : Context) (u : Value) : Prop where
  mark {m : Nat} : u.mark = some m → first ≤ m ∧ m < c.next
  origin : (∃ l, c.origin u = some l ∧ s.inner l) ∨ s.spreads ∧ u.kind = .number

theorem Made.mono (h : s.Made a c u) (hmakes : c.Makes d) (hba : b ≤ a) : s.Made b d u where
  mark hm := ⟨hba.trans (h.mark hm).1, (h.mark hm).2.trans_le hmakes.next⟩
  origin := by
    refine h.origin.imp_left ?_
    rintro ⟨l, hl, hinner⟩
    obtain ⟨m, hm, hplace⟩ := Option.bind_eq_some_iff.1 hl
    refine ⟨l, ?_, hinner⟩
    rw [Context.origin, hm, Option.bind_some, ← hplace]
    exact hmakes.place (h.mark hm).2

theorem Made.withPlace (h : s.Made a c u) (place : Option Location) : (s.withPlace place).Made a c u :=
  ⟨h.mark, h.origin.imp_left fun ⟨l, hl, hinner⟩ => ⟨l, hl, .inl hinner⟩⟩

theorem Made.record (h : s.Made a c u) (w : Value) (place : Option Location) : s.Made a (c.record w place) u where
  mark := by
    rw [Context.next_record]
    exact h.mark
  origin := h.origin.imp_left fun ⟨l, hl, hinner⟩ => ⟨l, Context.origin_record hl w place, hinner⟩

/-- The value of a constant part. -/
structure Builds (s : Setting) (place : Option Location) (first : Nat) (c : Context) (v : Value) : Prop where
  self : (s.withPlace place).Made first c v
  parts : ∀ u ∈ v.parts, u.Each (s.Made first c)

/-- In a constant part, a constant part has its value from inside. -/
theorem Builds.each (h : s.Builds place a c v) (hplace : ∀ l, place = some l → s.inner l) : v.Each (s.Made a c) := by
  refine Value.each_iff_parts.2 ⟨⟨h.self.mark, h.self.origin.imp_left ?_⟩, h.parts⟩
  rintro ⟨l, hl, hinner⟩
  exact ⟨l, hl, hinner.elim id (hplace l)⟩

theorem lasting_made (s : Setting) (a : Nat) (c : Context) :
    Value.Lasting fun n u => a ≤ n ∧ s.Made a { c with next := n } u where
  mono hle hu := ⟨hu.1.trans hle, fun hm => ⟨(hu.2.mark hm).1, (hu.2.mark hm).2.trans_le hle⟩, hu.2.origin⟩
  issue hkind hu := by
    obtain ⟨hle, hmark⟩ := (Value.lasting_mark a).issue hkind ⟨hu.1, fun _ hm => hu.2.mark hm⟩
    refine ⟨hle, fun hm => hmark _ hm, ?_⟩
    rcases hu.2.origin with ⟨l, hl, -⟩ | ⟨hspreads, hnumber⟩
    · cases hl
    · exact .inr ⟨hspreads, hkind.symm.trans hnumber⟩

/-- An object of what a step makes of values from inside comes from inside as well, or it is new. -/
theorem made_stamp (hw : w.Over (s.Made a c)) (ha : a ≤ c.next) :
    let v := (w.stamp c.next).1
    let d := { c with next := (w.stamp c.next).2 }
    c.next ≤ d.next ∧ (∀ u ∈ v.parts, u.Each (s.Made a d)) ∧
      (s.Made a d v ∨ ∃ m, v.mark = some m ∧ c.next ≤ m ∧ m < d.next) := by
  have hlasting := s.lasting_made a c
  rcases hw with hw | ⟨hnew, hparts⟩
  · obtain ⟨hle, hv⟩ := Value.stamp_each hlasting (Value.Each.mono (fun _ hu => ⟨ha, hu⟩) hw)
    obtain ⟨hself, hparts⟩ := Value.each_iff_parts.1 (Value.Each.mono (fun _ hu => hu.2) hv)
    exact ⟨hle, hparts, .inl hself⟩
  · obtain ⟨m, hle, hnext, hmark, hparts⟩ :=
      Value.stamp_new hlasting hnew fun u hu => Value.Each.mono (fun _ hu => ⟨ha, hu⟩) (hparts u hu)
    have hlt : m < (w.stamp c.next).2 := hnext ▸ Nat.lt_succ_self m
    refine ⟨hle.trans hlt.le, fun u hu => ?_, .inr ⟨m, hmark, hle, hlt⟩⟩
    exact Value.Each.mono (fun _ hu => (hlasting.mono hlt.le hu).2) (hparts u hu)

/-- Recording an object that comes from inside, or that is new. -/
theorem builds_record {n : Nat} {l : Location} (hl : place = some l) (hmakes : c.Makes d) (hle : d.next ≤ n)
    (hparts : ∀ w ∈ u.parts, w.Each (s.Made c.next { d with next := n }))
    (hself : s.Made c.next { d with next := n } u ∨ ∃ m, u.mark = some m ∧ d.next ≤ m ∧ m < n) :
    c.Makes (({ d with next := n } : Context).record u place) ∧
      s.Builds place c.next (({ d with next := n } : Context).record u place) u := by
  have hmark : ∀ {m}, u.mark = some m → c.next ≤ m ∧ m < n := fun {m} hm => by
    rcases hself with hself | ⟨k, hk, hfirst, hnext⟩
    · exact hself.mark hm
    · rw [hk] at hm
      cases hm
      exact ⟨hmakes.next.trans hfirst, hnext⟩
  have hplace : ∀ m, ¬ u.mark = some m → (({ d with next := n } : Context).record u place).place m = d.place m :=
    fun m hm => by
      rw [Context.place_record, if_neg hm, Option.or_none]
      rfl
  refine ⟨⟨?_, ?_, fun m hm => ?_, fun {m} hm => ?_⟩, ⟨?_, ?_⟩, fun w hw => ?_⟩
  · exact (Evaluation.store_record _ _ _).trans hmakes.store
  · rw [Context.next_record]
    exact hmakes.next.trans hle
  · rw [Context.next_record] at hm
    rw [hplace m fun h => absurd (hmark h).2 hm.not_gt]
    exact hmakes.known m (hle.trans hm)
  · rw [hplace m fun h => absurd (hmark h).1 hm.not_ge]
    exact hmakes.place hm
  · rw [Context.next_record]
    exact hmark
  · rcases hself with hself | ⟨m, hm, hfirst, -⟩
    · exact ((hself.withPlace place).record u place).origin
    · refine .inl ⟨l, ?_, .inr hl⟩
      rw [Context.origin, hm, Option.bind_some]
      show (Context.record _ _ _).place m = some l
      rw [Context.place_record, if_pos hm, hl]
      show (d.place m).or (some l) = some l
      rw [hmakes.known m hfirst, Option.none_or]
  · exact Value.Each.mono (fun _ hv => hv.record u place) (hparts w hw)

end Setting

open Evaluation (Ensures result settle bind_ok)

/-- A node whose step makes something of values from inside builds its value. -/
theorem Setting.ensures_settle {s : Setting} {c : Context} {e : Expr} {x : Evaluation Value} {l : Location}
    (hl : e.location = some l) (h : Ensures c x fun d w => w.Over (s.Made c.next d)) :
    Ensures c (settle .strict e x) (s.Builds e.location c.next) := by
  intro v d' hrun
  unfold settle at hrun
  rcases hx : x c with ⟨r | w, d⟩
  · rw [hx] at hrun
    dsimp only at hrun
    rw [if_neg (by simp)] at hrun
    cases hrun
  · rw [hx] at hrun
    cases hrun
    obtain ⟨hmakes, hw⟩ := h w d hx
    obtain ⟨hle, hparts, hself⟩ := made_stamp hw hmakes.next
    exact builds_record hl hmakes hle hparts hself

/-! ## Constant parts -/

namespace Expr

/-- The part is folded to a literal. -/
def Folds (e : Expr) : Prop := ∃ n, (e.fold n).1.isLiteral = true

/-- A range is spliced into an array as it is folded. -/
def Spreads (e : Expr) : Prop :=
  ∃ l items, e = .array l items ∧ ∃ i ∈ items, ∃ n v, (i.fold n).1.value? = some v ∧ v.kind = .range

end Expr

/-- What a setting says of a node of an expression that was read. -/
structure Setting.Suits (s : Setting) (n : Expr) : Prop where
  located : n.location.isSome = true
  plain : n.PlainLiteral
  inner : n.Folds → ∀ i ∈ n.nodes.tail, ∀ l, i.location = some l → s.inner l
  spreads : n.Spreads → s.spreads

namespace Expr

variable {e a b : Expr} {l : Option Location} {n : Nat} {c d : Context} {v w : Value}

/-- What a literal was folded from does not fail. -/
theorem run_of_value? (h : (e.fold n).1.value? = some w) (c : Context) :
    ∃ v d, e.run .strict c = (.ok v, d) ∧ v.bare = w.bare := by
  have agrees := (run_yields .strict c.store e c rfl).2
  rw [← denote_fold .strict c.store.values e n, denote_of_value? .strict _ h] at agrees
  obtain ⟨v, hv, hbare⟩ := agrees.exists_ok
  exact ⟨v, _, Prod.ext hv rfl, hbare⟩

theorem run_bare (h : (e.fold n).1.value? = some w) (hrun : e.run .strict c = (.ok v, d)) : v.bare = w.bare := by
  obtain ⟨_, _, hown, hbare⟩ := run_of_value? h c
  rw [hrun] at hown
  cases hown
  exact hbare

/-! ### What a literal was closed over -/

theorem forall_of_mapM {α β : Type} {f : α → Option β} {xs : List α} {ys : List β} (h : xs.mapM f = some ys) :
    ∀ x ∈ xs, (f x).isSome = true := by
  induction xs generalizing ys with
  | nil => exact fun _ hx => absurd hx List.not_mem_nil
  | cons x xs ih =>
    rw [List.mapM_cons] at h
    obtain ⟨y, hy, h⟩ := Option.bind_eq_some_iff.1 h
    obtain ⟨ys, hys, -⟩ := Option.bind_eq_some_iff.1 h
    exact List.forall_mem_cons.2 ⟨Option.isSome_iff_exists.2 ⟨y, hy⟩, ih hys⟩

theorem literal_of_closeArray {items : List Expr} (h : (closeArray l items n).1.isLiteral = true) :
    ∀ e ∈ items, e.isLiteral = true := by
  unfold closeArray at h
  cases hvs : values? items with
  | none =>
    rw [hvs] at h
    cases h
  | some vs => exact forall_of_mapM hvs

theorem literal_of_closeMap {entries : List (String × Expr)} (h : (closeMap l entries n).1.isLiteral = true) :
    ∀ f ∈ entries, f.2.isLiteral = true := by
  unfold closeMap at h
  generalize hvs : entries.mapM (m := Option) _ = vs at h
  cases vs with
  | none => cases h
  | some vs =>
    intro f hf
    have hsome := forall_of_mapM hvs f hf
    rwa [Option.isSome_map] at hsome

theorem literal_of_closeUnary {op : UnaryOp} (h : (closeUnary l op a n).1.isLiteral = true) : ∃ w, a.value? = some w := by
  unfold closeUnary at h
  cases ha : a.value? with
  | none =>
    rw [ha] at h
    cases h
  | some w => exact ⟨w, rfl⟩

theorem literal_of_closeBinary {op : BinaryOp} (h : (closeBinary l op a b n).1.isLiteral = true) :
    ∃ w, a.value? = some w ∧ ∀ finish, op.afterLeft w = .right finish → ∃ u, b.value? = some u := by
  unfold closeBinary at h
  cases ha : a.value? with
  | none =>
    rw [ha] at h
    cases h
  | some w =>
    refine ⟨w, rfl, fun finish hfinish => ?_⟩
    cases hb : b.value? with
    | none =>
      rw [ha, hb, Option.map_some, hfinish] at h
      cases h
    | some u => exact ⟨u, rfl⟩

theorem literal_of_closeSubscript (h : (closeSubscript l a b n).1.isLiteral = true) :
    (∃ w, a.value? = some w) ∧ ∃ u, b.value? = some u := by
  unfold closeSubscript at h
  cases ha : a.value? with
  | none =>
    rw [ha] at h
    cases h
  | some w =>
    cases hb : b.value? with
    | none =>
      rw [ha, hb] at h
      cases h
    | some u => exact ⟨⟨w, rfl⟩, u, rfl⟩

/-- The first case that may count. -/
theorem literal_of_closeSwitch {cases : List Expr} (h : (closeSwitch l cases n).1.isLiteral = true) :
    ∀ e ∈ (cases.dropWhile isUndefinedLiteral).head?, e.isLiteral = true := by
  unfold closeSwitch at h
  cases hrest : cases.dropWhile isUndefinedLiteral with
  | nil => exact fun _ he => by cases he
  | cons e es =>
    rw [hrest] at h
    rintro _ ⟨⟩
    cases e with
    | literal => rfl
    | _ => cases h

theorem literal_of_spliceItem (h : ∀ f ∈ (spliceItem e n).1, f.isLiteral = true) : ∃ w, e.value? = some w := by
  cases he : e.value? with
  | some w => exact ⟨w, rfl⟩
  | none =>
    have hself : e ∈ (spliceItem e n).1 := by
      unfold spliceItem
      rw [he]
      exact List.mem_singleton_self e
    have hliteral := h e hself
    rw [isLiteral, he] at hliteral
    cases hliteral

end Expr

/-! ### Runs -/

variable {s : Setting}

/-- The expression is a part of a constant part. -/
structure Setting.Holds (s : Setting) (e : Expr) : Prop where
  each : e.Each s.Suits
  inner {l : Location} : e.location = some l → s.inner l

theorem Setting.holds_of_nodes {e : Expr} (he : e.Each s.Suits) (h : ∀ i ∈ e.nodes, ∀ l, i.location = some l → s.inner l) :
    s.Holds e := ⟨he, fun {l} hl => h e e.mem_nodes_self l hl⟩

/-- What the operand of a node in a constant part gives. -/
theorem Expr.run_made {e : Expr} {n : Nat} {c : Context} {w : Value} (he : s.Holds e) (hw : (e.fold n).1.value? = some w)
    (h : Ensures c (e.run .strict) (s.Builds e.location c.next)) :
    Ensures c (e.run .strict) fun d v => v.Each (s.Made c.next d) ∧ v.bare = w.bare :=
  (h.mono fun _ _ _ hv => hv.each fun _ hl => he.inner hl).and fun _ _ hrun => run_bare hw hrun

open ExprLang.Expr in
mutual

theorem Expr.run_builds : ∀ {e : Expr} {n : Nat} {c : Context}, e.Each s.Suits → (e.fold n).1.isLiteral = true →
    c.Known → Ensures c (e.run .strict) (s.Builds e.location c.next)
  | .literal l v, n, c, he, _, hc => by
    have hnode := each_literal.1 he
    obtain ⟨l', hl⟩ := Option.isSome_iff_exists.1 hnode.located
    refine Setting.ensures_settle hl (.result hc fun w hw => ?_)
    cases hw
    exact (hnode.plain v rfl).over
  | .var _ _, _, _, _, h, _ => by cases h
  | .array l items, n, c, he, h, hc => by
    obtain ⟨hnode, hitems⟩ := each_array.1 he
    obtain ⟨l', hl⟩ := Option.isSome_iff_exists.1 hnode.located
    have hinner := hnode.inner ⟨n, h⟩
    have hspreads : ∀ e ∈ items, ∀ n v, (e.fold n).1.value? = some v → v.kind = .range → s.spreads :=
      fun e he n v hv hkind => hnode.spreads ⟨l, items, rfl, e, he, n, v, hv, hkind⟩
    rw [Expr.fold] at h
    have hholds : ∀ e ∈ items, s.Holds e := fun e he =>
      Setting.holds_of_nodes (hitems e he) (forall_nodesOf.1 hinner e he)
    refine Setting.ensures_settle hl ((runItems_builds hholds hspreads (literal_of_closeArray h) hc).bind fun d vs hmakes hvs => ?_)
    exact .pure hmakes.known (.inr ⟨rfl, hvs⟩)
  | .map l entries, n, c, he, h, hc => by
    obtain ⟨hnode, hentries⟩ := each_map.1 he
    obtain ⟨l', hl⟩ := Option.isSome_iff_exists.1 hnode.located
    have hinner := hnode.inner ⟨n, h⟩
    rw [Expr.fold] at h
    have hholds : ∀ f ∈ entries, s.Holds f.2 := fun f hf =>
      Setting.holds_of_nodes (hentries f hf) (forall_nodesOfEntries.1 hinner f hf)
    refine Setting.ensures_settle hl ((runEntries_builds hholds (literal_of_closeMap h) hc).bind fun d es hmakes hes => ?_)
    exact .pure hmakes.known (.inr ⟨rfl, List.forall_mem_map.2 hes⟩)
  | .unary l op a, n, c, he, h, hc => by
    obtain ⟨hnode, ha⟩ := each_unary.1 he
    obtain ⟨l', hl⟩ := Option.isSome_iff_exists.1 hnode.located
    have hinner := hnode.inner ⟨n, h⟩
    rw [Expr.fold] at h
    obtain ⟨w, hw⟩ := literal_of_closeUnary h
    have hrun := Expr.run_builds ha (Option.isSome_iff_exists.2 ⟨w, hw⟩) hc
    refine Setting.ensures_settle hl ((run_made (Setting.holds_of_nodes ha hinner) hw hrun).bind fun d v hmakes hv => ?_)
    exact .result hmakes.known fun u hu => op.apply_over hv.1 hu
  | .binary l op a b, n, c, he, h, hc => by
    obtain ⟨hnode, ha, hb⟩ := each_binary.1 he
    obtain ⟨l', hl⟩ := Option.isSome_iff_exists.1 hnode.located
    obtain ⟨hinner, hinner'⟩ := List.forall_mem_append.1 (hnode.inner ⟨n, h⟩)
    rw [Expr.fold] at h
    obtain ⟨w, hw, hright⟩ := literal_of_closeBinary h
    have hrun := Expr.run_builds ha (Option.isSome_iff_exists.2 ⟨w, hw⟩) hc
    refine Setting.ensures_settle hl ((run_made (Setting.holds_of_nodes ha hinner) hw hrun).bind fun d v hmakes hv => ?_)
    obtain ⟨hmade, hbare⟩ := hv
    -- The demand is the same for every property: the right operand is evaluated in a later context.
    have hover : ∀ P : Value → Prop, v.Each P → (op.afterLeft v).Over P := fun P => op.afterLeft_over
    have htwin := op.afterLeft_twin hbare
    generalize op.afterLeft v = demand at hover htwin ⊢
    generalize op.afterLeft w = demand' at hright htwin
    cases htwin with
    | done => exact .result hmakes.known (hover _ hmade)
    | @right finish finish' =>
      obtain ⟨u, hu⟩ := hright finish' rfl
      have hrun' := Expr.run_builds hb (Option.isSome_iff_exists.2 ⟨u, hu⟩) hmakes.known
      refine (run_made (Setting.holds_of_nodes hb hinner') hu hrun').bind fun d' v' hmakes' hv' => ?_
      have hleft : v.Each (s.Made c.next d') := hmade.mono fun _ h => h.mono hmakes' (Nat.le_refl _)
      have hright : v'.Each (s.Made c.next d') := hv'.1.mono fun _ h => h.mono (.refl hmakes'.known) hmakes.next
      exact .result hmakes'.known fun r hr => hover _ hleft v' r hright hr
  | .subscript l a b, n, c, he, h, hc => by
    obtain ⟨hnode, ha, hb⟩ := each_subscript.1 he
    obtain ⟨l', hl⟩ := Option.isSome_iff_exists.1 hnode.located
    obtain ⟨hinner, hinner'⟩ := List.forall_mem_append.1 (hnode.inner ⟨n, h⟩)
    rw [Expr.fold] at h
    obtain ⟨⟨w, hw⟩, u, hu⟩ := literal_of_closeSubscript h
    have hrun := Expr.run_builds ha (Option.isSome_iff_exists.2 ⟨w, hw⟩) hc
    refine Setting.ensures_settle hl ((run_made (Setting.holds_of_nodes ha hinner) hw hrun).bind fun d v hmakes hv => ?_)
    have hrun' := Expr.run_builds hb (Option.isSome_iff_exists.2 ⟨u, hu⟩) hmakes.known
    refine (run_made (Setting.holds_of_nodes hb hinner') hu hrun').bind fun d' v' hmakes' hv' => ?_
    have hbase : v.Each (s.Made c.next d') := hv.1.mono fun _ h => h.mono hmakes' (Nat.le_refl _)
    have hindex : v'.Each (s.Made c.next d') := hv'.1.mono fun _ h => h.mono (.refl hmakes'.known) hmakes.next
    exact .result hmakes'.known fun r hr => Value.subscript_over hbase hindex hr
  | .switch l cases, n, c, he, h, hc => by
    obtain ⟨hnode, hcases⟩ := each_switch.1 he
    obtain ⟨l', hl⟩ := Option.isSome_iff_exists.1 hnode.located
    have hinner := hnode.inner ⟨n, h⟩
    rw [Expr.fold] at h
    have hholds : ∀ e ∈ cases, s.Holds e := fun e he =>
      Setting.holds_of_nodes (hcases e he) (forall_nodesOf.1 hinner e he)
    exact Setting.ensures_settle hl (runCases_builds hholds (literal_of_closeSwitch h) hc)

theorem runItems_builds : ∀ {es : List Expr} {n : Nat} {c : Context}, (∀ e ∈ es, s.Holds e) →
    (∀ e ∈ es, ∀ n v, (e.fold n).1.value? = some v → v.kind = .range → s.spreads) →
    (∀ f ∈ (foldItems es n).1, f.isLiteral = true) → c.Known →
    Ensures c (runItems .strict es) fun d vs => ∀ v ∈ vs, v.Each (s.Made c.next d)
  | [], _, _, _, _, _, hc => .pure hc fun _ hv => absurd hv List.not_mem_nil
  | e :: es, n, c, hes, hspreads, h, hc => by
    obtain ⟨he, hes⟩ := List.forall_mem_cons.1 hes
    obtain ⟨hspread, hspreads⟩ := List.forall_mem_cons.1 hspreads
    rw [foldItems] at h
    obtain ⟨hitem, hrest⟩ := List.forall_mem_append.1 h
    obtain ⟨w, hw⟩ := literal_of_spliceItem hitem
    have hrun := Expr.run_builds he.each (Option.isSome_iff_exists.2 ⟨w, hw⟩) hc
    refine (run_made he hw hrun).bind fun d v hmakes hv => ?_
    have hspliced : Ensures d (result v.splice) fun d vs => ∀ u ∈ vs, u.Each (s.Made c.next d) := by
      refine .result hmakes.known fun vs hvs => ?_
      rcases Value.splice_cases hvs with ⟨-, rfl⟩ | ⟨hrange, hints⟩
      · exact List.forall_mem_singleton.2 hv.1
      · intro u hu
        obtain ⟨i, rfl⟩ := hints u hu
        have hkind : w.kind = .range := by rw [← w.kind_bare, ← hv.2, v.kind_bare, hrange]
        have hmade : s.Made c.next d (Value.integer i) := ⟨fun hm => (by cases hm), .inr ⟨hspread n w hw hkind, rfl⟩⟩
        exact hmade
    refine hspliced.bind fun d' vs hmakes' hvs => ?_
    refine (runItems_builds hes hspreads hrest hmakes'.known).bind fun d'' vs' hmakes'' hvs' => .pure hmakes''.known ?_
    refine List.forall_mem_append.2 ⟨fun u hu => ?_, fun u hu => ?_⟩
    · exact (hvs u hu).mono fun _ h => h.mono hmakes'' (Nat.le_refl _)
    · exact (hvs' u hu).mono fun _ h => h.mono (.refl hmakes''.known) (hmakes.trans hmakes').next

theorem runEntries_builds : ∀ {es : List (String × Expr)} {n : Nat} {c : Context}, (∀ f ∈ es, s.Holds f.2) →
    (∀ f ∈ (foldEntries es n).1, f.2.isLiteral = true) → c.Known →
    Ensures c (runEntries .strict es) fun d vs => ∀ f ∈ vs, f.2.Each (s.Made c.next d)
  | [], _, _, _, _, hc => .pure hc fun _ hv => absurd hv List.not_mem_nil
  | (k, e) :: es, n, c, hes, h, hc => by
    obtain ⟨he, hes⟩ := List.forall_mem_cons.1 hes
    rw [foldEntries] at h
    obtain ⟨hliteral, hrest⟩ := List.forall_mem_cons.1 h
    obtain ⟨w, hw⟩ := Option.isSome_iff_exists.1 hliteral
    refine (run_made he hw (Expr.run_builds he.each hliteral hc)).bind fun d v hmakes hv => ?_
    refine (runEntries_builds hes hrest hmakes.known).bind fun d' vs hmakes' hvs => .pure hmakes'.known ?_
    refine List.forall_mem_cons.2 ⟨hv.1.mono fun _ h => h.mono hmakes' (Nat.le_refl _), fun f hf => ?_⟩
    exact (hvs f hf).mono fun _ h => h.mono (.refl hmakes'.known) hmakes.next

theorem runCases_builds : ∀ {es : List Expr} {n : Nat} {c : Context}, (∀ e ∈ es, s.Holds e) →
    (∀ e ∈ ((foldCases es n).1.dropWhile isUndefinedLiteral).head?, e.isLiteral = true) → c.Known →
    Ensures c (runCases .strict es) fun d v => v.Over (s.Made c.next d)
  | [], _, _, _, _, hc => .pure hc Value.plain_undefined.over
  | e :: es, n, c, hes, h, hc => by
    obtain ⟨he, hes⟩ := List.forall_mem_cons.1 hes
    rw [foldCases] at h
    change ∀ f ∈ (((e.fold n).1 :: (foldCases es (e.fold n).2).1).dropWhile isUndefinedLiteral).head?, _ at h
    rw [List.dropWhile_cons] at h
    cases hdropped : isUndefinedLiteral (e.fold n).1 with
    | true =>
      rw [if_pos hdropped] at h
      obtain ⟨w, hw, hundefined⟩ := (Option.any_eq_true _ _).1 hdropped
      have hrun := Expr.run_builds he.each (Option.isSome_iff_exists.2 ⟨w, hw⟩) hc
      refine (run_made he hw hrun).bind fun d v hmakes hv => ?_
      rw [if_pos (by rw [← v.isUndefined_bare, hv.2, w.isUndefined_bare, hundefined])]
      refine (runCases_builds hes h hmakes.known).mono fun d' u hmakes' hu => ?_
      exact hu.mono fun _ h => h.mono (.refl hmakes'.known) hmakes.next
    | false =>
      rw [if_neg (by simp [hdropped])] at h
      have hliteral := h _ rfl
      obtain ⟨w, hw⟩ := Option.isSome_iff_exists.1 hliteral
      refine (run_made he hw (Expr.run_builds he.each hliteral hc)).bind fun d v hmakes hv => ?_
      have hdefined : w.isUndefined = false := by simpa [isUndefinedLiteral, hw] using hdropped
      rw [if_neg (by rw [← v.isUndefined_bare, hv.2, w.isUndefined_bare, hdefined]; exact Bool.false_ne_true)]
      exact .pure hmakes.known (.inl hv.1)

end

end ExprLang
