import ExprLang.Proofs.Folding.Invariant
import ExprLang.Proofs.Paired
import Mathlib.Order.Nat

/-!
# The marks of folded literals

Folding takes marks for its new objects one after the other, and the steps that it takes make no other marks. So all objects
in a literal that folding makes of a part have marks from the stretch that was used up for this part
(`Expr.fold_within`), and different literals have different objects.
-/

namespace ExprLang

/-! ## What steps make of one operand -/

namespace Value

mutual

/-- A value whose parts are related to themselves. -/
theorem Each.paired_self {P : Value → Prop} {M : Value → Value → Prop} (hM : ∀ u, P u → M u u) :
    ∀ {v : Value}, v.Each P → v.Paired M v
  | ⟨_, .array _⟩, h => .mk (hM _ h.1) (.array (EachItem.paired_self hM h.2))
  | ⟨_, .map _⟩, h => .mk (hM _ h.1) (.map (EachEntry.paired_self hM h.2))
  | ⟨_, .boolean _⟩, h | ⟨_, .string _⟩, h | ⟨_, .number _⟩, h | ⟨_, .range _⟩, h | ⟨_, .null⟩, h | ⟨_, .undefined⟩, h =>
    .mk (hM _ h) (.scalar ⟨Kind.noConfusion, Kind.noConfusion⟩)

theorem EachItem.paired_self {P : Value → Prop} {M : Value → Value → Prop} (hM : ∀ u, P u → M u u) :
    ∀ {vs : List Value}, EachItem P vs → List.Forall₂ (Paired M) vs vs
  | [], _ => .nil
  | _ :: _, h => .cons (Each.paired_self hM h.1) (EachItem.paired_self hM h.2)

theorem EachEntry.paired_self {P : Value → Prop} {M : Value → Value → Prop} (hM : ∀ u, P u → M u u) :
    ∀ {es : List (String × Value)}, EachEntry P es → Entries.Related (Paired M) es es
  | [], _ => .nil
  | (_, _) :: _, h => .cons (Each.paired_self hM h.1) (EachEntry.paired_self hM h.2)

end

theorem Each.paired {P : Value → Prop} {v : Value} (h : v.Each P) : v.Paired (fun u _ => P u) v :=
  Each.paired_self (M := fun u _ => P u) (fun _ hu => hu) h

/-- The immediate parts. -/
def parts (v : Value) : List Value :=
  match v.content with
  | .array items => items
  | .map entries => entries.map Prod.snd
  | _ => []

theorem Partless.parts_eq {v : Value} (h : v.Partless) : v.parts = [] := by
  obtain ⟨m, c⟩ := v
  cases c with
  | array => exact absurd rfl h.1
  | map => exact absurd rfl h.2
  | _ => rfl

/-- A value that is handed on, or a new one over parts that are. -/
def Over (P : Value → Prop) (v : Value) : Prop := v.Each P ∨ v.mark = none ∧ ∀ u ∈ v.parts, u.Each P

section

variable {P : Value → Prop} {v w : Value}

theorem each_iff_parts : v.Each P ↔ P v ∧ ∀ u ∈ v.parts, u.Each P := by
  obtain ⟨m, c⟩ := v
  cases c with
  | array vs => exact each_array
  | map es =>
    refine each_map.trans (and_congr_right fun _ => ?_)
    show _ ↔ ∀ u ∈ es.map Prod.snd, u.Each P
    rw [List.forall_mem_map]
  | _ => exact ⟨fun h => ⟨h, fun _ hu => absurd hu List.not_mem_nil⟩, And.left⟩

/-- Values that are equal up to marks are paired if they belong together, and their parts do for what holds of them one
by one. -/
theorem Paired.of_parts {Q : Value → Prop} {M : Value → Value → Prop} (hM : ∀ v w, v.bare = w.bare → P v → Q w → M v w)
    (h : v.bare = w.bare) (hself : M v w) (hv : ∀ u ∈ v.parts, u.Each P) (hw : ∀ u ∈ w.parts, u.Each Q) :
    v.Paired M w := by
  obtain ⟨m, c⟩ := v
  obtain ⟨n, d⟩ := w
  cases c with
  | array vs =>
    cases d with
    | array ws =>
      have hitems : bareItems vs = bareItems ws := by simpa [bare] using h
      exact .mk hself (.array (Paired.of_bare_items hM hitems (eachItem_iff.2 hv) (eachItem_iff.2 hw)))
    | _ => simp [bare] at h
  | map es =>
    cases d with
    | map fs =>
      have hentries : bareEntries es = bareEntries fs := by simpa [bare] using h
      refine .mk hself (.map (Paired.of_bare_entries hM hentries (eachEntry_iff.2 ?_) (eachEntry_iff.2 ?_)))
      · exact List.forall_mem_map.1 hv
      · exact List.forall_mem_map.1 hw
    | _ => simp [bare] at h
  | _ =>
    obtain rfl := content_of_partless ⟨Kind.noConfusion, Kind.noConfusion⟩ h
    exact .mk hself (.scalar ⟨Kind.noConfusion, Kind.noConfusion⟩)

theorem Over.mono {Q : Value → Prop} (h : v.Over P) (hPQ : ∀ u, P u → Q u) : v.Over Q :=
  h.imp (fun hv => hv.mono hPQ) (And.imp_right fun hparts u hu => (hparts u hu).mono hPQ)

theorem Plain.over (h : v.Plain) : v.Over P := by
  refine .inr ⟨h.new, ?_⟩
  rw [h.partless.parts_eq]
  exact fun _ hu => absurd hu List.not_mem_nil

theorem Made.over (h : v.Made (fun u _ => P u) w) : v.Over P := by
  cases h with
  | same h => exact .inl (h.each fun _ _ h => h)
  | @new c d halike =>
    cases halike with
    | scalar hc => exact Plain.over ⟨rfl, hc⟩
    | @array vs ws hvs =>
      refine .inr ⟨rfl, ?_⟩
      show ∀ u ∈ vs, u.Each P
      induction hvs with
      | nil => exact fun _ hu => absurd hu List.not_mem_nil
      | cons hv _ ih => exact List.forall_mem_cons.2 ⟨hv.each fun _ _ h => h, ih⟩
    | @map es fs hes =>
      refine .inr ⟨rfl, ?_⟩
      show ∀ u ∈ es.map Prod.snd, u.Each P
      induction hes with
      | nil => exact fun _ hu => absurd hu List.not_mem_nil
      | cons hv _ ih => exact List.forall_mem_cons.2 ⟨hv.each fun _ _ h => h, ih⟩

end

end Value

section

variable {P : Value → Prop} {v w : Value}

theorem UnaryOp.apply_over {op : UnaryOp} (hv : v.Each P) (h : op.apply v = .ok w) : w.Over P := by
  have hboth := op.apply_paired hv.paired
  rw [h] at hboth
  cases hboth with
  | ok hw => exact hw.over

/-- Whatever a demand gives is made over operands with the property. -/
def Demand.Over (P : Value → Prop) : Demand → Prop
  | done r => ∀ w, r = .ok w → w.Over P
  | right finish => ∀ u w, u.Each P → finish u = .ok w → w.Over P

theorem BinaryOp.afterLeft_over (op : BinaryOp) (hv : v.Each P) : (op.afterLeft v).Over P := by
  have hboth := op.afterLeft_paired hv.paired
  generalize op.afterLeft v = d at hboth
  cases hboth with
  | done hr =>
    intro w hw
    subst hw
    cases hr with
    | ok hw => exact hw.over
  | right hf =>
    intro u w hu hw
    have hr := hf u u hu.paired
    rw [hw] at hr
    cases hr with
    | ok hw => exact hw.over

theorem Value.subscript_over {origin : Value → Option Location} {u : Value} (hv : v.Each P) (hu : u.Each P)
    (h : v.subscript origin u = .ok w) : w.Over P := by
  have hboth : Outcome.Related (fun _ _ => True) (Value.Made fun u _ => P u) (v.subscript origin u) (v.subscript origin u) :=
    Value.subscript_paired (fun _ => trivial) (fun _ _ => trivial) hv.paired hu.paired
  rw [h] at hboth
  cases hboth with
  | ok hw => exact hw.over

/-- Only a range contributes new values to an array. -/
theorem Value.splice_cases {vs : List Value} (h : v.splice = .ok vs) :
    v.kind ≠ .range ∧ vs = [v] ∨ v.kind = .range ∧ ∀ u ∈ vs, ∃ i, u = integer i := by
  obtain ⟨m, c⟩ := v
  cases c with
  | range r =>
    cases r with
    | between first last =>
      cases h
      refine .inr ⟨rfl, fun u hu => ?_⟩
      obtain ⟨i, -, rfl⟩ := List.mem_map.1 hu
      exact ⟨i, rfl⟩
    | _ => cases h
  | _ =>
    cases h
    exact .inl ⟨Kind.noConfusion, rfl⟩

end

/-! ## What becomes an object -/

namespace Value

/-- A property that may depend on the next free mark, and that a new value keeps when it is given this mark. -/
structure Lasting (P : Nat → Value → Prop) : Prop where
  mono {m n : Nat} {u : Value} : m ≤ n → P m u → P n u
  issue {n : Nat} {c d : Content Value} : (new c).kind = (new d).kind → P n (new c) → P (n + 1) ⟨some n, d⟩

section

variable {P : Nat → Value → Prop} (hP : Lasting P)

include hP

mutual

theorem stamp_each : ∀ {v : Value} {n : Nat}, v.Each (P n) → n ≤ (v.stamp n).2 ∧ (v.stamp n).1.Each (P (v.stamp n).2)
  | ⟨some _, _⟩, n, h => ⟨Nat.le_refl n, h⟩
  | ⟨none, .array vs⟩, n, h => by
    obtain ⟨hle, hvs⟩ := stampItems_each h.2
    refine ⟨Nat.le_succ_of_le hle, ?_⟩
    exact each_array.2 ⟨hP.issue (c := .array vs) rfl (hP.mono hle h.1), fun u hu => (hvs u hu).mono fun _ => hP.mono (Nat.le_succ _)⟩
  | ⟨none, .map es⟩, n, h => by
    obtain ⟨hle, hes⟩ := stampEntries_each h.2
    refine ⟨Nat.le_succ_of_le hle, ?_⟩
    exact each_map.2 ⟨hP.issue (c := .map es) rfl (hP.mono hle h.1), fun f hf => (hes f hf).mono fun _ => hP.mono (Nat.le_succ _)⟩
  | ⟨none, .boolean _⟩, n, h | ⟨none, .string _⟩, n, h | ⟨none, .number _⟩, n, h | ⟨none, .range _⟩, n, h
  | ⟨none, .null⟩, n, h | ⟨none, .undefined⟩, n, h => ⟨Nat.le_succ n, hP.issue rfl h⟩

theorem stampItems_each : ∀ {vs : List Value} {n : Nat}, EachItem (P n) vs →
    n ≤ (stampItems vs n).2 ∧ ∀ u ∈ (stampItems vs n).1, u.Each (P (stampItems vs n).2)
  | [], n, _ => ⟨Nat.le_refl n, fun _ hu => absurd hu List.not_mem_nil⟩
  | v :: vs, n, h => by
    obtain ⟨hle, hv⟩ := stamp_each h.1
    have hrest : EachItem (P (v.stamp n).2) vs := eachItem_iff.2 fun u hu => (eachItem_iff.1 h.2 u hu).mono fun _ => hP.mono hle
    obtain ⟨hle', hvs⟩ := stampItems_each hrest
    exact ⟨Nat.le_trans hle hle', List.forall_mem_cons.2 ⟨hv.mono fun _ => hP.mono hle', hvs⟩⟩

theorem stampEntries_each : ∀ {es : List (String × Value)} {n : Nat}, EachEntry (P n) es →
    n ≤ (stampEntries es n).2 ∧ ∀ f ∈ (stampEntries es n).1, f.2.Each (P (stampEntries es n).2)
  | [], n, _ => ⟨Nat.le_refl n, fun _ hf => absurd hf List.not_mem_nil⟩
  | (_, v) :: es, n, h => by
    obtain ⟨hle, hv⟩ := stamp_each h.1
    have hrest : EachEntry (P (v.stamp n).2) es := eachEntry_iff.2 fun f hf => (eachEntry_iff.1 h.2 f hf).mono fun _ => hP.mono hle
    obtain ⟨hle', hes⟩ := stampEntries_each hrest
    exact ⟨Nat.le_trans hle hle', List.forall_mem_cons.2 ⟨hv.mono fun _ => hP.mono hle', hes⟩⟩

end

/-- A new value gets its mark after its parts have theirs. -/
theorem stamp_new {v : Value} {n : Nat} (hv : v.mark = none) (hparts : ∀ u ∈ v.parts, u.Each (P n)) :
    ∃ m, n ≤ m ∧ (v.stamp n).2 = m + 1 ∧ (v.stamp n).1.mark = some m ∧ ∀ u ∈ (v.stamp n).1.parts, u.Each (P m) := by
  obtain ⟨_, c⟩ := v
  cases hv
  cases c with
  | array vs =>
    obtain ⟨hle, hvs⟩ := stampItems_each hP (eachItem_iff.2 hparts)
    exact ⟨_, hle, rfl, rfl, hvs⟩
  | map es =>
    have hentries : EachEntry (P n) es := eachEntry_iff.2 (List.forall_mem_map.1 hparts)
    obtain ⟨hle, hes⟩ := stampEntries_each hP hentries
    exact ⟨_, hle, rfl, rfl, List.forall_mem_map.2 hes⟩
  | _ => exact ⟨n, Nat.le_refl n, rfl, rfl, fun _ hu => absurd hu List.not_mem_nil⟩

end

theorem lasting_mark (a : Nat) : Lasting fun n u => a ≤ n ∧ ∀ m, u.mark = some m → a ≤ m ∧ m < n where
  mono hle hu := ⟨hu.1.trans hle, fun m hm => ⟨(hu.2 m hm).1, (hu.2 m hm).2.trans_le hle⟩⟩
  issue {n _ _} _ hu := by
    refine ⟨Nat.le_succ_of_le hu.1, fun m hm => ?_⟩
    cases hm
    exact ⟨hu.1, Nat.lt_succ_self n⟩

/-- An object with a mark from a stretch, or no object and without parts. -/
structure InStretch (first next : Nat) (u : Value) : Prop where
  mark {m : Nat} : u.mark = some m → first ≤ m ∧ m < next
  partless : u.mark = none → u.Partless

/-- All objects in a value have marks from a stretch. -/
def Within (first next : Nat) (v : Value) : Prop := v.Each (InStretch first next)

variable {v : Value} {a b n : Nat}

theorem InStretch.mono {a' b' : Nat} (h : v.InStretch a b) (ha : a' ≤ a) (hb : b ≤ b') : v.InStretch a' b' :=
  ⟨fun hm => ⟨ha.trans (h.mark hm).1, (h.mark hm).2.trans_le hb⟩, h.partless⟩

theorem Within.mono {a' b' : Nat} (h : v.Within a b) (ha : a' ≤ a) (hb : b ≤ b') : v.Within a' b' :=
  Each.mono (fun _ hu => hu.mono ha hb) h

theorem Plain.within (h : v.Plain) : v.Within a b := by
  have hself : v.InStretch a b := ⟨fun hm => (by rw [h.new] at hm; cases hm), fun _ => h.partless⟩
  refine each_iff_parts.2 ⟨hself, ?_⟩
  rw [h.partless.parts_eq]
  exact fun _ hu => absurd hu List.not_mem_nil

theorem lasting_inStretch (a : Nat) : Lasting fun n u => a ≤ n ∧ u.InStretch a n where
  mono hle hu := ⟨hu.1.trans hle, hu.2.mono (Nat.le_refl a) hle⟩
  issue hkind hu := by
    obtain ⟨hle, hmark⟩ := (lasting_mark a).issue hkind ⟨hu.1, fun _ hm => hu.2.mark hm⟩
    exact ⟨hle, fun hm => hmark _ hm, fun hnone => by cases hnone⟩

/-- What a step makes of values within a stretch is within a longer one. -/
theorem Over.stamp (h : v.Over (InStretch a n)) (ha : a ≤ n) :
    n ≤ (v.stamp n).2 ∧ (v.stamp n).1.Within a (v.stamp n).2 := by
  have hlasting := lasting_inStretch a
  rcases h with h | ⟨hnew, hparts⟩
  · obtain ⟨hle, hv⟩ := stamp_each hlasting (Each.mono (fun _ hu => ⟨ha, hu⟩) h)
    exact ⟨hle, Each.mono (fun _ hu => hu.2) hv⟩
  · obtain ⟨m, hle, hnext, hmark, hparts⟩ :=
      stamp_new hlasting hnew fun u hu => Each.mono (fun _ hu => ⟨ha, hu⟩) (hparts u hu)
    have hlt : m < (v.stamp n).2 := hnext ▸ Nat.lt_succ_self m
    refine ⟨hle.trans hlt.le, each_iff_parts.2 ⟨⟨fun hk => ?_, fun hnone => ?_⟩, fun u hu => ?_⟩⟩
    · rw [hmark] at hk
      cases hk
      exact ⟨ha.trans hle, hlt⟩
    · rw [hmark] at hnone
      cases hnone
    · exact Each.mono (fun _ hu => hu.2.mono (Nat.le_refl a) hlt.le) (hparts u hu)

end Value

/-! ## Nodes whose operands are folded -/

namespace Expr

/-- If the expression is a literal, all marks of its value are from a stretch. -/
def Within (a b : Nat) (e : Expr) : Prop := ∀ w, e.value? = some w → w.Within a b

/-- If the node is a literal, its value is new and has no parts. -/
def PlainLiteral (n : Expr) : Prop := ∀ v, n.value? = some v → v.Plain

variable {e : Expr} {a b n : Nat} {l : Option Location}

theorem Within.mono {a' b' : Nat} (h : e.Within a b) (ha : a' ≤ a) (hb : b ≤ b') : e.Within a' b' :=
  fun w hw => (h w hw).mono ha hb

theorem within_of_value? (h : e.value? = none) : e.Within a b := fun w hw => by
  rw [h] at hw
  cases hw

/-- What a supply makes of the marks from `n` on, if those from `a` on may be in use. -/
def Numbers (a n : Nat) (close : Supply Expr) : Prop := n ≤ (close n).2 ∧ (close n).1.Within a (close n).2

theorem numbers_pure (h : e.Within a n) : Numbers a n (pure e) := ⟨Nat.le_refl n, h⟩

theorem numbers_ofStep {node : Expr} {r : Except Error Value} (hnode : node.value? = none) (ha : a ≤ n)
    (h : ∀ v, r = .ok v → v.Over (Value.InStretch a n)) : Numbers a n (ofStep node r) := by
  cases r with
  | ok v =>
    obtain ⟨hle, hv⟩ := (h v rfl).stamp ha
    refine ⟨hle, fun w hw => ?_⟩
    cases hw
    exact hv
  | error e => exact numbers_pure (within_of_value? hnode)

theorem numbers_closeArray {items : List Expr} (ha : a ≤ n) (h : ∀ e ∈ items, e.Within a n) :
    Numbers a n (closeArray l items) := by
  unfold closeArray
  cases hvs : values? items with
  | none => exact numbers_pure (within_of_value? rfl)
  | some vs =>
    refine numbers_ofStep rfl ha fun v hv => ?_
    obtain ⟨us, hus, hv⟩ := Except.bind_ok.1 hv
    cases hv
    refine .inr ⟨rfl, fun u hu => ?_⟩
    obtain ⟨us', hus', hu⟩ := List.mem_flatten.1 hu
    obtain ⟨w, hw, hsplice⟩ := Except.exists_of_mem_mapM hus us' hus'
    obtain ⟨e, he, hvalue⟩ := Option.exists_of_mem_mapM hvs w hw
    rcases Value.splice_cases hsplice with ⟨-, rfl⟩ | ⟨-, hints⟩
    · obtain rfl := List.mem_singleton.1 hu
      exact h e he u hvalue
    · obtain ⟨i, rfl⟩ := hints u hu
      exact (Value.plain_number _).within

theorem numbers_closeMap {entries : List (String × Expr)} (ha : a ≤ n) (h : ∀ f ∈ entries, f.2.Within a n) :
    Numbers a n (closeMap l entries) := by
  unfold closeMap
  split
  · next vs hvs =>
    refine numbers_ofStep rfl ha fun v hv => ?_
    cases hv
    refine .inr ⟨rfl, List.forall_mem_map.2 fun f hf => ?_⟩
    obtain ⟨⟨k, e⟩, he, hvalue⟩ := Option.exists_of_mem_mapM hvs f hf
    obtain ⟨w, hw, rfl⟩ := Option.map_eq_some_iff.1 hvalue
    exact h _ he w hw
  · exact numbers_pure (within_of_value? rfl)

theorem numbers_closeUnary {op : UnaryOp} (ha : a ≤ n) (h : e.Within a n) : Numbers a n (closeUnary l op e) := by
  unfold closeUnary
  cases hv : e.value? with
  | none => exact numbers_pure (within_of_value? rfl)
  | some v => exact numbers_ofStep rfl ha fun w hw => op.apply_over (h v hv) hw

variable {f : Expr}

theorem numbers_closeBinary {op : BinaryOp} (ha : a ≤ n) (he : e.Within a n) (hf : f.Within a n) :
    Numbers a n (closeBinary l op e f) := by
  unfold closeBinary
  cases hv : e.value? with
  | none => exact numbers_pure (within_of_value? rfl)
  | some v =>
    have hover := op.afterLeft_over (he v hv)
    rw [Option.map_some]
    generalize op.afterLeft v = d at hover ⊢
    cases d with
    | done r => exact numbers_ofStep rfl ha hover
    | right finish =>
      cases hw : f.value? with
      | none => exact numbers_pure (within_of_value? rfl)
      | some w => exact numbers_ofStep rfl ha fun u hu => hover w u (hf w hw) hu

theorem numbers_closeSubscript (ha : a ≤ n) (he : e.Within a n) (hf : f.Within a n) :
    Numbers a n (closeSubscript l e f) := by
  unfold closeSubscript
  cases hv : e.value? with
  | none => exact numbers_pure (within_of_value? rfl)
  | some v =>
    cases hw : f.value? with
    | none => exact numbers_pure (within_of_value? rfl)
    | some w => exact numbers_ofStep rfl ha fun u hu => Value.subscript_over (he v hv) (hf w hw) hu

theorem numbers_closeSwitch {cases : List Expr} (ha : a ≤ n) (h : ∀ e ∈ cases, e.Within a n) :
    Numbers a n (closeSwitch l cases) := by
  have hsub : cases.dropWhile isUndefinedLiteral ⊆ cases := List.dropWhile_subset _
  unfold closeSwitch
  cases hrest : cases.dropWhile isUndefinedLiteral with
  | nil =>
    obtain ⟨hle, hstamped⟩ := Value.plain_undefined.over.stamp ha
    refine ⟨hle, fun w hw => ?_⟩
    cases hw
    exact hstamped
  | cons e es =>
    rw [hrest] at hsub
    cases e with
    | literal place v =>
      refine numbers_pure fun w hw => ?_
      cases hw
      exact h _ (hsub List.mem_cons_self) v rfl
    | _ => exact numbers_pure (within_of_value? rfl)

theorem numbers_literals {place : Option Location} {vs : List Value} (ha : a ≤ n) (h : ∀ v ∈ vs, v.Plain) :
    n ≤ (literals place vs n).2 ∧ ∀ f ∈ (literals place vs n).1, f.Within a (literals place vs n).2 := by
  induction vs generalizing n with
  | nil => exact ⟨Nat.le_refl n, fun _ hf => absurd hf List.not_mem_nil⟩
  | cons v vs ih =>
    obtain ⟨hv, hvs⟩ := List.forall_mem_cons.1 h
    obtain ⟨hle, hstamped⟩ := hv.over.stamp ha
    obtain ⟨hle', hrest⟩ := ih (ha.trans hle) hvs
    rw [literals_cons]
    refine ⟨hle.trans hle', List.forall_mem_cons.2 ⟨fun w hw => ?_, hrest⟩⟩
    cases hw
    exact hstamped.mono (Nat.le_refl a) hle'

theorem numbers_spliceItem (ha : a ≤ n) (h : e.Within a n) :
    n ≤ (spliceItem e n).2 ∧ ∀ f ∈ (spliceItem e n).1, f.Within a (spliceItem e n).2 := by
  rcases spliceItem_cases e with hsingle | ⟨_, first, last, -, hsplice⟩
  · rw [hsingle n]
    exact ⟨Nat.le_refl n, List.forall_mem_singleton.2 h⟩
  · rw [hsplice n]
    refine numbers_literals ha fun v hv => ?_
    obtain ⟨i, -, rfl⟩ := List.mem_map.1 hv
    exact Value.plain_number _

end Expr

/-! ## Whole expressions -/

open ExprLang.Expr in
mutual

/-- All marks of a literal that folding makes are taken while it is folded. -/
theorem Expr.fold_within : ∀ {e : Expr}, e.Each PlainLiteral → ∀ n, Numbers n n e.fold
  | .literal _ v, he, n => by
    refine numbers_pure fun w hw => ?_
    cases hw
    exact (each_literal.1 he v rfl).within
  | .var _ _, _, n => numbers_pure (within_of_value? rfl)
  | .array _ items, he, n => by
    obtain ⟨hle, hitems⟩ := foldItems_within (each_array.1 he).2 n
    rw [Expr.fold]
    obtain ⟨hle', hclosed⟩ := numbers_closeArray hle hitems
    exact ⟨hle.trans hle', hclosed⟩
  | .map _ entries, he, n => by
    obtain ⟨hle, hentries⟩ := foldEntries_within (each_map.1 he).2 n
    rw [Expr.fold]
    obtain ⟨hle', hclosed⟩ := numbers_closeMap hle hentries
    exact ⟨hle.trans hle', hclosed⟩
  | .unary _ op a, he, n => by
    obtain ⟨hle, ha⟩ := Expr.fold_within (each_unary.1 he).2 n
    rw [Expr.fold]
    obtain ⟨hle', hclosed⟩ := numbers_closeUnary hle ha
    exact ⟨hle.trans hle', hclosed⟩
  | .binary _ op a b, he, n => by
    obtain ⟨-, ha, hb⟩ := each_binary.1 he
    obtain ⟨hle, ha⟩ := Expr.fold_within ha n
    obtain ⟨hle', hb⟩ := Expr.fold_within hb (a.fold n).2
    rw [Expr.fold]
    obtain ⟨hle'', hclosed⟩ := numbers_closeBinary (hle.trans hle') (ha.mono (Nat.le_refl n) hle') (hb.mono hle (Nat.le_refl _))
    exact ⟨(hle.trans hle').trans hle'', hclosed⟩
  | .subscript _ a b, he, n => by
    obtain ⟨-, ha, hb⟩ := each_subscript.1 he
    obtain ⟨hle, ha⟩ := Expr.fold_within ha n
    obtain ⟨hle', hb⟩ := Expr.fold_within hb (a.fold n).2
    rw [Expr.fold]
    obtain ⟨hle'', hclosed⟩ := numbers_closeSubscript (hle.trans hle') (ha.mono (Nat.le_refl n) hle') (hb.mono hle (Nat.le_refl _))
    exact ⟨(hle.trans hle').trans hle'', hclosed⟩
  | .switch _ cases, he, n => by
    obtain ⟨hle, hcases⟩ := foldCases_within (each_switch.1 he).2 n
    rw [Expr.fold]
    obtain ⟨hle', hclosed⟩ := numbers_closeSwitch hle hcases
    exact ⟨hle.trans hle', hclosed⟩

theorem foldItems_within : ∀ {es : List Expr}, (∀ e ∈ es, e.Each PlainLiteral) →
    ∀ n, n ≤ (foldItems es n).2 ∧ ∀ f ∈ (foldItems es n).1, f.Within n (foldItems es n).2
  | [], _, n => ⟨Nat.le_refl n, fun _ hf => absurd hf List.not_mem_nil⟩
  | e :: es, hes, n => by
    obtain ⟨he, hes⟩ := List.forall_mem_cons.1 hes
    obtain ⟨hle, he⟩ := Expr.fold_within he n
    obtain ⟨hle', hitems⟩ := numbers_spliceItem hle he
    obtain ⟨hle'', hrest⟩ := foldItems_within hes (spliceItem (e.fold n).1 (e.fold n).2).2
    rw [foldItems]
    refine ⟨(hle.trans hle').trans hle'', List.forall_mem_append.2 ⟨fun f hf => ?_, fun f hf => ?_⟩⟩
    · exact (hitems f hf).mono (Nat.le_refl n) hle''
    · exact (hrest f hf).mono (hle.trans hle') (Nat.le_refl _)

theorem foldEntries_within : ∀ {es : List (String × Expr)},
    (∀ f ∈ es, f.2.Each PlainLiteral) →
    ∀ n, n ≤ (foldEntries es n).2 ∧ ∀ f ∈ (foldEntries es n).1, f.2.Within n (foldEntries es n).2
  | [], _, n => ⟨Nat.le_refl n, fun _ hf => absurd hf List.not_mem_nil⟩
  | (_, e) :: es, hes, n => by
    obtain ⟨he, hes⟩ := List.forall_mem_cons.1 hes
    obtain ⟨hle, he⟩ := Expr.fold_within he n
    obtain ⟨hle', hrest⟩ := foldEntries_within hes (e.fold n).2
    rw [foldEntries]
    refine ⟨hle.trans hle', List.forall_mem_cons.2 ⟨he.mono (Nat.le_refl n) hle', fun f hf => ?_⟩⟩
    exact (hrest f hf).mono hle (Nat.le_refl _)

theorem foldCases_within : ∀ {es : List Expr}, (∀ e ∈ es, e.Each PlainLiteral) →
    ∀ n, n ≤ (foldCases es n).2 ∧ ∀ f ∈ (foldCases es n).1, f.Within n (foldCases es n).2
  | [], _, n => ⟨Nat.le_refl n, fun _ hf => absurd hf List.not_mem_nil⟩
  | e :: es, hes, n => by
    obtain ⟨he, hes⟩ := List.forall_mem_cons.1 hes
    obtain ⟨hle, he⟩ := Expr.fold_within he n
    obtain ⟨hle', hrest⟩ := foldCases_within hes (e.fold n).2
    rw [foldCases]
    refine ⟨hle.trans hle', List.forall_mem_cons.2 ⟨he.mono (Nat.le_refl n) hle', fun f hf => ?_⟩⟩
    exact (hrest f hf).mono hle (Nat.le_refl _)

end

end ExprLang
