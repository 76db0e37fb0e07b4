import ExprLang.Proofs.Heredity
import Mathlib.Data.List.Forall2

/-!
# Values of one shape

Two values are paired if they have the same shape, the same scalars in the same places and a relation between the two parts
in each place (`Value.Paired`). The relation may look at marks, and so compare the objects of two evaluations. Steps do
the same to paired: both fail, with the same error, or both give values that are paired, or new values over paired
(`UnaryOp.apply_paired`, `BinaryOp.afterLeft_paired`, `Value.splice_paired`). A subscript names the origins of its operands
in its errors; how the two origins are related is left open (`Value.subscript_paired`).
-/

namespace ExprLang

/-! ## Twins -/

/-- The same keys, and values that are related. -/
inductive Entries.Related (R : Value → Value → Prop) : Entries Value → Entries Value → Prop
  | nil : Related R [] []
  | cons {k : String} {v w : Value} {es fs : Entries Value} :
      R v w → Related R es fs → Related R ((k, v) :: es) ((k, w) :: fs)

/-- Contents of one form, over parts that are related. -/
inductive Content.Alike (R : Value → Value → Prop) : Content Value → Content Value → Prop
  | scalar {c : Content Value} : (Value.new c).Partless → Alike R c c
  | array {vs ws : List Value} : List.Forall₂ R vs ws → Alike R (.array vs) (.array ws)
  | map {es fs : Entries Value} : Entries.Related R es fs → Alike R (.map es) (.map fs)

/-- The relation holds between the values and between the parts in each place. -/
inductive Value.Paired (M : Value → Value → Prop) : Value → Value → Prop
  | mk {m n : Option Nat} {c d : Content Value} : M ⟨m, c⟩ ⟨n, d⟩ → c.Alike (Paired M) d → Paired M ⟨m, c⟩ ⟨n, d⟩

section

variable {R S M N : Value → Value → Prop} {v w : Value}

theorem Entries.Related.mono {es fs : Entries Value} (h : Related R es fs) (hR : ∀ v w, R v w → S v w) :
    Related S es fs := by
  induction h with
  | nil => exact .nil
  | cons hvw _ ih => exact .cons (hR _ _ hvw) ih

theorem Content.Alike.mono {c d : Content Value} (h : c.Alike R d) (hR : ∀ v w, R v w → S v w) : c.Alike S d := by
  cases h with
  | scalar h => exact .scalar h
  | array h => exact .array (h.imp hR)
  | map h => exact .map (h.mono hR)

namespace Value

mutual

/-- What follows for values if it follows for all their parts. -/
theorem Paired.induct {P : Value → Value → Prop}
    (hP : ∀ {m n c d}, M ⟨m, c⟩ ⟨n, d⟩ → c.Alike (fun v w => v.Paired M w ∧ P v w) d → P ⟨m, c⟩ ⟨n, d⟩) :
    ∀ {v w : Value}, v.Paired M w → P v w
  | ⟨_, .array _⟩, _, .mk hM (.array h) => hP hM (.array (Paired.induct_items hP h))
  | ⟨_, .map _⟩, _, .mk hM (.map h) => hP hM (.map (Paired.induct_entries hP h))
  | _, _, .mk hM (.scalar h) => hP hM (.scalar h)

theorem Paired.induct_items {P : Value → Value → Prop}
    (hP : ∀ {m n c d}, M ⟨m, c⟩ ⟨n, d⟩ → c.Alike (fun v w => v.Paired M w ∧ P v w) d → P ⟨m, c⟩ ⟨n, d⟩) :
    ∀ {vs ws : List Value}, List.Forall₂ (Paired M) vs ws → List.Forall₂ (fun v w => v.Paired M w ∧ P v w) vs ws
  | [], _, .nil => .nil
  | _ :: _, _, .cons h hs => .cons ⟨h, Paired.induct hP h⟩ (Paired.induct_items hP hs)

theorem Paired.induct_entries {P : Value → Value → Prop}
    (hP : ∀ {m n c d}, M ⟨m, c⟩ ⟨n, d⟩ → c.Alike (fun v w => v.Paired M w ∧ P v w) d → P ⟨m, c⟩ ⟨n, d⟩) :
    ∀ {es fs : List (String × Value)}, Entries.Related (Paired M) es fs →
      Entries.Related (fun v w => v.Paired M w ∧ P v w) es fs
  | [], _, .nil => .nil
  | (_, _) :: _, _, .cons h hs => .cons ⟨h, Paired.induct hP h⟩ (Paired.induct_entries hP hs)

end

theorem Paired.mono (h : v.Paired M w) (hM : ∀ v w, M v w → N v w) : v.Paired N w :=
  h.induct fun hvw halike => .mk (hM _ _ hvw) (halike.mono fun _ _ h => h.2)

/-- Twins are equal up to marks. -/
theorem Paired.bare_eq (h : v.Paired M w) : v.bare = w.bare := by
  refine Paired.induct (P := fun v w => v.bare = w.bare) (fun {m n c d} _ halike => ?_) h
  cases halike with
  | scalar hc =>
    cases c with
    | array => exact absurd rfl hc.1
    | map => exact absurd rfl hc.2
    | _ => rfl
  | @array vs ws hvs =>
    have hbare : bareItems vs = bareItems ws := by
      clear * - hvs
      induction hvs with
      | nil => rfl
      | cons hv _ ih => rw [bareItems, bareItems, hv.2, ih]
    rw [bare, bare, hbare]
  | @map es fs hes =>
    have hbare : bareEntries es = bareEntries fs := by
      clear * - hes
      induction hes with
      | nil => rfl
      | cons hv _ ih => rw [bareEntries, bareEntries, hv.2, ih]
    rw [bare, bare, hbare]

/-- What the relation says of the left values holds of all parts on the left. -/
theorem Paired.each {P : Value → Prop} (h : v.Paired M w) (hM : ∀ v w, M v w → P v) : v.Each P := by
  refine Paired.induct (P := fun v _ => v.Each P) (fun {m n c d} hvw halike => ?_) h
  have hself := hM _ _ hvw
  cases halike with
  | scalar hc =>
    cases c with
    | array => exact absurd rfl hc.1
    | map => exact absurd rfl hc.2
    | _ => exact hself
  | array hvs =>
    refine ⟨hself, ?_⟩
    clear hvw hself
    induction hvs with
    | nil => trivial
    | cons hv _ ih => exact ⟨hv.2, ih⟩
  | map hes =>
    refine ⟨hself, ?_⟩
    clear hvw hself
    induction hes with
    | nil => trivial
    | cons hv _ ih => exact ⟨hv.2, ih⟩

theorem content_of_partless {m n : Option Nat} {c d : Content Value} (hc : (new c).Partless)
    (h : bare ⟨m, c⟩ = bare ⟨n, d⟩) : c = d := by
  cases c with
  | array => exact absurd rfl hc.1
  | map => exact absurd rfl hc.2
  | _ => cases d <;> simp_all [bare]

mutual

/-- Values that are equal up to marks are paired for whatever relation their parts have one by one. -/
theorem Paired.of_bare {P Q : Value → Prop} (hM : ∀ v w, v.bare = w.bare → P v → Q w → M v w) :
    ∀ {v w : Value}, v.bare = w.bare → v.Each P → w.Each Q → v.Paired M w
  | ⟨m, .array vs⟩, ⟨n, d⟩, h, hv, hw => by
    cases d with
    | array ws =>
      have hitems : bareItems vs = bareItems ws := by simpa [bare] using h
      exact .mk (hM _ _ h hv.1 hw.1) (.array (Paired.of_bare_items hM hitems hv.2 hw.2))
    | _ => simp [bare] at h
  | ⟨m, .map es⟩, ⟨n, d⟩, h, hv, hw => by
    cases d with
    | map fs =>
      have hentries : bareEntries es = bareEntries fs := by simpa [bare] using h
      exact .mk (hM _ _ h hv.1 hw.1) (.map (Paired.of_bare_entries hM hentries hv.2 hw.2))
    | _ => simp [bare] at h
  | ⟨m, .boolean _⟩, ⟨n, d⟩, h, hv, hw | ⟨m, .string _⟩, ⟨n, d⟩, h, hv, hw | ⟨m, .number _⟩, ⟨n, d⟩, h, hv, hw
  | ⟨m, .range _⟩, ⟨n, d⟩, h, hv, hw | ⟨m, .null⟩, ⟨n, d⟩, h, hv, hw | ⟨m, .undefined⟩, ⟨n, d⟩, h, hv, hw => by
    obtain rfl := content_of_partless ⟨Kind.noConfusion, Kind.noConfusion⟩ h
    exact .mk (hM _ _ h hv hw) (.scalar ⟨Kind.noConfusion, Kind.noConfusion⟩)

theorem Paired.of_bare_items {P Q : Value → Prop} (hM : ∀ v w, v.bare = w.bare → P v → Q w → M v w) :
    ∀ {vs ws : List Value}, bareItems vs = bareItems ws → EachItem P vs → EachItem Q ws → List.Forall₂ (Paired M) vs ws
  | [], [], _, _, _ => .nil
  | [], _ :: _, h, _, _ | _ :: _, [], h, _, _ => by simp at h
  | v :: vs, w :: ws, h, hvs, hws => by
    rw [bareItems, bareItems, List.cons.injEq] at h
    exact .cons (Paired.of_bare hM h.1 hvs.1 hws.1) (Paired.of_bare_items hM h.2 hvs.2 hws.2)

theorem Paired.of_bare_entries {P Q : Value → Prop} (hM : ∀ v w, v.bare = w.bare → P v → Q w → M v w) :
    ∀ {es fs : List (String × Value)}, bareEntries es = bareEntries fs → EachEntry P es → EachEntry Q fs →
      Entries.Related (Paired M) es fs
  | [], [], _, _, _ => .nil
  | [], _ :: _, h, _, _ | _ :: _, [], h, _, _ => by simp [Entries.mapValues] at h
  | (k, v) :: es, (l, w) :: fs, h, hes, hfs => by
    rw [bareEntries, bareEntries, List.cons.injEq, Prod.mk.injEq] at h
    obtain ⟨⟨rfl, hvw⟩, hrest⟩ := h
    exact .cons (Paired.of_bare hM hvw hes.1 hfs.1) (Paired.of_bare_entries hM hrest hes.2 hfs.2)

end

end Value

end

/-! ## Outcomes of steps -/

/-- Both outcomes are values that are related, or both are errors that are. -/
inductive Outcome.Related {α β : Type} (E : Error → Error → Prop) (R : α → β → Prop) :
    Except Error α → Except Error β → Prop
  | ok {a : α} {b : β} : R a b → Related E R (.ok a) (.ok b)
  | error {r t : Error} : E r t → Related E R (.error r) (.error t)

namespace Outcome.Related

variable {α β γ δ : Type} {E F : Error → Error → Prop} {R S : α → β → Prop} {Q : γ → δ → Prop} {r : Except Error α}
  {t : Except Error β}

theorem mono (h : Related E R r t) (hE : ∀ e f, E e f → F e f) (hR : ∀ a b, R a b → S a b) : Related F S r t := by
  cases h with
  | ok h => exact .ok (hR _ _ h)
  | error h => exact .error (hE _ _ h)

theorem bind {k : α → Except Error γ} {l : β → Except Error δ} (h : Related E R r t)
    (hk : ∀ a b, R a b → Related E Q (k a) (l b)) : Related E Q (r >>= k) (t >>= l) := by
  cases h with
  | ok h => exact hk _ _ h
  | error h => exact .error h

theorem same (hE : ∀ e, E e e) (r : Except Error α) : Related E Eq r r := by
  cases r with
  | ok a => exact .ok rfl
  | error e => exact .error (hE e)

end Outcome.Related

open Outcome (Related)

/-- Twins, or new values over parts that are paired. -/
inductive Value.Made (M : Value → Value → Prop) : Value → Value → Prop
  | same {v w : Value} : v.Paired M w → Made M v w
  | new {c d : Content Value} : c.Alike (Paired M) d → Made M (new c) (new d)

namespace Value

variable {M : Value → Value → Prop} {v w : Value}

theorem Made.of_plain (h : v.Plain) : v.Made M v := by
  obtain ⟨m, c⟩ := v
  obtain ⟨rfl, hparts⟩ := h
  exact .new (.scalar hparts)

theorem Plain.bare_eq (h : v.Plain) : v.bare = v := by
  obtain ⟨m, c⟩ := v
  obtain ⟨rfl, hparts⟩ := h
  cases c with
  | array => exact absurd rfl hparts.1
  | map => exact absurd rfl hparts.2
  | _ => rfl

/-- Steps that do the same up to marks, and make plain values, do the same. -/
theorem related_of_plain {r t : Except Error Value} (h : r.map bare = t.map bare) (hr : ∀ v, r = .ok v → v.Plain)
    (ht : ∀ v, t = .ok v → v.Plain) : Related Eq (Made M) r t := by
  cases r with
  | error e =>
    cases t with
    | error f =>
      cases h
      exact .error rfl
    | ok b => cases h
  | ok a =>
    cases t with
    | error f => cases h
    | ok b =>
      have hab : a.bare = b.bare := Except.ok.inj h
      rw [(hr a rfl).bare_eq, (ht b rfl).bare_eq] at hab
      subst hab
      exact .ok (.of_plain (hr a rfl))

end Value

/-! ## Operators -/

section

variable {M : Value → Value → Prop} {v w : Value}

theorem UnaryOp.apply_paired (op : UnaryOp) (h : v.Paired M w) : Related Eq (Value.Made M) (op.apply v) (op.apply w) := by
  have hsame : (op.apply v).map Value.bare = (op.apply w).map Value.bare := by
    rw [← op.apply_bare, ← op.apply_bare, h.bare_eq]
  by_cases hop : op = .group
  · subst hop
    rw [UnaryOp.apply, UnaryOp.apply, ← v.isUndefined_bare, ← w.isUndefined_bare, h.bare_eq]
    split
    · exact .ok (.of_plain Value.plain_undefined)
    · exact .ok (.same h)
  · refine Value.related_of_plain hsame (fun u hu => ?_) fun u hu => ?_
    · exact (apply_cases hu).resolve_left fun hgroup => hop hgroup.1
    · exact (apply_cases hu).resolve_left fun hgroup => hop hgroup.1

/-- Two demands that do the same to paired. -/
inductive Demand.Paired (M : Value → Value → Prop) : Demand → Demand → Prop
  | done {r t : Except Error Value} : Related Eq (Value.Made M) r t → Paired M (.done r) (.done t)
  | right {f g : Value → Except Error Value} :
      (∀ v w, v.Paired M w → Related Eq (Value.Made M) (f v) (g w)) → Paired M (.right f) (.right g)

/-- Demands that do the same up to marks, and make plain values, do the same. -/
theorem Demand.paired_of_plain {d e b : Demand} (hd : d.IsBare b) (he : e.IsBare b) (hdplain : d.Plain)
    (heplain : e.Plain) : d.Paired M e := by
  cases hd with
  | done r =>
    generalize hb : r.map Value.bare = b at he
    cases he with
    | done t => exact .done (Value.related_of_plain hb hdplain heplain)
  | right hf =>
    cases he with
    | right hg =>
      refine .right fun u u' hu => Value.related_of_plain ?_ (hdplain u) (heplain u')
      rw [← hf, ← hg, hu.bare_eq]

theorem BinaryOp.afterLeft_plain {op : BinaryOp} (hadd : op ≠ .add) (hguarded : op ≠ .guarded) (v : Value) :
    (op.afterLeft v).Plain := by
  cases op with
  | add => exact absurd rfl hadd
  | guarded => exact absurd rfl hguarded
  | subtract | multiply | divide | modulo => exact fun _ _ h => Value.arithmetic_plain h
  | and | or => exact v.logical_plain _
  | bitAnd | bitXor | bitOr | shiftLeft | shiftRight => exact fun _ _ h => Value.bitwise_plain h
  | range => exact fun _ _ h => Value.rangeTo_plain h
  | _ => exact fun _ _ h => Value.comparison_plain h

theorem Entries.Related.insert {R : Value → Value → Prop} {es fs : Entries Value} (h : Related R es fs) (k : String)
    (hvw : R v w) : Related R (Entries.insert es k v) (Entries.insert fs k w) := by
  induction h with
  | nil => exact .cons hvw .nil
  | cons hhead hes ih =>
    rw [Entries.insert, Entries.insert]
    split
    · exact .cons hvw hes
    · exact .cons hhead ih

theorem Entries.Related.union {R : Value → Value → Prop} {es fs es' fs' : Entries Value} (h : Related R es fs)
    (h' : Related R es' fs') : Related R (Entries.union es es') (Entries.union fs fs') := by
  unfold Entries.union
  induction h' generalizing es fs with
  | nil => exact h
  | cons hvw _ ih => exact ih (h.insert _ hvw)

theorem Entries.Related.find? {R : Value → Value → Prop} {es fs : Entries Value} (h : Related R es fs) (k : String) :
    Option.Rel R (Entries.find? es k) (Entries.find? fs k) := by
  induction h with
  | nil => exact .none
  | @cons l v w es fs hvw _ ih =>
    rw [Entries.find?_cons, Entries.find?_cons]
    split
    · exact .some hvw
    · exact ih

namespace Value

variable {u x : Value}

theorem Paired.kind_eq (h : v.Paired M w) : v.kind = w.kind := by rw [← v.kind_bare, h.bare_eq, w.kind_bare]

theorem concatenation?_paired (h : v.Paired M w) (h' : u.Paired M x) :
    Option.Rel (Made M) (v.concatenation? u) (w.concatenation? x) := by
  obtain @⟨_, _, c, _, -, halike⟩ := h
  obtain @⟨_, _, d, _, -, halike'⟩ := h'
  cases halike with
  | scalar hc =>
    cases c with
    | array => exact absurd rfl hc.1
    | map => exact absurd rfl hc.2
    | string s =>
      cases halike' with
      | scalar => cases d <;> first | exact .none | exact .some (.of_plain (plain_string _))
      | _ => exact .none
    | _ => exact .none
  | array hvs =>
    cases halike' with
    | scalar hd =>
      cases d with
      | array => exact absurd rfl hd.1
      | _ => exact .none
    | array hws => exact .some (.new (.array (List.rel_append hvs hws)))
    | map => exact .none
  | map hes =>
    cases halike' with
    | scalar hd =>
      cases d with
      | map => exact absurd rfl hd.2
      | _ => exact .none
    | array => exact .none
    | map hfs => exact .some (.new (.map (hes.union hfs)))

theorem add_paired (h : v.Paired M w) (h' : u.Paired M x) : Related Eq (Made M) (v.add u) (w.add x) := by
  unfold add
  rw [← isUndefined_bare v, ← isUndefined_bare u, ← numbers?_bare v u, h.bare_eq, h'.bare_eq, isUndefined_bare,
    isUndefined_bare, numbers?_bare]
  split
  · exact .ok (.of_plain plain_undefined)
  · have hinvalid : v.invalidOperands u = w.invalidOperands x := by
      rw [invalidOperands, invalidOperands, h.kind_eq, h'.kind_eq]
    cases w.numbers? x with
    | some p => exact .ok (.of_plain (plain_number _))
    | none =>
      rw [Option.map_none, Option.none_or, Option.none_or]
      have hboth := concatenation?_paired h h'
      generalize v.concatenation? u = o at hboth ⊢
      generalize w.concatenation? x = o' at hboth ⊢
      cases hboth with
      | some h => exact .ok h
      | none => exact .error hinvalid

end Value

theorem BinaryOp.afterLeft_paired (op : BinaryOp) (h : v.Paired M w) : (op.afterLeft v).Paired M (op.afterLeft w) := by
  by_cases hadd : op = .add
  · subst hadd
    exact .right fun u x hu => Value.add_paired h hu
  by_cases hguarded : op = .guarded
  · subst hguarded
    show v.guarded.Paired M w.guarded
    unfold Value.guarded
    rw [← v.isUndefined_bare, ← w.isUndefined_bare, ← v.toBoolean_bare, ← w.toBoolean_bare, h.bare_eq]
    split
    · exact .done (.ok (.of_plain Value.plain_undefined))
    · split
      · exact .right fun u x hu => .ok (.same hu)
      · exact .done (.ok (.of_plain Value.plain_undefined))
      · exact .done (.error rfl)
  · refine Demand.paired_of_plain (op.afterLeft_bare v) ?_ (afterLeft_plain hadd hguarded v)
      (afterLeft_plain hadd hguarded w)
    rw [h.bare_eq]
    exact op.afterLeft_bare w

theorem Value.splice_paired (h : v.Paired M w) : Related Eq (List.Forall₂ (Made M)) v.splice w.splice := by
  unfold splice
  rw [← h.kind_eq]
  split
  · next hkind =>
    obtain @⟨_, _, c, _, -, halike⟩ := h
    cases halike with
    | scalar =>
      cases c with
      | range r =>
        cases r with
        | between first last =>
          refine .ok (List.forall₂_same.2 fun i hi => ?_)
          obtain ⟨j, -, rfl⟩ := List.mem_map.1 hi
          exact .of_plain (plain_number _)
        | _ => exact .error rfl
      | _ => cases hkind
    | _ => cases hkind
  · exact .ok (.cons (.same h) .nil)

end

/-! ## Subscripts -/

/-- The error has a form that those of a subscript have which are located where an object comes from: a base that cannot be
indexed or does not have the place, or a key that is no string. `k` is the kind of this object. -/
def Error.About (k : Kind) (r : Error) : Prop :=
  match r.bare with
  | .index _ _ j _ _ => j = k
  | .outOfBounds _ _ _ => k = .string ∨ k = .array
  | .evaluation _ _ (.conversion _ j .string) => j = k
  | _ => False

namespace Error.About

variable {k : Kind} {r : Error}

theorem orLocation (h : r.About k) (l : Option Location) : (r.orLocation l).About k := by
  unfold About
  rw [bare_orLocation]
  exact h

theorem inExpression (h : r.About k) (text : String) (l : Option Location) : (r.inExpression text l).About k := by
  unfold About
  rw [bare_inExpression]
  exact h

end Error.About

namespace Value

section

variable {R : Value → Value → Prop} {vs ws : List Value}

theorem getElem?_related (h : List.Forall₂ R vs ws) (i : Nat) : Option.Rel R vs[i]? ws[i]? := by
  induction h generalizing i with
  | nil => exact .none
  | cons hvw _ ih =>
    cases i with
    | zero => exact .some hvw
    | succ i => exact ih i

theorem pick?_related (h : List.Forall₂ R vs ws) (p : Option Nat) : Option.Rel R (pick? vs p) (pick? ws p) := by
  cases p with
  | none => exact .none
  | some i => exact getElem?_related h i

theorem mapM_pick?_related (h : List.Forall₂ R vs ws) (ps : List (Option Nat)) :
    Option.Rel (List.Forall₂ R) (ps.mapM (pick? vs)) (ps.mapM (pick? ws)) := by
  induction ps with
  | nil => exact .some .nil
  | cons p ps ih =>
    have hp := pick?_related h p
    rw [List.mapM_cons, List.mapM_cons]
    generalize pick? vs p = o at hp ⊢
    generalize pick? ws p = o' at hp ⊢
    generalize ps.mapM (pick? vs) = os at ih ⊢
    generalize ps.mapM (pick? ws) = os' at ih ⊢
    cases hp with
    | none => exact .none
    | some hvw =>
      cases ih with
      | none => exact .none
      | some hvs => exact .some (.cons hvw hvs)

end

variable {M : Value → Value → Prop} {E : Error → Error → Prop} {O O' : Value → Option Location} {u v w x : Value}

theorem Paired.text_eq (h : v.Paired M w) : v.text = w.text := by rw [← v.text_bare, h.bare_eq, w.text_bare]

theorem Paired.toInteger_eq (h : v.Paired M w) : v.toInteger = w.toInteger := by
  rw [← v.toInteger_bare, h.bare_eq, w.toInteger_bare]

theorem Paired.positions_eq (h : v.Paired M w) (size : Nat) : v.positions size = w.positions size := by
  rw [← v.positions_bare size, h.bare_eq, w.positions_bare size]

/-- What is made of parts that are related, or of the lack of a part. -/
theorem elim_related {α β : Type} {R : α → β → Prop} {Q : Except Error Value → Except Error Value → Prop} {o : Option α}
    {o' : Option β} {f : α → Except Error Value} {g : β → Except Error Value} {r r' : Except Error Value}
    (h : Option.Rel R o o') (hnone : Q r r') (hsome : ∀ a b, R a b → Q (f a) (g b)) : Q (o.elim r f) (o'.elim r' g) := by
  cases h with
  | some h => exact hsome _ _ h
  | none => exact hnone

/-- An index for one part. -/
def Single (u : Value) : Prop := u.kind = .boolean ∨ u.kind = .number

/-- An index for several parts. -/
def Plural (u : Value) : Prop := u.kind = .array ∨ u.kind = .range

theorem subscript_string_single (h : u.Single) (m : Option Nat) (s : String) :
    subscript O ⟨m, .string s⟩ u = u.toInteger >>= fun i => (pick? s.toList (position? s.toList.length i)).elim
      (subscript.outside O ⟨m, .string s⟩ u) fun c => .ok (string c.toString) := by
  obtain ⟨n, d⟩ := u
  cases d with
  | boolean | number =>
    refine congrArg (toInteger _ >>= ·) (funext fun i => ?_)
    cases pick? s.toList (position? s.toList.length i) <;> rfl
  | _ => simp [Single, kind, content] at h

theorem subscript_array_single (h : u.Single) (m : Option Nat) (vs : List Value) :
    subscript O ⟨m, .array vs⟩ u = u.toInteger >>= fun i => (pick? vs (position? vs.length i)).elim
      (subscript.outside O ⟨m, .array vs⟩ u) .ok := by
  obtain ⟨n, d⟩ := u
  cases d with
  | boolean | number =>
    refine congrArg (toInteger _ >>= ·) (funext fun i => ?_)
    cases pick? vs (position? vs.length i) <;> rfl
  | _ => simp [Single, kind, content] at h

theorem subscript_array_plural (h : u.Plural) (m : Option Nat) (vs : List Value) :
    subscript O ⟨m, .array vs⟩ u = u.positions vs.length >>= fun ps => (ps.mapM (pick? vs)).elim
      (subscript.outside O ⟨m, .array vs⟩ u) fun ws => .ok (array ws) := by
  obtain ⟨n, d⟩ := u
  cases d with
  | array | range =>
    refine congrArg (positions _ _ >>= ·) (funext fun ps => ?_)
    cases ps.mapM (pick? vs) <;> rfl
  | _ => simp [Plural, kind, content] at h

variable (hsame : ∀ e, E e e)
  (hat : ∀ {u x : Value} {r : Error}, u.Paired M x → r.About u.kind → E (r.orLocation (O u)) (r.orLocation (O' x)))

include hat

theorem submap_paired {es fs found found' : Entries Value} {keys keys' : List Value}
    (hes : Entries.Related (Paired M) es fs) (hkeys : List.Forall₂ (Paired M) keys keys')
    (hfound : Entries.Related (Paired M) found found') :
    Related E (Entries.Related (Paired M)) (submap O es keys found) (submap O' fs keys' found') := by
  induction hkeys generalizing found found' with
  | nil => exact .ok hfound
  | @cons key key' keys keys' hkey hkeys ih =>
    have hrefused : E ((key.conversionError .string).orLocation (O key)) ((key'.conversionError .string).orLocation (O' key')) := by
      have hcause : key'.conversionError .string = key.conversionError .string := by
        rw [conversionError, conversionError, hkey.text_eq, hkey.kind_eq]
      rw [hcause]
      exact hat hkey rfl
    obtain @⟨_, _, c, _, -, halike⟩ := hkey
    cases halike with
    | scalar =>
      cases c with
      | string k =>
        have hentry := hes.find? k
        rw [submap, submap]
        dsimp only [content]
        generalize Entries.find? es k = o at hentry ⊢
        generalize Entries.find? fs k = o' at hentry ⊢
        cases hentry with
        | none => exact ih hfound
        | some hvw => exact ih (hfound.insert k hvw)
      | _ => exact .error hrefused
    | _ => exact .error hrefused

/-- Bases that cannot be indexed in this way. -/
theorem refused_paired (hv : v.Paired M w) (hu : u.Paired M x) :
    Related E (Made M) (.error (.index (O v) v.text v.kind u.text u.kind))
      (.error (.index (O' w) w.text w.kind x.text x.kind)) := by
  rw [← hv.text_eq, ← hv.kind_eq, ← hu.text_eq, ← hu.kind_eq]
  exact .error (hat (r := .index none v.text v.kind u.text u.kind) hv rfl)

/-- Bases that have no part at a place. -/
theorem outside_paired (hv : v.Paired M w) (hu : u.Paired M x) (hkind : v.kind = .string ∨ v.kind = .array) :
    Related E (Made M) (subscript.outside O v u) (subscript.outside O' w x) := by
  rw [subscript.outside, subscript.outside, ← hv.text_eq, ← hu.text_eq]
  exact .error (hat (r := .outOfBounds none v.text u.text) hv hkind)

theorem subscript_map_paired {m n : Option Nat} {es fs : Entries Value} (hv : Paired M ⟨m, .map es⟩ ⟨n, .map fs⟩)
    (hes : Entries.Related (Paired M) es fs) (hu : u.Paired M x) :
    Related E (Made M) (subscript O ⟨m, .map es⟩ u) (subscript O' ⟨n, .map fs⟩ x) := by
  have hrefused : Related E (Made M) _ _ := refused_paired hat hv hu
  obtain @⟨_, _, d, _, -, halike⟩ := hu
  cases halike with
  | scalar hd =>
    cases d with
    | string k =>
      show Related E _ (.ok ((Entries.find? es k).getD undefined)) (.ok ((Entries.find? fs k).getD undefined))
      have hentry := hes.find? k
      generalize Entries.find? es k = o at hentry ⊢
      generalize Entries.find? fs k = o' at hentry ⊢
      cases hentry with
      | some h => exact .ok (.same h)
      | none => exact .ok (.of_plain plain_undefined)
    | array => exact absurd rfl hd.1
    | _ => exact hrefused
  | array hkeys =>
    refine Related.bind (submap_paired hat hes hkeys .nil) fun fs gs h => ?_
    exact .ok (.new (.map h))
  | map => exact hrefused

include hsame

theorem subscript_string_paired {m n : Option Nat} {s : String} (hv : Paired M ⟨m, .string s⟩ ⟨n, .string s⟩)
    (hu : u.Paired M x) : Related E (Made M) (subscript O ⟨m, .string s⟩ u) (subscript O' ⟨n, .string s⟩ x) := by
  have hrefused : Related E (Made M) _ _ := refused_paired hat hv hu
  have houtside : Related E (Made M) _ _ := outside_paired hat hv hu (.inl rfl)
  have hinteger := hu.toInteger_eq
  have hplaces := hu.positions_eq
  have hsingle : u.Single → x.Single → Related E (Made M) (subscript O ⟨m, .string s⟩ u) (subscript O' ⟨n, .string s⟩ x) := by
    intro h h'
    rw [subscript_string_single h, subscript_string_single h', hinteger]
    refine (Related.same hsame _).bind ?_
    rintro i _ rfl
    cases pick? s.toList (position? s.toList.length i) with
    | some c => exact .ok (.of_plain (plain_string _))
    | none => exact houtside
  have hplural : ∀ {r : Except Error (List (Option Nat))}, Related E (Made M)
      (r >>= fun ps => .ok (string (String.ofList (ps.filterMap (pick? s.toList)))))
      (r >>= fun ps => .ok (string (String.ofList (ps.filterMap (pick? s.toList))))) := fun {r} => by
    refine (Related.same hsame r).bind ?_
    rintro ps _ rfl
    exact .ok (.of_plain (plain_string _))
  obtain @⟨_, _, d, _, -, halike⟩ := hu
  cases halike with
  | scalar hd =>
    cases d with
    | boolean => exact hsingle (.inl rfl) (.inl rfl)
    | number => exact hsingle (.inr rfl) (.inr rfl)
    | range => exact hplural
    | array => exact absurd rfl hd.1
    | _ => exact hrefused
  | array =>
    show Related E _ (positions _ _ >>= _) (positions _ _ >>= _)
    rw [hplaces]
    exact hplural
  | map => exact hrefused

theorem subscript_array_paired {m n : Option Nat} {vs ws : List Value} (hv : Paired M ⟨m, .array vs⟩ ⟨n, .array ws⟩)
    (hvs : List.Forall₂ (Paired M) vs ws) (hu : u.Paired M x) :
    Related E (Made M) (subscript O ⟨m, .array vs⟩ u) (subscript O' ⟨n, .array ws⟩ x) := by
  have hrefused : Related E (Made M) _ _ := refused_paired hat hv hu
  have houtside : Related E (Made M) _ _ := outside_paired hat hv hu (.inr rfl)
  have hinteger := hu.toInteger_eq
  have hplaces := hu.positions_eq
  have hsingle : u.Single → x.Single → Related E (Made M) (subscript O ⟨m, .array vs⟩ u) (subscript O' ⟨n, .array ws⟩ x) := by
    intro h h'
    rw [subscript_array_single h, subscript_array_single h', hinteger, ← hvs.length_eq]
    refine (Related.same hsame _).bind ?_
    rintro i _ rfl
    exact elim_related (pick?_related hvs _) houtside fun _ _ h => .ok (.same h)
  have hplural : u.Plural → x.Plural → Related E (Made M) (subscript O ⟨m, .array vs⟩ u) (subscript O' ⟨n, .array ws⟩ x) := by
    intro h h'
    rw [subscript_array_plural h, subscript_array_plural h', hplaces, ← hvs.length_eq]
    refine (Related.same hsame _).bind ?_
    rintro ps _ rfl
    exact elim_related (mapM_pick?_related hvs ps) houtside fun _ _ h => .ok (.new (.array h))
  obtain @⟨_, _, d, _, -, halike⟩ := hu
  cases halike with
  | scalar hd =>
    cases d with
    | boolean => exact hsingle (.inl rfl) (.inl rfl)
    | number => exact hsingle (.inr rfl) (.inr rfl)
    | range => exact hplural (.inr rfl) (.inr rfl)
    | array => exact absurd rfl hd.1
    | _ => exact hrefused
  | array => exact hplural (.inl rfl) (.inl rfl)
  | map => exact hrefused

theorem subscript_paired (hv : v.Paired M w) (hu : u.Paired M x) :
    Related E (Made M) (v.subscript O u) (w.subscript O' x) := by
  have hbase := hv
  obtain @⟨_, _, c, _, -, halike⟩ := hv
  cases halike with
  | scalar hc =>
    cases c with
    | array => exact absurd rfl hc.1
    | map => exact absurd rfl hc.2
    | string s => exact subscript_string_paired hsame hat hbase hu
    | _ => exact refused_paired hat hbase hu
  | array hvs => exact subscript_array_paired hsame hat hbase hvs hu
  | map hes => exact subscript_map_paired hat hbase hes hu

end Value

end ExprLang
