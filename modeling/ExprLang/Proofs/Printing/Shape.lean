import ExprLang.Proofs.Folding.Keys
import ExprLang.Proofs.Printing.Source

/-!
# The shape of expressions that are read and folded

Every node that is read stands over parts that the grammar allows there (`Reads.formed`). Folding makes
literals of nodes and otherwise keeps what they are (`Expr.Kept`), so every property of nodes that does not
mind such a change of their parts holds of folded trees (`Expr.Tolerant.fold`). The shape is one of them
(`Expr.shaped_fold`).
-/

namespace ExprLang

/-! ## Trees that are read -/

/-- A node as the grammar makes it. -/
def Expr.Formed (n : Expr) : Prop := n.Shaped ∧ n.DistinctKeys

/-- An expression that is no open range. -/
def Expr.FormedWhole (e : Expr) : Prop := e.Each Formed ∧ e.isOpenRange = false

/-- An item, which may be an open range if it is an index. -/
def Expr.FormedItem (kind : Item) (e : Expr) : Prop := e.Each Formed ∧ (kind = .index ∨ e.isOpenRange = false)

namespace Expr

/-- A climbing tree has a shape if its operands have. -/
theorem formed_of_climbs : ∀ {e : Expr}, e.Climbs → e.first.FormedWhole → (∀ j ∈ e.jointList, j.right.FormedWhole) →
    e.FormedWhole
  | binary l op a b, ⟨hle, hlt, ca, cb⟩, hfirst, hjs => by
    obtain ⟨hleft, hright⟩ := List.forall_mem_append.1 hjs
    obtain ⟨hb, hright⟩ := List.forall_mem_cons.1 hright
    have ha := formed_of_climbs ca hfirst hleft
    have hb := formed_of_climbs cb hb hright
    exact ⟨each_binary.2 ⟨⟨⟨⟨ha.2, hb.2⟩, hle, hlt⟩, trivial⟩, ha.1, hb.1⟩, rfl⟩
  | literal .., _, h, _ | var .., _, h, _ | array .., _, h, _ | map .., _, h, _ | unary .., _, h, _
  | subscript .., _, h, _ | switch .., _, h, _ => h

theorem formed_joinAll {t : Expr} {js : List Joint} (ht : t.FormedWhole) (hbinary : t.isBinary = false)
    (hjs : ∀ j ∈ js, j.right.FormedWhole ∧ j.right.isBinary = false) : (t.joinAll js).FormedWhole := by
  have hclimbs : (t.joinAll js).Climbs := climbs_joinAll (climbs_of_not_binary hbinary) fun j hj => (hjs j hj).2
  have hrow : Joint.row (t.joinAll js).first (t.joinAll js).jointList = Joint.row t js := by
    rw [← row_eq, row_joinAll fun j hj => (hjs j hj).2, row_of_not_binary hbinary]
    rfl
  obtain ⟨hfirst, hjoints⟩ := Joint.row_inj hrow
  refine formed_of_climbs hclimbs (by rw [hfirst]; exact ht) ?_
  rw [hjoints]
  exact fun j hj => (hjs j hj).1

theorem formed_subscriptAll {subs : List (Location × List Expr)} (hsubs : ∀ i ∈ subs, (ofIndices i.1 i.2).Each Formed)
    {b : Expr} (hb : b.FormedWhole) (hbinary : b.isBinary = false) (hswitch : b.isSwitch = false) :
    (b.subscriptAll subs).FormedWhole := by
  induction subs generalizing b with
  | nil => exact hb
  | cons i subs ih =>
    obtain ⟨hi, hsubs⟩ := List.forall_mem_cons.1 hsubs
    rw [subscriptAll_cons]
    exact ih hsubs ⟨each_subscript.2 ⟨⟨⟨hb.2, hbinary, hswitch⟩, trivial⟩, hb.1, hi⟩, rfl⟩ rfl rfl

theorem formed_ofIndices (l : Location) {es : List Expr} (hes : ∀ e ∈ es, e.Each Formed) :
    (ofIndices l es).Each Formed := by
  match es with
  | [e] => exact hes e List.mem_cons_self
  | [] | e :: f :: es => exact each_array.2 ⟨⟨trivial, trivial⟩, hes⟩

end Expr

/-- All expressions of a phrase have a shape, and open ranges stand in index lists only. -/
def Phrase.Formed : Phrase → Prop
  | expression e | term e | simple e => e.FormedWhole
  | operators js => ∀ j ∈ js, j.right.FormedWhole
  | subscripts subs => ∀ i ∈ subs, (Expr.ofIndices i.1 i.2).Each Expr.Formed
  | list kind es | items kind es => ∀ e ∈ es, e.FormedItem kind
  | item kind e => e.FormedItem kind
  | map es => Entries.Nodup es ∧ ∀ f ∈ es, f.2.FormedWhole
  | entries es => ∀ f ∈ es, f.2.FormedWhole

theorem UnaryOp.isSign_of_ofKind? {k : Token.Kind} {op : UnaryOp} (h : UnaryOp.ofKind? k = some op) : op.isSign = true := by
  cases k <;> cases h <;> rfl

theorem Expr.not_openRange_of_isSign {l : Option Location} {op : UnaryOp} {a : Expr} (h : op.isSign = true) :
    (Expr.unary l op a).isOpenRange = false := by
  cases op <;> first | rfl | cases h

theorem Expr.Leaf.keyed {l : Option Location} {v : Value} (h : (Expr.literal l v).Leaf) : v.Keyed := by
  rcases h with ⟨s, rfl⟩ | ⟨x, rfl⟩ | ⟨b, rfl⟩ | rfl <;> exact trivial

theorem Reads.formed {p : Phrase} {s s' : Tokens} (h : Reads p s s') (hs : s.Wf) : p.Formed := by
  induction h with
  | expression rt rjs iht ihjs =>
    exact Expr.formed_joinAll (iht hs) rt.term_not_binary fun j hj =>
      ⟨ihjs (rt.wf hs) j hj, rjs.operators_not_binary j hj⟩
  | noOperator | noSubscript | emptyList => exact fun _ h => absurd h List.not_mem_nil
  | operator _ rr _ ihr ihjs => exact List.forall_mem_cons.2 ⟨ihr hs.2, ihjs (rr.wf hs.2)⟩
  | switch _ _ ih =>
    exact ⟨Expr.each_switch.2 ⟨⟨fun e he => (ih hs.2 e he).2.resolve_left Item.noConfusion, trivial⟩,
      fun e he => (ih hs.2 e he).1⟩, rfl⟩
  | term rb _ ihb ihsubs =>
    exact Expr.formed_subscriptAll (ihsubs (rb.wf hs)) (ihb hs) rb.simple_not_binary rb.not_switch
  | subscript _ rl _ ihl ihsubs =>
    exact List.forall_mem_cons.2 ⟨Expr.formed_ofIndices _ fun e he => (ihl hs.2 e he).1, ihsubs (rl.wf hs.2)⟩
  | unary hk ra ih =>
    exact ⟨Expr.each_unary.2 ⟨⟨⟨(ih hs.2).2, fun _ => ra.term_not_binary⟩, trivial⟩, (ih hs.2).1⟩,
      Expr.not_openRange_of_isSign (UnaryOp.isSign_of_ofKind? hk)⟩
  | group _ _ _ ih => exact ⟨Expr.each_unary.2 ⟨⟨⟨(ih hs.2).2, fun h => nomatch h⟩, trivial⟩, (ih hs.2).1⟩, rfl⟩
  | name hk => exact ⟨Expr.each_var.2 ⟨hs.1.firm_name hk, trivial⟩, rfl⟩
  | array _ _ ih => exact ⟨Expr.each_array.2 ⟨⟨trivial, trivial⟩, fun e he => (ih hs.2 e he).1⟩, rfl⟩
  | mapping _ _ ih =>
    obtain ⟨hnodup, hes⟩ := ih hs.2
    exact ⟨Expr.each_map.2 ⟨⟨fun f hf => (hes f hf).2, hnodup⟩, fun f hf => (hes f hf).1⟩, rfl⟩
  | literal _ hv =>
    have hleaf : (Expr.literal none _).Leaf := Token.literal_leaf hv
    exact ⟨Expr.each_literal.2 ⟨trivial, hleaf.keyed⟩, rfl⟩
  | list _ ih => exact ih hs
  | lastItem _ _ ih => exact List.forall_mem_singleton.2 (ih hs)
  | items ri _ _ ihi ihis => exact List.forall_mem_cons.2 ⟨ihi hs, ihis (ri.wf hs).2⟩
  | item _ _ _ ih => exact ⟨(ih hs).1, .inr (ih hs).2⟩
  | startingAt _ _ ih => exact ⟨Expr.each_unary.2 ⟨⟨⟨(ih hs).2, fun h => nomatch h⟩, trivial⟩, (ih hs).1⟩, .inl rfl⟩
  | endingAt _ _ ih => exact ⟨Expr.each_unary.2 ⟨⟨⟨(ih hs.2).2, fun h => nomatch h⟩, trivial⟩, (ih hs.2).1⟩, .inl rfl⟩
  | emptyMap => exact ⟨List.nodup_nil, fun _ h => absurd h List.not_mem_nil⟩
  | map _ ih =>
    exact ⟨Entries.nodup_insertAll List.nodup_nil,
      fun f hf => ih hs f ((Entries.mem_insertAll hf).resolve_left List.not_mem_nil)⟩
  | lastEntry _ _ _ _ ih => exact List.forall_mem_singleton.2 (ih hs.2.2)
  | entries _ _ re _ _ ihe ihes => exact List.forall_mem_cons.2 ⟨ihe hs.2.2, ihes (re.wf hs.2.2).2⟩

/-- An expression that is read from a text has a shape. -/
theorem Expr.formed_of_parse {text : String} {t : Expr} (h : parse text = .ok t) : t.FormedWhole := by
  obtain ⟨_, _, hread, _, _⟩ := parse_iff.1 h
  exact hread.formed (Tokens.wf_ofText text)

/-! ## Trees that are folded -/

/-- Another expression that may stand wherever the first may. -/
structure Expr.Kept (e f : Expr) : Prop where
  precedence : e.precedence ≤ f.precedence
  openRange : e.isOpenRange = false → f.isOpenRange = false
  binary : e.isBinary = false → f.isBinary = false
  switch : e.isSwitch = false → f.isSwitch = false

namespace Expr

theorem kept_literal (e : Expr) (l : Option Location) (v : Value) : e.Kept (literal l v) :=
  ⟨precedence_le_max e, fun _ => rfl, fun _ => rfl, fun _ => rfl⟩

/-- A closed node is a literal or the node. -/
theorem ClosesOnce.cases {node : Expr} {close : Supply Expr} (h : ClosesOnce node close) (n : Nat) :
    (∃ l v, (close n).1 = literal l v) ∨ (close n).1 = node := by
  rcases h with h | h
  · obtain ⟨v, hv⟩ := h n
    exact .inl ⟨_, v, hv⟩
  · exact .inr (congrArg Prod.fst (h n))

theorem ClosesOnce.kept {e node : Expr} {close : Supply Expr} (h : ClosesOnce node close) (hnode : e.Kept node)
    (n : Nat) : e.Kept (close n).1 := by
  rcases h.cases n with ⟨l, v, hv⟩ | hv
  · rw [hv]
    exact kept_literal e l v
  · rw [hv]
    exact hnode

/-- Folding makes a literal of an expression or keeps its sign. -/
theorem kept_fold (e : Expr) (n : Nat) : e.Kept (e.fold n).1 := by
  have same {f g : Expr} (hprecedence : f.precedence = g.precedence) (hopen : f.isOpenRange = g.isOpenRange)
      (hbinary : f.isBinary = g.isBinary) (hswitch : f.isSwitch = g.isSwitch) : f.Kept g :=
    ⟨Nat.le_of_eq hprecedence, hopen ▸ id, hbinary ▸ id, hswitch ▸ id⟩
  cases e with
  | literal | var => exact same rfl rfl rfl rfl
  | array l items =>
    have hnode : (array l items).Kept (array l (foldItems items n).1) := same rfl rfl rfl rfl
    rw [fold]
    exact (closesOnce_array l _).kept hnode _
  | map l entries =>
    have hnode : (map l entries).Kept (map l (foldEntries entries n).1) := same rfl rfl rfl rfl
    rw [fold]
    exact (closesOnce_map l _).kept hnode _
  | unary l op a =>
    have hnode : (unary l op a).Kept (unary l op (a.fold n).1) := same rfl (by cases op <;> rfl) rfl rfl
    rw [fold]
    exact (closesOnce_unary l op _).kept hnode _
  | binary l op a b =>
    have hnode : (binary l op a b).Kept (binary l op (a.fold n).1 (b.fold (a.fold n).2).1) := same rfl rfl rfl rfl
    rw [fold]
    exact (closesOnce_binary l op _ _).kept hnode _
  | subscript l a b =>
    have hnode : (subscript l a b).Kept (subscript l (a.fold n).1 (b.fold (a.fold n).2).1) := same rfl rfl rfl rfl
    rw [fold]
    exact (closesOnce_subscript l _ _).kept hnode _
  | switch l cases =>
    rw [fold]
    rcases closeSwitch_cases l (foldCases cases n).1 with h | ⟨rest, -, h, -⟩
    · obtain ⟨v, hv⟩ := h (foldCases cases n).2
      show (switch l cases).Kept (closeSwitch l (foldCases cases n).1 (foldCases cases n).2).1
      rw [hv]
      exact kept_literal _ l v
    · show (switch l cases).Kept (closeSwitch l (foldCases cases n).1 (foldCases cases n).2).1
      rw [h]
      exact same rfl rfl rfl rfl

end Expr

/-- Literals have the property, and a node that has it keeps it over other parts, each of which may stand where some
part of the node did. -/
structure Expr.Tolerant (P : Expr → Prop) : Prop where
  literal (l : Option Location) (v : Value) : P (literal l v)
  array {l : Option Location} {items folded : List Expr} : P (array l items) →
    (∀ f ∈ folded, ∃ e ∈ items, e.Kept f) → P (array l folded)
  map {l : Option Location} {entries folded : List (String × Expr)} : P (map l entries) →
    (∀ f ∈ folded, ∃ e ∈ entries, e.2.Kept f.2) → P (map l folded)
  unary {l : Option Location} {op : UnaryOp} {a folded : Expr} : P (unary l op a) → a.Kept folded →
    P (unary l op folded)
  binary {l : Option Location} {op : BinaryOp} {a b left right : Expr} : P (binary l op a b) → a.Kept left →
    b.Kept right → P (binary l op left right)
  subscript {l : Option Location} {a b base index : Expr} : P (subscript l a b) → a.Kept base → b.Kept index →
    P (subscript l base index)
  switch {l : Option Location} {cases folded : List Expr} : P (switch l cases) →
    (∀ f ∈ folded, ∃ e ∈ cases, e.Kept f) → P (switch l folded)

section

variable {P : Expr → Prop}

open ExprLang.Expr in
mutual

/-- Every node of a folded expression has the property if every node of the expression has. -/
theorem Expr.Tolerant.fold (h : Tolerant P) : ∀ {e : Expr}, e.Each P → ∀ n, (e.fold n).1.Each P
  | .literal _ _, he, _ | .var _ _, he, _ => he
  | .array l items, he, n => by
    obtain ⟨hnode, hitems⟩ := each_array.1 he
    have hfolded := h.foldItems hitems n
    rw [Expr.fold]
    exact (closesOnce_array l _).each (h.literal l)
      (each_array.2 ⟨h.array hnode fun f hf => (hfolded f hf).2, fun f hf => (hfolded f hf).1⟩) _
  | .map l entries, he, n => by
    obtain ⟨hnode, hentries⟩ := each_map.1 he
    have hfolded := h.foldEntries hentries n
    rw [Expr.fold]
    exact (closesOnce_map l _).each (h.literal l)
      (each_map.2 ⟨h.map hnode fun f hf => (hfolded f hf).2, fun f hf => (hfolded f hf).1⟩) _
  | .unary l op a, he, n => by
    obtain ⟨hnode, ha⟩ := each_unary.1 he
    rw [Expr.fold]
    exact (closesOnce_unary l op _).each (h.literal l)
      (each_unary.2 ⟨h.unary hnode (kept_fold a n), h.fold ha n⟩) _
  | .binary l op a b, he, n => by
    obtain ⟨hnode, ha, hb⟩ := each_binary.1 he
    rw [Expr.fold]
    exact (closesOnce_binary l op _ _).each (h.literal l)
      (each_binary.2 ⟨h.binary hnode (kept_fold a n) (kept_fold b _), h.fold ha n, h.fold hb _⟩) _
  | .subscript l a b, he, n => by
    obtain ⟨hnode, ha, hb⟩ := each_subscript.1 he
    rw [Expr.fold]
    exact (closesOnce_subscript l _ _).each (h.literal l)
      (each_subscript.2 ⟨h.subscript hnode (kept_fold a n) (kept_fold b _), h.fold ha n, h.fold hb _⟩) _
  | .switch l cases, he, n => by
    obtain ⟨hnode, hcases⟩ := each_switch.1 he
    have hfolded := h.foldCases hcases n
    rw [Expr.fold]
    exact each_closeSwitch (h.literal l) (fun rest hrest => h.switch hnode fun f hf => (hfolded f (hrest hf)).2)
      (fun f hf => (hfolded f hf).1) _

theorem Expr.Tolerant.foldItems (h : Tolerant P) : ∀ {es : List Expr}, (∀ e ∈ es, e.Each P) →
    ∀ n, ∀ f ∈ (foldItems es n).1, f.Each P ∧ ∃ e ∈ es, e.Kept f
  | [], _, _ => fun _ hf => absurd hf List.not_mem_nil
  | e :: es, hes, n => by
    obtain ⟨he, hes⟩ := List.forall_mem_cons.1 hes
    rw [ExprLang.foldItems]
    refine List.forall_mem_append.2 ⟨fun f hf => ?_, fun f hf => ?_⟩
    · rcases mem_spliceItem hf with ⟨rfl, -⟩ | ⟨i, m, rfl⟩
      · exact ⟨h.fold he n, e, List.mem_cons_self, kept_fold e n⟩
      · exact ⟨each_literal.2 (h.literal _ _), e, List.mem_cons_self, kept_literal e _ _⟩
    · obtain ⟨hf, g, hg, hkept⟩ := h.foldItems hes _ f hf
      exact ⟨hf, g, List.mem_cons_of_mem _ hg, hkept⟩

theorem Expr.Tolerant.foldEntries (h : Tolerant P) : ∀ {es : List (String × Expr)}, (∀ f ∈ es, f.2.Each P) →
    ∀ n, ∀ f ∈ (foldEntries es n).1, f.2.Each P ∧ ∃ e ∈ es, e.2.Kept f.2
  | [], _, _ => fun _ hf => absurd hf List.not_mem_nil
  | (k, e) :: es, hes, n => by
    obtain ⟨he, hes⟩ := List.forall_mem_cons.1 hes
    rw [ExprLang.foldEntries]
    refine List.forall_mem_cons.2 ⟨⟨h.fold he n, (k, e), List.mem_cons_self, kept_fold e n⟩, fun f hf => ?_⟩
    obtain ⟨hf, g, hg, hkept⟩ := h.foldEntries hes _ f hf
    exact ⟨hf, g, List.mem_cons_of_mem _ hg, hkept⟩

theorem Expr.Tolerant.foldCases (h : Tolerant P) : ∀ {es : List Expr}, (∀ e ∈ es, e.Each P) →
    ∀ n, ∀ f ∈ (foldCases es n).1, f.Each P ∧ ∃ e ∈ es, e.Kept f
  | [], _, _ => fun _ hf => absurd hf List.not_mem_nil
  | e :: es, hes, n => by
    obtain ⟨he, hes⟩ := List.forall_mem_cons.1 hes
    rw [ExprLang.foldCases]
    refine List.forall_mem_cons.2 ⟨⟨h.fold he n, e, List.mem_cons_self, kept_fold e n⟩, fun f hf => ?_⟩
    obtain ⟨hf, g, hg, hkept⟩ := h.foldCases hes _ f hf
    exact ⟨hf, g, List.mem_cons_of_mem _ hg, hkept⟩

end

end

theorem Expr.tolerant_shaped : Tolerant Shaped where
  literal _ _ := trivial
  array _ _ := trivial
  map hopen h f hf := by
    obtain ⟨e, he, hkept⟩ := h f hf
    exact hkept.openRange (hopen e he)
  unary := fun ⟨hopen, hbinary⟩ ha => ⟨ha.openRange hopen, fun hop => ha.binary (hbinary hop)⟩
  binary := fun ⟨⟨hleft, hright⟩, hle, hlt⟩ ha hb =>
    ⟨⟨ha.openRange hleft, hb.openRange hright⟩, Nat.le_trans hle ha.precedence, Nat.lt_of_lt_of_le hlt hb.precedence⟩
  subscript := fun ⟨hopen, hbinary, hswitch⟩ ha _ => ⟨ha.openRange hopen, ha.binary hbinary, ha.switch hswitch⟩
  switch hopen h f hf := by
    obtain ⟨e, he, hkept⟩ := h f hf
    exact hkept.openRange (hopen e he)

/-- A folded expression has a shape if the expression has. -/
theorem Expr.shaped_fold {e : Expr} (h : e.Each Shaped) (n : Nat) : (e.fold n).1.Each Shaped := tolerant_shaped.fold h n

end ExprLang
