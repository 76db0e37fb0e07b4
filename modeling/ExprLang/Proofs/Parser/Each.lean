import ExprLang.Proofs.Parser.Reads
import ExprLang.Proofs.Parts

/-!
# What holds of every node that is read

Reading makes nodes of tokens and joins operators between them. A property that these nodes have
(`ReadInvariant`) is one of every node of every expression that is read (`ReadInvariant.each`).
-/

namespace ExprLang

/-! ## Sequences -/

theorem Expr.each_subscriptAll {P : Expr → Prop} (hP : ∀ (l : Location) a b, P (subscript l a b))
    {subs : List (Location × List Expr)} {b : Expr} :
    (b.subscriptAll subs).Each P ↔ b.Each P ∧ ∀ i ∈ subs, (ofIndices i.1 i.2).Each P := by
  induction subs generalizing b with
  | nil => simp
  | cons i subs ih =>
    rw [subscriptAll_cons, ih, each_subscript, and_iff_right (hP _ _ _), List.forall_mem_cons, and_assoc]

theorem Entries.mem_insertAll {α : Type} {f : String × α} : ∀ {fs es : Entries α},
    f ∈ Entries.insertAll es fs → f ∈ es ∨ f ∈ fs
  | [], _, h => .inl h
  | (k, v) :: fs, es, h => by
    have h : f ∈ Entries.insertAll (Entries.insertNew es k v) fs := h
    rcases mem_insertAll h with h | h
    · unfold Entries.insertNew at h
      split at h
      · exact .inl h
      · exact (List.mem_append.1 h).imp_right fun h => by simp_all
    · exact .inr (List.mem_cons_of_mem _ h)

/-- Every sign that is read has its location. -/
theorem Reads.location_operators : ∀ {js : List Joint} {s s' : Tokens}, Reads (.operators js) s s' →
    ∀ j ∈ js, ∃ l : Location, j.location = some l
  | _, _, _, .noOperator _ => by simp
  | _, _, _, .operator _ _ hjs => by
    intro j hj
    rcases List.mem_cons.1 hj with rfl | hj
    · exact ⟨_, rfl⟩
    · exact hjs.location_operators j hj

/-! ## Phrases -/

/-- `P` holds of the nodes that are made of tokens. Of a binary operation it depends on the sign and its location
alone. -/
structure ReadInvariant (P : Expr → Prop) (Q : Option Location → BinaryOp → Prop) : Prop where
  literal {t : Token} {v : Value} : t.literal = .ok v → P (.literal t.location v)
  name {t : Token} : t.Genuine → t.kind = .name → P (.var t.location t.word)
  array (l : Location) (es : List Expr) : P (.array l es)
  map (l : Location) (es : List (String × Expr)) : P (.map l es)
  unary (l : Location) (op : UnaryOp) (a : Expr) : P (.unary l op a)
  subscript (l : Location) (a b : Expr) : P (.subscript l a b)
  switch (l : Location) (es : List Expr) : P (.switch l es)
  binary (l : Option Location) (op : BinaryOp) (a b : Expr) : P (.binary l op a b) ↔ Q l op
  sign (l : Location) (op : BinaryOp) : Q l op

/-- All expressions of a phrase. -/
def Phrase.Each (P : Expr → Prop) : Phrase → Prop
  | expression e | term e | simple e | item _ e => e.Each P
  | operators js => ∀ j ∈ js, j.right.Each P
  | subscripts subs => ∀ i ∈ subs, (Expr.ofIndices i.1 i.2).Each P
  | list _ es | items _ es => ∀ e ∈ es, e.Each P
  | map es | entries es => ∀ f ∈ es, f.2.Each P

namespace ReadInvariant

variable {P : Expr → Prop} {Q : Option Location → BinaryOp → Prop} (hP : ReadInvariant P Q)

include hP

theorem ofIndices (l : Location) {es : List Expr} (hes : ∀ e ∈ es, e.Each P) : (Expr.ofIndices l es).Each P := by
  match es with
  | [e] => exact hes e List.mem_cons_self
  | [] => exact Expr.each_array.2 ⟨hP.array _ _, hes⟩
  | e :: f :: es => exact Expr.each_array.2 ⟨hP.array _ _, hes⟩

theorem each {p : Phrase} {s s' : Tokens} (h : Reads p s s') (hs : s.Wf) : p.Each P := by
  induction h with
  | expression rt rjs iht ihjs =>
    refine (Expr.each_joinAll hP.binary).2 ⟨iht hs, fun j hj => ⟨?_, ihjs (rt.wf hs) j hj⟩⟩
    obtain ⟨l, hl⟩ := rjs.location_operators j hj
    rw [hl]
    exact hP.sign l j.op
  | noOperator | noSubscript | emptyList | emptyMap => exact fun _ h => absurd h List.not_mem_nil
  | operator _ rr _ ihr ihjs => exact List.forall_mem_cons.2 ⟨ihr hs.2, ihjs (rr.wf hs.2)⟩
  | switch _ _ ih => exact Expr.each_switch.2 ⟨hP.switch _ _, ih hs.2⟩
  | term rb _ ihb ihsubs => exact (Expr.each_subscriptAll hP.subscript).2 ⟨ihb hs, ihsubs (rb.wf hs)⟩
  | subscript _ rl _ ihl ihsubs => exact List.forall_mem_cons.2 ⟨hP.ofIndices _ (ihl hs.2), ihsubs (rl.wf hs.2)⟩
  | unary _ _ ih | group _ _ _ ih => exact Expr.each_unary.2 ⟨hP.unary _ _ _, ih hs.2⟩
  | name hk => exact Expr.each_var.2 (hP.name hs.1 hk)
  | array _ _ ih => exact Expr.each_array.2 ⟨hP.array _ _, ih hs.2⟩
  | mapping _ _ ih => exact Expr.each_map.2 ⟨hP.map _ _, ih hs.2⟩
  | literal _ hv => exact Expr.each_literal.2 (hP.literal hv)
  | list _ ih | item _ _ _ ih => exact ih hs
  | lastItem _ _ ih => exact List.forall_mem_singleton.2 (ih hs)
  | items ri _ _ ihi ihis => exact List.forall_mem_cons.2 ⟨ihi hs, ihis (ri.wf hs).2⟩
  | startingAt _ _ ih => exact Expr.each_unary.2 ⟨hP.unary _ _ _, ih hs⟩
  | endingAt _ _ ih => exact Expr.each_unary.2 ⟨hP.unary _ _ _, ih hs.2⟩
  | map _ ih => exact fun f hf => ih hs f ((Entries.mem_insertAll hf).resolve_left List.not_mem_nil)
  | lastEntry _ _ _ _ ih => exact List.forall_mem_singleton.2 (ih hs.2.2)
  | entries _ _ re _ _ ihe ihes => exact List.forall_mem_cons.2 ⟨ihe hs.2.2, ihes (re.wf hs.2.2).2⟩

end ReadInvariant

end ExprLang
