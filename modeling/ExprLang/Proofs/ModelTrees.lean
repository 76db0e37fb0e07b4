import ExprLang.ModelList
import ExprLang.Proofs.Parser.Exact

/-!
# The trees of model lists

By one lemma for each reading, an entry of a model list is read as a model, as a model under a condition, or as a map
of variables (`ModelList.IsEntry`), and the list as a switch of its entries (`ModelList.read_entries`).
-/

namespace ExprLang

/-- What a reading gives, if anything, has a property. -/
def Reading.Gives {α : Type} (x : Reading α) (P : α → Prop) : Prop := ∀ s a s', x s = .ok (a, s') → P a

namespace Reading.Gives

variable {α β : Type} {P : α → Prop} {Q : β → Prop}

theorem pure {a : α} (h : P a) : Gives (Pure.pure a) P := by
  intro s b s' hb
  obtain ⟨rfl, -⟩ := pure_ok.1 hb
  exact h

theorem refuse (e : Error) (c : Cursor) : Gives (refuse e c) P := by
  intro s a s' h
  cases h

theorem bind {x : Reading α} {k : α → Reading β} (hx : Gives x P) (hk : ∀ a, P a → Gives (k a) Q) :
    Gives (x >>= k) Q := by
  intro s b s' h
  obtain ⟨a, s₁, ha, hb⟩ := bind_ok.1 h
  exact hk a (hx s a s₁ ha) s₁ b s' hb

/-- Nothing is asked of the first reading. -/
theorem after {x : Reading α} {k : α → Reading β} (hk : ∀ a, Gives (k a) Q) : Gives (x >>= k) Q :=
  bind (P := fun _ => True) (fun _ _ _ _ => trivial) fun a _ => hk a

end Reading.Gives

namespace ModelList

open Reading

/-! ## Entries -/

/-- A variable, in its place. -/
def IsVariable (e : Expr) : Prop := ∃ (l : Location) (name : String), e = .var l name

/-- A variable is compared with a literal. -/
def IsCondition (e : Expr) : Prop :=
  ∃ (key sign : Location) (name : String) (v : Value), e = .binary sign .equal (.var key name) (.literal sign v)

/-- A tree as an entry gives it. -/
inductive IsEntry : Expr → Prop
  | model (l : Location) (v : Value) : IsEntry (.literal l v)
  | conditional (l : Location) {condition : Expr} (v : Value) : IsCondition condition →
      IsEntry (.binary l .guarded condition (.literal l v))
  | dynamic (l : Location) {es : List (String × Expr)} : (∀ f ∈ es, IsVariable f.2) → IsEntry (.map l es)

/-! ## Static entries -/

theorem condition_gives : Gives condition IsCondition := by
  have hequation : ∀ (key sign : Token) (v : Value), IsCondition
      ((Expr.var key.location key.word).join sign.location .equal (.literal sign.location v)) := fun key sign v =>
    ⟨key.location, sign.location, key.word, v, Expr.join_of_le (Nat.le_of_lt BinaryOp.equal.precedence_lt) rfl⟩
  refine .after fun key => .after fun sign => .after fun t => ?_
  dsimp only
  split
  · exact .after fun v => .pure (hequation key sign v)
  · exact .after fun v => .pure (hequation key sign v)

/-- The arrow binds looser than any condition, so that it comes above. -/
theorem isEntry_guarded (l : Location) {condition : Expr} (h : IsCondition condition) (v : Value) :
    IsEntry (condition.join l .guarded (.literal l v)) := by
  have hle : BinaryOp.guarded.precedence ≤ condition.precedence := by
    obtain ⟨key, sign, name, w, rfl⟩ := h
    show BinaryOp.guarded.precedence ≤ BinaryOp.equal.precedence
    decide
  rw [Expr.join_of_le hle rfl]
  exact .conditional l v h

theorem staticEntry_gives : Gives staticEntry IsEntry := by
  refine .after fun path => .after fun p => ?_
  have hentry : ∀ v : Value, Gives (do
      if ← conditionAhead then return (← condition).join path.location .guarded (.literal path.location v)
      else return .literal path.location v) IsEntry := by
    refine fun v => .after fun conditional => ?_
    split
    · exact .bind condition_gives fun e he => .pure (isEntry_guarded path.location he v)
    · exact .pure (.model path.location v)
  dsimp only
  split
  · exact .after fun q => hentry _
  · exact .after fun q => hentry _

/-! ## Dynamic entries -/

/-- What is known of an entry is variables. -/
def Dynamic.Named (d : Dynamic) : Prop :=
  (∀ e ∈ d.path, IsVariable e) ∧ (∀ e ∈ d.skin, IsVariable e) ∧ ∀ e ∈ d.frame, IsVariable e

theorem Dynamic.Named.set {d : Dynamic} (h : d.Named) (key : String) {e : Expr} (he : IsVariable e) :
    ((d.set key e).getD d).Named := by
  obtain ⟨hpath, hskin, hframe⟩ := h
  have hsome : ∀ f ∈ some e, IsVariable f := by
    intro f hf
    cases hf
    exact he
  unfold Dynamic.set
  split
  · exact ⟨hsome, hskin, hframe⟩
  · exact ⟨hpath, hsome, hframe⟩
  · exact ⟨hpath, hskin, hsome⟩
  · exact ⟨hpath, hskin, hframe⟩

theorem dynamicKeys_gives (n : Nat) {d : Dynamic} (hd : d.Named) : Gives (dynamicKeys n d) Dynamic.Named := by
  induction n generalizing d with
  | zero =>
    intro s a s' h
    cases h
  | succ n ih =>
    rw [dynamicKeys]
    refine .after fun more => ?_
    split
    · refine .after fun key => ?_
      split
      · exact .after fun here => .refuse _ here
      · exact .after fun _ => .after fun name => ih (hd.set key.word ⟨name.location, name.word, rfl⟩)
    · exact .pure hd

theorem dynamicEntry_gives (depth : Nat) : Gives (dynamicEntry depth) IsEntry := by
  have hnone : Dynamic.Named ⟨none, none, none⟩ := by simp [Dynamic.Named]
  refine .after fun place => .bind (dynamicKeys_gives depth hnone) fun d hd => ?_
  obtain ⟨hpath, hskin, hframe⟩ := hd
  split
  · exact .after fun here => .refuse _ here
  · next path heq =>
    refine .pure (.dynamic place.location fun f hf => ?_)
    simp only [List.mem_append, List.mem_cons, List.mem_map, Option.mem_toList] at hf
    rcases hf with (rfl | ⟨e, he, rfl⟩) | ⟨e, he, rfl⟩
    · exact hpath path heq
    · exact hskin e he
    · exact hframe e he

/-! ## Lists -/

theorem entries_gives (closing : List Token.Kind) (n : Nat) : Gives (entries closing n) fun es => ∀ e ∈ es, IsEntry e := by
  induction n with
  | zero =>
    intro s a s' h
    cases h
  | succ n ih =>
    rw [entries]
    have hrest : ∀ e : Expr, IsEntry e → Gives (do
        let t ← peekExpected (.comma :: closing)
        if t.kind = .comma then
          let _ ← next
          return e :: (← entries closing n)
        else return [e]) fun es => ∀ f ∈ es, IsEntry f := by
      refine fun e he => .after fun t => ?_
      split
      · exact .after fun _ => .bind ih fun es hes => .pure (List.forall_mem_cons.2 ⟨he, hes⟩)
      · exact .pure (List.forall_mem_singleton.2 he)
    refine .after fun t => ?_
    dsimp only
    split
    · exact .bind staticEntry_gives hrest
    · exact .bind (dynamicEntry_gives n) hrest

/-- A model list is the switch of its entries. -/
theorem read_entries {closing : List Token.Kind} {c : Cursor} {e : Expr} (h : (read closing c).1 = .ok e) :
    ∃ es, e = .switch c.location es ∧ ∀ f ∈ es, IsEntry f := by
  obtain ⟨s', h⟩ := Cursor.read_ok.1 h
  obtain ⟨es, s₁, hes, h⟩ := Reading.bind_ok.1 h
  obtain ⟨rfl, -⟩ := Reading.pure_ok.1 h
  exact ⟨es.reverse, rfl, fun f hf => entries_gives _ _ _ _ _ hes f (List.mem_reverse.1 hf)⟩

end ModelList

end ExprLang
