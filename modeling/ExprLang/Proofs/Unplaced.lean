import ExprLang.Proofs.Denotation
import ExprLang.Proofs.Parser.Reads

/-!
# Expressions without locations

`Expr.unplaced` takes the locations off all nodes. What reading builds does not depend on them: it
commutes with joining operators, with applying subscripts and with collecting entries. Neither does
the meaning of an expression (`Expr.denote_unplaced`).
-/

namespace ExprLang

mutual

/-- The expression with no node that knows its location. -/
def Expr.unplaced : Expr → Expr
  | .literal _ v => .literal none v
  | .var _ name => .var none name
  | .array _ items => .array none (unplacedItems items)
  | .map _ entries => .map none (unplacedEntries entries)
  | .unary _ op a => .unary none op a.unplaced
  | .binary _ op a b => .binary none op a.unplaced b.unplaced
  | .subscript _ a b => .subscript none a.unplaced b.unplaced
  | .switch _ cases => .switch none (unplacedItems cases)

def unplacedItems : List Expr → List Expr
  | [] => []
  | e :: es => e.unplaced :: unplacedItems es

def unplacedEntries : List (String × Expr) → List (String × Expr)
  | [] => []
  | (k, e) :: es => (k, e.unplaced) :: unplacedEntries es

end

@[simp] theorem unplacedItems_eq (es : List Expr) : unplacedItems es = es.map Expr.unplaced := by
  induction es with
  | nil => rfl
  | cons e es ih => rw [unplacedItems, ih, List.map_cons]

@[simp] theorem unplacedEntries_eq (es : List (String × Expr)) :
    unplacedEntries es = Entries.mapValues Expr.unplaced es := by
  induction es with
  | nil => rfl
  | cons e es ih =>
    obtain ⟨k, e⟩ := e
    rw [unplacedEntries, ih, Entries.mapValues_cons]

/-! ## Building -/

namespace Expr

@[simp] theorem precedence_unplaced (e : Expr) : e.unplaced.precedence = e.precedence := by
  cases e <;> rfl

/-- Where an operator goes is decided by precedences. -/
theorem unplaced_join (l : Option Location) (op : BinaryOp) (a b : Expr) :
    (a.join l op b).unplaced = a.unplaced.join none op b.unplaced := by
  fun_induction join l op a b with
  | case1 a b h =>
    rw [join.eq_def, precedence_unplaced, precedence_unplaced, if_pos h]
    rfl
  | case2 b here above a₁ a₂ h h' ih =>
    rw [join.eq_def none op (binary here above a₁ a₂).unplaced, precedence_unplaced, precedence_unplaced, if_neg h,
      if_pos h', unplaced, unplaced, ih]
  | case3 a b h h' ha =>
    rw [join.eq_def, precedence_unplaced, precedence_unplaced, if_neg h, if_pos h']
    cases a with
    | binary here above a₁ a₂ => exact absurd rfl (ha here above a₁ a₂)
    | _ => rfl
  | case4 a here above b₁ b₂ h h' ih =>
    rw [join.eq_def none op a.unplaced (binary here above b₁ b₂).unplaced, precedence_unplaced, precedence_unplaced,
      if_neg h, if_neg h', unplaced, unplaced, ih]
  | case5 a b h h' hb =>
    rw [join.eq_def, precedence_unplaced, precedence_unplaced, if_neg h, if_neg h']
    cases b with
    | binary here above b₁ b₂ => exact absurd rfl (hb here above b₁ b₂)
    | _ => rfl

end Expr

def Joint.unplaced (j : Joint) : Joint := ⟨j.op, none, j.right.unplaced⟩

theorem Expr.unplaced_joinAll (js : List Joint) (t : Expr) :
    (t.joinAll js).unplaced = t.unplaced.joinAll (js.map Joint.unplaced) := by
  induction js generalizing t with
  | nil => rfl
  | cons j js ih => rw [joinAll_cons, ih, unplaced_join, List.map_cons, joinAll_cons, Joint.unplaced]

/-- The index of a subscript, without locations. -/
def Expr.unplacedIndex (i : Location × List Expr) : Expr := (Expr.ofIndices i.1 i.2).unplaced

theorem Expr.unplacedIndex_eq (l : Location) (es : List Expr) :
    unplacedIndex (l, es) = ofIndices none (es.map unplaced) := by
  match es with
  | [e] => rfl
  | [] => rfl
  | e :: f :: es =>
    show Expr.array none (unplacedItems _) = _
    rw [unplacedItems_eq]
    rfl

theorem Expr.unplaced_subscriptAll (subs : List (Location × List Expr)) (b : Expr) :
    (b.subscriptAll subs).unplaced = (subs.map unplacedIndex).foldl (Expr.subscript none) b.unplaced := by
  induction subs generalizing b with
  | nil => rfl
  | cons i subs ih =>
    rw [subscriptAll_cons, ih]
    rfl

/-- How many indices there are is all that counts besides the indices. -/
theorem Expr.unplaced_ofIndices {l l' : Option Location} {es fs : List Expr}
    (h : es.map unplaced = fs.map unplaced) : (ofIndices l es).unplaced = (ofIndices l' fs).unplaced := by
  match es, fs with
  | [e], [f] => exact List.head_eq_of_cons_eq h
  | [], [] => rfl
  | e :: e' :: es, f :: f' :: fs =>
    show Expr.array none (unplacedItems _) = Expr.array none (unplacedItems _)
    rw [unplacedItems_eq, unplacedItems_eq, h]
  | [], _ :: _ | _ :: _, [] | [_], _ :: _ :: _ | _ :: _ :: _, [_] => simp at h

theorem Entries.insertNew_mapValues {α β : Type} (f : α → β) (es : Entries α) (k : String) (v : α) :
    insertNew (mapValues f es) k (f v) = mapValues f (insertNew es k v) := by
  have hcontains : contains (mapValues f es) k = contains es k := by
    simp [contains, find?_mapValues]
  unfold insertNew
  rw [hcontains]
  split
  · rfl
  · simp [mapValues]

theorem Entries.insertAll_mapValues {α β : Type} (f : α → β) (fs es : Entries α) :
    insertAll (mapValues f es) (mapValues f fs) = mapValues f (insertAll es fs) := by
  unfold insertAll
  induction fs generalizing es with
  | nil => rfl
  | cons e fs ih =>
    obtain ⟨k, v⟩ := e
    rw [mapValues_cons, List.foldl_cons, List.foldl_cons, insertNew_mapValues, ih]

/-! ## Meanings -/

mutual

theorem Expr.denote_unplaced (mode : Mode) (σ : String → Value) : ∀ e : Expr,
    e.unplaced.denote mode σ = e.denote mode σ
  | .literal _ _ | .var _ _ => rfl
  | .array _ items => by rw [Expr.unplaced, Expr.denote, Expr.denote, denoteItems_unplaced mode σ items]
  | .map _ entries => by rw [Expr.unplaced, Expr.denote, Expr.denote, denoteEntries_unplaced mode σ entries]
  | .unary _ _ a => by rw [Expr.unplaced, Expr.denote, Expr.denote, Expr.denote_unplaced mode σ a]
  | .binary _ _ a b => by
    rw [Expr.unplaced, Expr.denote, Expr.denote, Expr.denote_unplaced mode σ a, Expr.denote_unplaced mode σ b]
  | .subscript _ a b => by
    rw [Expr.unplaced, Expr.denote, Expr.denote, Expr.denote_unplaced mode σ a, Expr.denote_unplaced mode σ b]
  | .switch _ cases => by rw [Expr.unplaced, Expr.denote, Expr.denote, denoteCases_unplaced mode σ cases]

theorem denoteItems_unplaced (mode : Mode) (σ : String → Value) : ∀ es : List Expr,
    denoteItems mode σ (unplacedItems es) = denoteItems mode σ es
  | [] => rfl
  | e :: es => by
    rw [unplacedItems, denoteItems, denoteItems, Expr.denote_unplaced mode σ e, denoteItems_unplaced mode σ es]

theorem denoteEntries_unplaced (mode : Mode) (σ : String → Value) : ∀ es : List (String × Expr),
    denoteEntries mode σ (unplacedEntries es) = denoteEntries mode σ es
  | [] => rfl
  | (k, e) :: es => by
    rw [unplacedEntries, denoteEntries, denoteEntries, Expr.denote_unplaced mode σ e,
      denoteEntries_unplaced mode σ es]

theorem denoteCases_unplaced (mode : Mode) (σ : String → Value) : ∀ es : List Expr,
    denoteCases mode σ (unplacedItems es) = denoteCases mode σ es
  | [] => rfl
  | e :: es => by
    rw [unplacedItems, denoteCases, denoteCases, Expr.denote_unplaced mode σ e, denoteCases_unplaced mode σ es]

end

/-- Expressions that differ in locations only mean the same. -/
theorem Expr.denote_eq_of_unplaced_eq {e f : Expr} (h : e.unplaced = f.unplaced) (mode : Mode) (σ : String → Value) :
    e.denote mode σ = f.denote mode σ := by
  rw [← e.denote_unplaced, h, f.denote_unplaced]

end ExprLang
