import ExprLang.Proofs.Folding.Invariant

/-!
# What has been folded stays

- `ClosesOnce`: over operands that stay, a node becomes a literal or stays as well, and then no mark is used.
- `Expr.optimize_optimize`: hence a folded expression is folded to itself.
- `Expr.location_fold`: a folded node stands where it stood; if it is no literal, only its operands have been folded
  (`fold_array_of_open` and so on).
-/

namespace ExprLang

namespace Expr

/-- Folding does nothing to the expression. -/
def Stable (e : Expr) : Prop := ∀ n, e.fold n = (e, n)

theorem stable_of_isLiteral {e : Expr} (h : e.isLiteral = true) : e.Stable := by
  cases e with
  | literal l v => exact fun _ => rfl
  | _ => cases h

/-! ## Closed nodes -/

/-- Closing a node makes a literal of it, in the same place, or else does nothing. -/
def ClosesOnce (node : Expr) (close : Supply Expr) : Prop :=
  (∀ n, ∃ v, (close n).1 = .literal node.location v) ∨ ∀ n, close n = (node, n)

theorem closesOnce_ofStep (node : Expr) (r : Except Error Value) : ClosesOnce node (ofStep node r) := by
  cases r with
  | ok v => exact .inl fun _ => ⟨_, rfl⟩
  | error e => exact .inr fun _ => rfl

theorem closesOnce_array (l : Option Location) (items : List Expr) :
    ClosesOnce (.array l items) (closeArray l items) := by
  unfold closeArray
  split
  · exact closesOnce_ofStep _ _
  · exact .inr fun _ => rfl

theorem closesOnce_map (l : Option Location) (entries : List (String × Expr)) :
    ClosesOnce (.map l entries) (closeMap l entries) := by
  unfold closeMap
  split
  · exact closesOnce_ofStep _ _
  · exact .inr fun _ => rfl

theorem closesOnce_unary (l : Option Location) (op : UnaryOp) (a : Expr) :
    ClosesOnce (.unary l op a) (closeUnary l op a) := by
  unfold closeUnary
  split
  · exact closesOnce_ofStep _ _
  · exact .inr fun _ => rfl

theorem closesOnce_binary (l : Option Location) (op : BinaryOp) (a b : Expr) :
    ClosesOnce (.binary l op a b) (closeBinary l op a b) := by
  unfold closeBinary
  split
  · exact closesOnce_ofStep _ _
  · exact closesOnce_ofStep _ _
  · exact .inr fun _ => rfl

theorem closesOnce_subscript (l : Option Location) (a b : Expr) :
    ClosesOnce (.subscript l a b) (closeSubscript l a b) := by
  unfold closeSubscript
  split
  · exact closesOnce_ofStep _ _
  · exact .inr fun _ => rfl

/-- A node that is folded by closing it over operands that stay is stable once it is closed. -/
theorem ClosesOnce.stable {node : Expr} {close : Supply Expr} (h : ClosesOnce node close)
    (hfold : ∀ n, node.fold n = close n) (n : Nat) : (close n).1.Stable := by
  rcases h with h | h
  · obtain ⟨v, hv⟩ := h n
    rw [hv]
    exact stable_of_isLiteral rfl
  · rw [h n]
    exact fun m => (hfold m).trans (h m)

/-- What is left of a switch begins with a case that is no literal, and so nothing more is dropped from it. -/
theorem closeSwitch_cases (l : Option Location) (cases : List Expr) :
    (∀ n, ∃ v, (closeSwitch l cases n).1 = .literal l v) ∨
      ∃ rest, rest ⊆ cases ∧ (∀ n, closeSwitch l cases n = (.switch l rest, n)) ∧
        ∀ n, closeSwitch l rest n = (.switch l rest, n) := by
  have hsub : cases.dropWhile isUndefinedLiteral ⊆ cases := List.dropWhile_subset _
  unfold closeSwitch
  cases hrest : cases.dropWhile isUndefinedLiteral with
  | nil => exact .inl fun _ => ⟨_, rfl⟩
  | cons e es =>
    rw [hrest] at hsub
    cases e with
    | literal place v => exact .inl fun _ => ⟨_, rfl⟩
    | _ => exact .inr ⟨_, hsub, fun _ => rfl, fun _ => rfl⟩

/-! ### Properties of all nodes -/

section

variable {P : Expr → Prop}

/-- Closing keeps what holds of all nodes, and of literals in the same place. -/
theorem ClosesOnce.each {node : Expr} {close : Supply Expr} (h : ClosesOnce node close)
    (hliteral : ∀ v, P (.literal node.location v)) (hnode : node.Each P) (n : Nat) : (close n).1.Each P := by
  rcases h with h | h
  · obtain ⟨v, hv⟩ := h n
    rw [hv]
    exact each_literal.2 (hliteral v)
  · rw [h n]
    exact hnode

theorem each_closeSwitch {l : Option Location} {cases : List Expr} (hliteral : ∀ v, P (.literal l v))
    (hnode : ∀ rest, rest ⊆ cases → P (.switch l rest)) (hcases : ∀ e ∈ cases, e.Each P) (n : Nat) :
    (closeSwitch l cases n).1.Each P := by
  rcases closeSwitch_cases l cases with hclose | ⟨rest, hsub, hclose, -⟩
  · obtain ⟨v, hv⟩ := hclose n
    rw [hv]
    exact each_literal.2 (hliteral v)
  · rw [hclose n]
    exact each_switch.2 ⟨hnode rest hsub, fun e he => hcases e (hsub he)⟩

end

end Expr

/-! ## Lists of stable parts -/

theorem foldItems_of_stable {es : List Expr} (h : ∀ e ∈ es, e.Stable ∧ e.Single) (n : Nat) : foldItems es n = (es, n) := by
  induction es with
  | nil => rfl
  | cons e es ih =>
    obtain ⟨⟨hstable, hsingle⟩, hes⟩ := List.forall_mem_cons.1 h
    rw [foldItems]
    show ((Expr.spliceItem (e.fold n).1 (e.fold n).2).1 ++ (foldItems es (Expr.spliceItem (e.fold n).1 (e.fold n).2).2).1,
      (foldItems es (Expr.spliceItem (e.fold n).1 (e.fold n).2).2).2) = _
    rw [hstable n, hsingle n, ih hes]
    rfl

theorem foldEntries_of_stable {es : List (String × Expr)} (h : ∀ f ∈ es, f.2.Stable) (n : Nat) :
    foldEntries es n = (es, n) := by
  induction es with
  | nil => rfl
  | cons f es ih =>
    obtain ⟨hstable, hes⟩ := List.forall_mem_cons.1 h
    rw [foldEntries]
    show ((f.1, (f.2.fold n).1) :: (foldEntries es (f.2.fold n).2).1, (foldEntries es (f.2.fold n).2).2) = _
    rw [hstable n, ih hes]

theorem foldCases_of_stable {es : List Expr} (h : ∀ e ∈ es, e.Stable) (n : Nat) : foldCases es n = (es, n) := by
  induction es with
  | nil => rfl
  | cons e es ih =>
    obtain ⟨hstable, hes⟩ := List.forall_mem_cons.1 h
    rw [foldCases]
    show ((e.fold n).1 :: (foldCases es (e.fold n).2).1, (foldCases es (e.fold n).2).2) = _
    rw [hstable n, ih hes]

/-! ## Closing over stable parts -/

namespace Expr

variable {l : Option Location}

theorem stable_closeArray {items : List Expr} (h : ∀ e ∈ items, e.Stable ∧ e.Single) (n : Nat) :
    (closeArray l items n).1.Stable :=
  (closesOnce_array l items).stable (fun m => by
    rw [fold]
    show closeArray l (foldItems items m).1 (foldItems items m).2 = _
    rw [foldItems_of_stable h]) n

theorem stable_closeMap {entries : List (String × Expr)} (h : ∀ f ∈ entries, f.2.Stable) (n : Nat) :
    (closeMap l entries n).1.Stable :=
  (closesOnce_map l entries).stable (fun m => by
    rw [fold]
    show closeMap l (foldEntries entries m).1 (foldEntries entries m).2 = _
    rw [foldEntries_of_stable h]) n

theorem stable_closeUnary {op : UnaryOp} {a : Expr} (ha : a.Stable) (n : Nat) : (closeUnary l op a n).1.Stable :=
  (closesOnce_unary l op a).stable (fun m => by
    rw [fold]
    show closeUnary l op (a.fold m).1 (a.fold m).2 = _
    rw [ha m]) n

theorem stable_closeBinary {op : BinaryOp} {a b : Expr} (ha : a.Stable) (hb : b.Stable) (n : Nat) :
    (closeBinary l op a b n).1.Stable :=
  (closesOnce_binary l op a b).stable (fun m => by
    rw [fold]
    show closeBinary l op (a.fold m).1 (b.fold (a.fold m).2).1 (b.fold (a.fold m).2).2 = _
    rw [ha m, hb m]) n

theorem stable_closeSubscript {a b : Expr} (ha : a.Stable) (hb : b.Stable) (n : Nat) :
    (closeSubscript l a b n).1.Stable :=
  (closesOnce_subscript l a b).stable (fun m => by
    rw [fold]
    show closeSubscript l (a.fold m).1 (b.fold (a.fold m).2).1 (b.fold (a.fold m).2).2 = _
    rw [ha m, hb m]) n

theorem stable_closeSwitch {cases : List Expr} (h : ∀ e ∈ cases, e.Stable) (n : Nat) :
    (closeSwitch l cases n).1.Stable := by
  rcases closeSwitch_cases l cases with hliteral | ⟨rest, hsub, hclose, hagain⟩
  · obtain ⟨v, hv⟩ := hliteral n
    rw [hv]
    exact stable_of_isLiteral rfl
  · rw [hclose n]
    intro m
    rw [fold]
    show closeSwitch l (foldCases rest m).1 (foldCases rest m).2 = _
    rw [foldCases_of_stable fun e he => h e (hsub he), hagain m]

end Expr

/-! ## Whole expressions -/

theorem Expr.foldInvariant_stable : FoldInvariant (fun _ => True) Stable where
  literal _ _ := rfl
  var _ _ := rfl
  integer _ _ _ _ := rfl
  array n _ h := stable_closeArray h n
  map n _ _ h := stable_closeMap h n
  unary n _ ha := stable_closeUnary ha n
  binary n _ ha hb := stable_closeBinary ha hb n
  subscript n _ ha hb := stable_closeSubscript ha hb n
  switch n _ h := stable_closeSwitch h n

/-- A folded expression is folded to itself, its objects included. -/
theorem Expr.optimize_optimize (e : Expr) : e.optimize.optimize = e.optimize := by
  have hstable : e.optimize.Stable := foldInvariant_stable.fold (fun _ _ => trivial) e.nextMark
  rw [optimize, hstable]

/-! ## Folded nodes stand where they stood -/

namespace Expr

variable {node : Expr} {close : Supply Expr} {n : Nat} {l : Option Location}

theorem ClosesOnce.location_eq (h : ClosesOnce node close) (n : Nat) : (close n).1.location = node.location := by
  rcases h with h | h
  · obtain ⟨v, hv⟩ := h n
    rw [hv]
    rfl
  · rw [h n]

/-- A node that is no literal once it is closed is the open node. -/
theorem ClosesOnce.eq_of_open (h : ClosesOnce node close) (hopen : (close n).1.value? = none) : close n = (node, n) := by
  rcases h with h | h
  · obtain ⟨v, hv⟩ := h n
    rw [hv] at hopen
    cases hopen
  · exact h n

theorem closeSwitch_eq_of_open {cases : List Expr} (hopen : (closeSwitch l cases n).1.value? = none) :
    closeSwitch l cases n = (.switch l (cases.dropWhile isUndefinedLiteral), n) := by
  unfold closeSwitch at hopen ⊢
  cases hrest : cases.dropWhile isUndefinedLiteral with
  | nil =>
    rw [hrest] at hopen
    cases hopen
  | cons e es =>
    rw [hrest] at hopen
    cases e with
    | literal => cases hopen
    | _ => rfl

theorem location_fold (e : Expr) (n : Nat) : (e.fold n).1.location = e.location := by
  cases e with
  | literal | var => rfl
  | array => rw [fold]; exact (closesOnce_array _ _).location_eq _
  | map => rw [fold]; exact (closesOnce_map _ _).location_eq _
  | unary => rw [fold]; exact (closesOnce_unary _ _ _).location_eq _
  | binary => rw [fold]; exact (closesOnce_binary _ _ _ _).location_eq _
  | subscript => rw [fold]; exact (closesOnce_subscript _ _ _).location_eq _
  | switch l cases =>
    rw [fold]
    show (closeSwitch l (foldCases cases n).1 (foldCases cases n).2).1.location = l
    rcases closeSwitch_cases l (foldCases cases n).1 with hliteral | ⟨rest, -, hclose, -⟩
    · obtain ⟨v, hv⟩ := hliteral (foldCases cases n).2
      rw [hv]
      rfl
    · rw [hclose]
      rfl

/-! ### Nodes that stay open -/

theorem fold_array_of_open {items : List Expr} (hopen : ((array l items).fold n).1.value? = none) :
    (array l items).fold n = (.array l (foldItems items n).1, (foldItems items n).2) := by
  rw [fold] at hopen ⊢
  exact (closesOnce_array _ _).eq_of_open hopen

theorem fold_map_of_open {entries : List (String × Expr)} (hopen : ((map l entries).fold n).1.value? = none) :
    (map l entries).fold n = (.map l (foldEntries entries n).1, (foldEntries entries n).2) := by
  rw [fold] at hopen ⊢
  exact (closesOnce_map _ _).eq_of_open hopen

theorem fold_unary_of_open {op : UnaryOp} {a : Expr} (hopen : ((unary l op a).fold n).1.value? = none) :
    (unary l op a).fold n = (.unary l op (a.fold n).1, (a.fold n).2) := by
  rw [fold] at hopen ⊢
  exact (closesOnce_unary _ _ _).eq_of_open hopen

theorem fold_binary_of_open {op : BinaryOp} {a b : Expr} (hopen : ((binary l op a b).fold n).1.value? = none) :
    (binary l op a b).fold n = (.binary l op (a.fold n).1 (b.fold (a.fold n).2).1, (b.fold (a.fold n).2).2) := by
  rw [fold] at hopen ⊢
  exact (closesOnce_binary _ _ _ _).eq_of_open hopen

theorem fold_subscript_of_open {a b : Expr} (hopen : ((subscript l a b).fold n).1.value? = none) :
    (subscript l a b).fold n = (.subscript l (a.fold n).1 (b.fold (a.fold n).2).1, (b.fold (a.fold n).2).2) := by
  rw [fold] at hopen ⊢
  exact (closesOnce_subscript _ _ _).eq_of_open hopen

theorem fold_switch_of_open {cases : List Expr} (hopen : ((switch l cases).fold n).1.value? = none) :
    (switch l cases).fold n =
      (.switch l ((foldCases cases n).1.dropWhile isUndefinedLiteral), (foldCases cases n).2) := by
  rw [fold] at hopen ⊢
  exact closeSwitch_eq_of_open hopen

end Expr

end ExprLang
