import ExprLang.Folding
import ExprLang.Proofs.Denotation

/-!
# Folding keeps the meaning

Every node that is closed over folded operands means what the open node means (`denote_closeUnary`
and its neighbours): if the step of literals succeeds, its result is the meaning of the node, and
otherwise the node is kept. Hence a folded expression means what the expression means
(`denote_fold`), in both modes and whatever the marks begin with, and it evaluates to the same value
or to an error of the same variant (`optimize_evaluates_alike`).
-/

namespace ExprLang

variable (mode : Mode) (σ : String → Value)

/-! ## Literals -/

theorem Expr.eq_literal_of_value? {e : Expr} {v : Value} (h : e.value? = some v) : e = .literal e.location v := by
  cases e with
  | literal l w =>
    cases h
    rfl
  | _ => cases h

theorem Expr.denote_of_value? {e : Expr} {v : Value} (h : e.value? = some v) : e.denote mode σ = .ok v.bare := by
  rw [Expr.eq_literal_of_value? h, Expr.denote]

theorem denoteEntries_of_values {es : List (String × Expr)} {vs : List (String × Value)}
    (h : es.mapM (fun (k, e) => e.value?.map (k, ·)) = some vs) :
    denoteEntries mode σ es = .ok (Entries.mapValues Value.bare vs) := by
  induction es generalizing vs with
  | nil =>
    cases h
    rfl
  | cons e es ih =>
    obtain ⟨k, e⟩ := e
    rw [List.mapM_cons] at h
    cases he : e.value? with
    | none => simp [he] at h
    | some v =>
      cases hes : es.mapM (fun (k, e) => e.value?.map (k, ·)) with
      | none => simp [he, hes] at h
      | some ws =>
        simp only [he, hes] at h
        cases h
        rw [denoteEntries, Expr.denote_of_value? mode σ he, ih hes]
        rfl

theorem denoteItems_of_values {es : List Expr} {vs : List Value} (h : Expr.values? es = some vs) :
    denoteItems mode σ es = (vs.mapM Value.splice).map (·.flatten.map Value.bare) := by
  induction es generalizing vs with
  | nil =>
    cases h
    rfl
  | cons e es ih =>
    rw [Expr.values?, List.mapM_cons] at h
    cases he : e.value? with
    | none => simp [he] at h
    | some v =>
      cases hes : Expr.values? es with
      | none => rw [Expr.values?] at hes; simp [he, hes] at h
      | some ws =>
        have hw := hes
        rw [Expr.values?] at hes
        simp only [he, hes] at h
        cases h
        rw [denoteItems, Expr.denote_of_value? mode σ he, ih hw, List.mapM_cons]
        show (v.bare.splice >>= _) = _
        rw [Value.splice_bare]
        cases v.splice with
        | error => rfl
        | ok us => cases ws.mapM Value.splice <;> simp [Except.map, bind, Except.bind, pure, Except.pure]

/-! ## Nodes over folded operands -/

variable {mode σ}

/-- A literal for a result that the node means, or else the node. -/
theorem Expr.denote_ofStep {node : Expr} {r : Except Error Value}
    (h : ∀ v, r = .ok v → node.denote mode σ = .ok v.bare) (n : Nat) :
    (ofStep node r n).1.denote mode σ = node.denote mode σ := by
  cases r with
  | ok v =>
    rw [h v rfl, ← Value.bare_stamp v n]
    rfl
  | error e => rfl

variable (mode σ)

theorem Expr.denote_closeArray (l : Option Location) (items : List Expr) (n : Nat) :
    (closeArray l items n).1.denote mode σ = (Expr.array l items).denote mode σ := by
  unfold closeArray
  cases hvs : values? items with
  | none => rfl
  | some vs =>
    refine denote_ofStep (fun v hv => ?_) n
    rw [denote, denoteItems_of_values mode σ hvs]
    cases hs : vs.mapM Value.splice with
    | error e => rw [hs] at hv; cases hv
    | ok us =>
      rw [hs] at hv
      cases hv
      simp [Except.map, settled, bind, Except.bind, pure, Except.pure]

theorem Expr.denote_closeMap (l : Option Location) (entries : List (String × Expr)) (n : Nat) :
    (closeMap l entries n).1.denote mode σ = (Expr.map l entries).denote mode σ := by
  unfold closeMap
  cases hvs : entries.mapM fun (k, e) => e.value?.map (k, ·) with
  | none => rfl
  | some vs =>
    refine denote_ofStep (fun v hv => ?_) n
    cases hv
    rw [denote, denoteEntries_of_values mode σ hvs, Value.bare_map]
    rfl

theorem Expr.denote_closeUnary (l : Option Location) (op : UnaryOp) (a : Expr) (n : Nat) :
    (closeUnary l op a n).1.denote mode σ = (Expr.unary l op a).denote mode σ := by
  unfold closeUnary
  cases ha : a.value? with
  | none => rfl
  | some v =>
    refine denote_ofStep (fun w hw => ?_) n
    rw [denote, denote_of_value? mode σ ha]
    show settled mode (op.apply v.bare) = _
    rw [op.apply_bare, hw]
    rfl

section

variable {l : Option Location} {op : BinaryOp} {a b : Expr} {v : Value} (ha : a.denote mode σ = .ok v)

include ha

theorem Expr.denote_binary_done {r : Except Error Value} (h : op.afterLeft v = .done r) :
    (Expr.binary l op a b).denote mode σ = settled mode r := by
  rw [denote, ha]
  simp only [Bind.bind, Except.bind, h]

theorem Expr.denote_binary_right {finish : Value → Except Error Value} (h : op.afterLeft v = .right finish) :
    (Expr.binary l op a b).denote mode σ = settled mode (b.denote mode σ >>= finish) := by
  rw [denote, ha]
  simp only [Bind.bind, Except.bind, h]

end

theorem Expr.denote_closeBinary (l : Option Location) (op : BinaryOp) (a b : Expr) (n : Nat) :
    (closeBinary l op a b n).1.denote mode σ = (Expr.binary l op a b).denote mode σ := by
  unfold closeBinary
  cases ha : a.value? with
  | none => rfl
  | some v =>
    have left := denote_of_value? mode σ ha
    have demand := op.afterLeft_bare v
    rw [Option.map_some]
    generalize op.afterLeft v = d at demand ⊢
    generalize hbare : op.afterLeft v.bare = d' at demand
    cases demand with
    | done r =>
      refine denote_ofStep (fun w hw => ?_) n
      rw [denote_binary_done mode σ left hbare, hw]
      rfl
    | @right finish bareFinish h =>
      cases hb : b.value? with
      | none => rfl
      | some w =>
        refine denote_ofStep (fun u hu => ?_) n
        rw [denote_binary_right mode σ left hbare, denote_of_value? mode σ hb]
        show settled mode (bareFinish w.bare) = _
        rw [h, hu]
        rfl

theorem Expr.denote_closeSubscript (l : Option Location) (a b : Expr) (n : Nat) :
    (closeSubscript l a b n).1.denote mode σ = (Expr.subscript l a b).denote mode σ := by
  unfold closeSubscript
  cases ha : a.value? with
  | none => rfl
  | some v =>
    cases hb : b.value? with
    | none => rfl
    | some w =>
      refine denote_ofStep (fun u hu => ?_) n
      rw [denote, denote_of_value? mode σ ha, denote_of_value? mode σ hb]
      show settled mode (v.bare.subscript (fun _ => none) w.bare) = _
      have agrees := v.subscript_agrees (fun _ => none) w
      rw [hu] at agrees
      rw [agrees.eq_ok]
      rfl

/-- A case that is known to be undefined is passed over. -/
theorem denoteCases_dropWhile (cases : List Expr) :
    denoteCases mode σ (cases.dropWhile Expr.isUndefinedLiteral) = denoteCases mode σ cases := by
  induction cases with
  | nil => rfl
  | cons e es ih =>
    rw [List.dropWhile_cons]
    split
    · next he =>
      obtain ⟨v, hv, hu⟩ := (Option.any_eq_true _ _).1 he
      rw [ih, denoteCases, Expr.denote_of_value? mode σ hv]
      show _ = if v.bare.isUndefined then _ else _
      rw [v.isUndefined_bare, if_pos hu]
    · rfl

theorem Expr.denote_closeSwitch (l : Option Location) (cases : List Expr) (n : Nat) :
    (closeSwitch l cases n).1.denote mode σ = (Expr.switch l cases).denote mode σ := by
  rw [denote, ← denoteCases_dropWhile]
  unfold closeSwitch
  cases hc : cases.dropWhile isUndefinedLiteral with
  | nil => rfl
  | cons e es =>
    have he : e.isUndefinedLiteral = false := by
      have h := List.head?_dropWhile_not isUndefinedLiteral cases
      rwa [hc] at h
    cases e with
    | literal place v =>
      show Except.ok v.bare = settled mode (if v.bare.isUndefined then _ else _)
      rw [v.isUndefined_bare, if_neg (by simpa [isUndefinedLiteral, value?] using he)]
      rfl
    | _ => rfl

/-! ## Items -/

theorem denoteItems_append (es fs : List Expr) : denoteItems mode σ (es ++ fs) = (do
    let vs ← denoteItems mode σ es
    return vs ++ (← denoteItems mode σ fs)) := by
  induction es with
  | nil => cases h : denoteItems mode σ fs <;> simp [h, denoteItems, bind, Except.bind, pure, Except.pure]
  | cons e es ih =>
    rw [List.cons_append, denoteItems, denoteItems, ih]
    cases e.denote mode σ with
    | error => rfl
    | ok v =>
      cases hv : v.splice with
      | error => simp [hv, bind, Except.bind]
      | ok us =>
        cases denoteItems mode σ es with
        | error => simp [hv, bind, Except.bind]
        | ok vs => cases denoteItems mode σ fs <;> simp [hv, bind, Except.bind, pure, Except.pure]

/-- New literals for values that are no ranges are items that stand for them. -/
theorem denoteItems_literals (place : Option Location) {ns : List Value} (hn : ∀ v ∈ ns, v.kind ≠ .range) (n : Nat) :
    denoteItems mode σ ((ns.mapM fun v => do return .literal place (← v.stamp) : Supply (List Expr)) n).1 =
      .ok (ns.map Value.bare) := by
  induction ns generalizing n with
  | nil => rfl
  | cons v ns ih =>
    have rest := ih (fun w hw => hn w (List.mem_cons_of_mem _ hw)) (v.stamp n).2
    rw [List.mapM_cons]
    show denoteItems mode σ (.literal place (v.stamp n).1 ::
      ((ns.mapM fun v => do return .literal place (← v.stamp) : Supply (List Expr)) (v.stamp n).2).1) = _
    rw [denoteItems, Expr.denote, Value.bare_stamp, rest]
    show (v.bare.splice >>= _) = _
    rw [Value.splice_bare, Value.splice, if_neg (hn v List.mem_cons_self)]
    rfl

theorem denoteItems_spliceItem (e : Expr) (es : List Expr) (n : Nat) :
    denoteItems mode σ ((Expr.spliceItem e n).1 ++ es) = denoteItems mode σ (e :: es) := by
  unfold Expr.spliceItem
  cases hv : e.value? with
  | none => rfl
  | some v =>
    obtain ⟨m, c⟩ := v
    cases c with
    | range r =>
      cases r with
      | between first last =>
        have numbers : ∀ v ∈ Value.integers first last, v.kind ≠ .range := by
          intro v hm
          obtain ⟨i, -, rfl⟩ := List.mem_map.1 hm
          exact Kind.noConfusion
        have literals := denoteItems_literals mode σ e.location numbers n
        show denoteItems mode σ ((((Value.integers first last).mapM _ : Supply (List Expr)) n).1 ++ es) = _
        rw [denoteItems_append, literals, denoteItems, Expr.denote_of_value? mode σ hv, Value.map_bare_integers]
        rfl
      | _ => rfl
    | _ => rfl

/-! ## Whole expressions -/

mutual

theorem Expr.denote_fold : ∀ (e : Expr) (n : Nat), (e.fold n).1.denote mode σ = e.denote mode σ
  | .literal _ _, _ | .var _ _, _ => rfl
  | .array l items, n => by
    rw [Expr.fold]
    show (Expr.closeArray l (foldItems items n).1 (foldItems items n).2).1.denote mode σ = _
    rw [Expr.denote_closeArray, Expr.denote, Expr.denote, denoteItems_foldItems items n]
  | .map l entries, n => by
    rw [Expr.fold]
    show (Expr.closeMap l (foldEntries entries n).1 (foldEntries entries n).2).1.denote mode σ = _
    rw [Expr.denote_closeMap, Expr.denote, Expr.denote, denoteEntries_foldEntries entries n]
  | .unary l op a, n => by
    rw [Expr.fold]
    show (Expr.closeUnary l op (a.fold n).1 (a.fold n).2).1.denote mode σ = _
    rw [Expr.denote_closeUnary, Expr.denote, Expr.denote, Expr.denote_fold a n]
  | .binary l op a b, n => by
    rw [Expr.fold]
    show (Expr.closeBinary l op (a.fold n).1 (b.fold (a.fold n).2).1 (b.fold (a.fold n).2).2).1.denote mode σ = _
    rw [Expr.denote_closeBinary, Expr.denote, Expr.denote, Expr.denote_fold a n, Expr.denote_fold b (a.fold n).2]
  | .subscript l a b, n => by
    rw [Expr.fold]
    show (Expr.closeSubscript l (a.fold n).1 (b.fold (a.fold n).2).1 (b.fold (a.fold n).2).2).1.denote mode σ = _
    rw [Expr.denote_closeSubscript, Expr.denote, Expr.denote, Expr.denote_fold a n, Expr.denote_fold b (a.fold n).2]
  | .switch l cases, n => by
    rw [Expr.fold]
    show (Expr.closeSwitch l (foldCases cases n).1 (foldCases cases n).2).1.denote mode σ = _
    rw [Expr.denote_closeSwitch, Expr.denote, Expr.denote, denoteCases_foldCases cases n]

theorem denoteItems_foldItems : ∀ (es : List Expr) (n : Nat),
    denoteItems mode σ (foldItems es n).1 = denoteItems mode σ es
  | [], _ => rfl
  | e :: es, n => by
    rw [foldItems]
    show denoteItems mode σ ((Expr.spliceItem (e.fold n).1 (e.fold n).2).1 ++ (foldItems es _).1) = _
    rw [denoteItems_spliceItem, denoteItems, denoteItems, Expr.denote_fold e n, denoteItems_foldItems es _]

theorem denoteEntries_foldEntries : ∀ (es : List (String × Expr)) (n : Nat),
    denoteEntries mode σ (foldEntries es n).1 = denoteEntries mode σ es
  | [], _ => rfl
  | (k, e) :: es, n => by
    rw [foldEntries]
    show denoteEntries mode σ ((k, (e.fold n).1) :: (foldEntries es (e.fold n).2).1) = _
    rw [denoteEntries, denoteEntries, Expr.denote_fold e n, denoteEntries_foldEntries es _]

theorem denoteCases_foldCases : ∀ (es : List Expr) (n : Nat),
    denoteCases mode σ (foldCases es n).1 = denoteCases mode σ es
  | [], _ => rfl
  | e :: es, n => by
    rw [foldCases]
    show denoteCases mode σ ((e.fold n).1 :: (foldCases es (e.fold n).2).1) = _
    rw [denoteCases, denoteCases, Expr.denote_fold e n, denoteCases_foldCases es _]

end

/-! ## Outcomes -/

/-- The kinds of errors that a caller tells apart. -/
inductive Error.Variant where
  | parse | conversion | dereference | evaluation | index | outOfBounds | alreadyDeclared | undeclared
deriving DecidableEq

def Error.variant : Error → Variant
  | .parse .. => .parse
  | .conversion .. => .conversion
  | .dereference .. => .dereference
  | .evaluation .. => .evaluation
  | .index .. => .index
  | .outOfBounds .. => .outOfBounds
  | .alreadyDeclared _ => .alreadyDeclared
  | .undeclared _ => .undeclared

/-- The cause of an error that has its expression is an error of the same variant. -/
theorem Error.variant_bare {e : Error} (h : e.awaitsExpression = false) : e.bare.variant = e.variant := by
  cases e with
  | conversion | dereference => cases h
  | _ => rfl

/-- Two outcomes that are values alike up to marks, or errors of one variant. -/
def Outcome.Alike : Except Error Value → Except Error Value → Prop
  | .ok v, .ok w => v.bare = w.bare
  | .error e, .error f => e.variant = f.variant
  | _, _ => False

/-- Two runs that agree with one meaning have outcomes alike. -/
theorem Expr.alike_of_agrees {mode : Mode} {e e' : Expr} {c c' : Context} {r : Except Error Value}
    (h : Agrees Value.bare (e.run mode c).1 r) (h' : Agrees Value.bare (e'.run mode c').1 r) :
    Outcome.Alike (e.run mode c).1 (e'.run mode c').1 := by
  have awaits : ∀ err, (e.run mode c).1 = .error err → err.awaitsExpression = false := fun _ => run_error
  have awaits' : ∀ err, (e'.run mode c').1 = .error err → err.awaitsExpression = false := fun _ => run_error
  generalize (e.run mode c).1 = o at h awaits ⊢
  generalize (e'.run mode c').1 = o' at h' awaits' ⊢
  cases h with
  | ok v =>
    cases o' with
    | ok w => exact Except.ok.inj h'.eq_ok
    | error => cases h'
  | @error err t ht =>
    cases h' with
    | @error err' _ ht' =>
      show err.variant = err'.variant
      rw [← Error.variant_bare (awaits _ rfl), ← Error.variant_bare (awaits' _ rfl), ht, ht']

/-- Evaluating a folded expression gives the value that the expression gives, up to marks, or an error of
the same variant, whatever has been traced; lenient evaluation always gives the same value. -/
theorem Expr.optimize_evaluates_alike (e : Expr) (s : Store) (t u : Trace) (m n : Nat) :
    Outcome.Alike (e.optimize.evaluate ⟨s, t, m⟩).1 (e.evaluate ⟨s, u, n⟩).1 ∧
      (e.optimize.tryEvaluate ⟨s, t, m⟩).1.bare = (e.tryEvaluate ⟨s, u, n⟩).1.bare := by
  have folded : ∀ mode, e.optimize.denote mode s.values = e.denote mode s.values := fun mode =>
    denote_fold mode s.values e e.nextMark
  constructor
  · have optimized := (run_yields .strict s e.optimize ⟨s, t, m⟩ rfl).2
    rw [folded] at optimized
    exact alike_of_agrees optimized (run_yields .strict s e ⟨s, u, n⟩ rfl).2
  · rw [tryEvaluate_bare, tryEvaluate_bare, folded]

end ExprLang
