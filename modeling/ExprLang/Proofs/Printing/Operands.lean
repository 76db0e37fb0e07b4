import ExprLang.Proofs.Printing.RoundTrip
import ExprLang.Proofs.Unplaced

/-!
# Expressions read off their words

What is read off words, up to locations, is put together of operands and the signs between them.

* `Expr.applied`: where a subscript goes that is written behind an operand.
* `OperandOff`: a term is read off words, with the subscripts that follow it.
* `Row`: operands and signs in turn, in the order of precedence climbing.
* `Row.reads`: a row is read as the expression that it shows.
-/

namespace ExprLang

open Lexeme

/-! ## Signs and subscripts -/

def UnaryOp.isSign : UnaryOp → Bool
  | plus | minus | not | bitNot => true
  | _ => false

def UnaryOp.sign : UnaryOp → Token.Kind
  | plus => .plus
  | minus => .minus
  | not => .bang
  | bitNot => .tilde
  | _ => .dots

theorem UnaryOp.ofKind?_sign {op : UnaryOp} (h : op.isSign = true) : UnaryOp.ofKind? op.sign = some op := by
  cases op <;> first | rfl | cases h

theorem UnaryOp.words_of_sign {op : UnaryOp} (h : op.isSign = true) (ws : List Lexeme) :
    op.words ws = Lexeme.sign op.sign :: ws := words_of_ofKind? (ofKind?_sign h) ws

namespace Expr

/-- A subscript that is written behind an operand. It goes to what a sign stands before, unless that is a switch. -/
def applied : Expr → Expr → Expr
  | unary l op a, i => if op.isSign && !a.isSwitch then unary l op (a.applied i) else subscript none (unary l op a) i
  | e, i => subscript none e i

/-- Whether a subscript behind an operand is one of the whole operand. -/
def TakesSubscripts (e : Expr) : Prop := ∀ i, e.applied i = subscript none e i

theorem takesSubscripts_of_standsApart {e : Expr} (h : e.standsApart = true) : e.TakesSubscripts := fun i => by
  cases e with
  | unary l op a =>
    have hsign : (op.isSign && !a.isSwitch) = false := by
      rcases Bool.or_eq_true_iff.1 h with h | h
      · rw [eq_of_beq h]
        rfl
      · rw [h, Bool.not_true, Bool.and_false]
    simp [applied, hsign]
  | _ => rfl

/-- Behind the first of them, further subscripts are those of a subscript. -/
theorem TakesSubscripts.foldl : ∀ (is : List Expr) {e : Expr}, e.TakesSubscripts →
    is.foldl applied e = is.foldl (subscript none) e
  | [], _, _ => rfl
  | i :: is, e, h => by
    rw [List.foldl_cons, List.foldl_cons, h i]
    exact foldl is fun _ => rfl

theorem isSwitch_applied (e i : Expr) : (e.applied i).isSwitch = false := by
  cases e with
  | unary l op a =>
    rw [applied]
    split <;> rfl
  | _ => rfl

/-- Behind a sign and an operand that takes them, subscripts go to the operand. -/
theorem foldl_applied_unary {op : UnaryOp} (hop : op.isSign = true) (l : Option Location) :
    ∀ (is : List Expr) {a : Expr}, a.isSwitch = false → is.foldl applied (unary l op a) = unary l op (is.foldl applied a)
  | [], _, _ => rfl
  | i :: is, a, ha => by
    rw [List.foldl_cons, List.foldl_cons, ← foldl_applied_unary hop l is (isSwitch_applied a i), applied, hop, ha]
    rfl

theorem applied_not_binary (e i : Expr) : (e.applied i).isBinary = false := by
  cases e with
  | unary l op a =>
    rw [applied]
    split <;> rfl
  | _ => rfl

end Expr

/-! ## Operands -/

/-- Off words and the subscripts behind them a term is read. Behind a switch there are none. -/
def OperandOff (ws : List Lexeme) (r : Expr) : Prop := ∀ s m s' subs, Tokens.Shows ws s m →
  (if r.isSwitch then subs = [] ∧ m = s' else Reads (.subscripts subs) m s') →
    ∃ u, Reads (.term u) s s' ∧ u.unplaced = (subs.map Expr.unplacedIndex).foldl Expr.applied r

/-- A phrase is read off words that is `r` up to locations. -/
def PhraseOff (phrase : Expr → Phrase) (ws : List Lexeme) (r : Expr) : Prop :=
  ∀ s s', Tokens.Shows ws s s' → ∃ u, Reads (phrase u) s s' ∧ u.unplaced = r

variable {ws vs : List Lexeme} {r i : Expr} {op : UnaryOp}

theorem PhraseOff.operand (h : PhraseOff .simple ws r) (hr : r.TakesSubscripts) (hswitch : r.isSwitch = false) :
    OperandOff ws r := fun s m s' subs hs hsubs => by
  obtain ⟨u, hu, rfl⟩ := h s m hs
  rw [hswitch] at hsubs
  refine ⟨_, .term hu hsubs, ?_⟩
  rw [Expr.unplaced_subscriptAll, Expr.TakesSubscripts.foldl _ hr]

/-- Before what takes nothing in, an operand stands alone. -/
theorem OperandOff.alone (h : OperandOff ws r) {s m : Tokens} (hs : Tokens.Shows ws s m) (hm : m.Ready) :
    ∃ u, Reads (.term u) s m ∧ u.unplaced = r := by
  refine h s m m [] hs ?_
  split
  · exact ⟨rfl, rfl⟩
  · exact hm.reads

theorem OperandOff.sign (hop : op.isSign = true) (h : OperandOff ws r) : OperandOff (op.words ws) (.unary none op r) := by
  intro s m s' subs hs hsubs
  rw [UnaryOp.words_of_sign hop] at hs
  obtain ⟨c, t, rest, rfl, ⟨hk, _⟩, hs⟩ := Tokens.shows_cons.1 hs
  have hkind : UnaryOp.ofKind? t.kind = some op := by rw [hk]; exact UnaryOp.ofKind?_sign hop
  have hsubs : Reads (.subscripts subs) m s' := hsubs
  cases hr : r.isSwitch with
  | true =>
    -- the switch ends where its brackets close, so the subscripts are those of the sign before it
    obtain ⟨u, hu, rfl⟩ := h rest m m [] hs (by rw [if_pos hr]; exact ⟨rfl, rfl⟩)
    refine ⟨_, .term (.unary hkind hu) hsubs, ?_⟩
    have htakes : (Expr.unary none op u.unplaced).TakesSubscripts :=
      Expr.takesSubscripts_of_standsApart (Bool.or_eq_true_iff.2 (.inr hr))
    rw [Expr.unplaced_subscriptAll]
    exact (Expr.TakesSubscripts.foldl _ htakes).symm
  | false =>
    obtain ⟨u, hu, hur⟩ := h rest m s' subs hs (by rw [hr]; exact hsubs)
    refine ⟨_, .term (.unary hkind hu) hsubs.ready_of_subscripts.reads, ?_⟩
    rw [Expr.foldl_applied_unary hop none _ hr, ← hur]
    rfl

theorem unplacedItems_of_forall₂ {us rs : List Expr} (h : List.Forall₂ (fun u r => u.unplaced = r) us rs) :
    unplacedItems us = rs := by
  have hmap : List.Forall₂ (· = ·) (us.map Expr.unplaced) rs := List.forall₂_map_left_iff.2 h
  rw [unplacedItems_eq]
  rwa [List.forall₂_eq_eq_eq] at hmap

/-- Indices are read off their words before the bracket that closes them. -/
theorem OperandOff.subscripts {wss : List (List Lexeme)} {is : List Expr} (h : OperandOff ws r) (hr : r.isSwitch = false)
    (his : List.Forall₂ (ReadOff (.item .index) fun u i => u.unplaced = i) wss is) :
    OperandOff (ws ++ Lexeme.sign .openBracket :: (separate wss ++ [Lexeme.sign .closeBracket]))
      (r.applied (.ofIndices none is)) := by
  intro s m s' subs hs hsubs
  rw [Expr.isSwitch_applied] at hsubs
  obtain ⟨m₁, hbase, hs⟩ := Tokens.shows_append.1 hs
  obtain ⟨c, t, rest, rfl, ⟨hk, _⟩, hs⟩ := Tokens.shows_cons.1 hs
  obtain ⟨us, hus, heq⟩ := list_of_words his hs
  obtain ⟨u, hu, hur⟩ := h s _ s' ((t.location, us) :: subs) hbase (by rw [hr]; exact .subscript hk hus hsubs)
  refine ⟨u, hu, ?_⟩
  rw [hur, List.map_cons, List.foldl_cons, Expr.unplacedIndex_eq, ← unplacedItems_eq, unplacedItems_of_forall₂ heq]

/-! ## Rows -/

/-- Operands with signs between them, in the order of precedence climbing. -/
inductive Row : List Lexeme → Expr → Prop
  | operand {ws : List Lexeme} {r : Expr} : r.isBinary = false → OperandOff ws r → Row ws r
  | binary {ws vs : List Lexeme} {op : BinaryOp} {a b : Expr} : op.precedence ≤ a.precedence →
      op.precedence < b.precedence → Row ws a → Row vs b → Row (ws ++ Lexeme.sign op.sign :: vs) (.binary none op a b)

namespace Row

theorem climbs (h : Row ws r) : r.Climbs := by
  induction h with
  | operand hr => exact Expr.climbs_of_not_binary hr
  | binary hleft hright _ _ iha ihb => exact ⟨hleft, hright, iha, ihb⟩

theorem operandOff (h : Row ws r) (hr : r.isBinary = false) : OperandOff ws r := by
  cases h with
  | operand _ h => exact h
  | binary => cases hr

/-- The operands and signs of a row are read before those that follow them. -/
theorem operators (h : Row ws r) {s m s' : Tokens} (hs : Tokens.Shows ws s m) (hm : m.Ready) {js : List Joint}
    (hjs : Reads (.operators js) m s') : ∃ t s₁ ks, Reads (.term t) s s₁ ∧ t.unplaced = r.first ∧
      Reads (.operators ks) s₁ s' ∧ ks.map Joint.unplaced = r.jointList ++ js.map Joint.unplaced := by
  induction h generalizing s m js with
  | @operand _ r hr h =>
    obtain ⟨t, ht, hunplaced⟩ := h.alone hs hm
    have hfirst : r.first = r ∧ r.jointList = [] := by cases r <;> first | exact ⟨rfl, rfl⟩ | cases hr
    rw [hfirst.1, hfirst.2]
    exact ⟨t, m, js, ht, hunplaced, hjs, rfl⟩
  | @binary _ _ op a b _ _ _ _ iha ihb =>
    obtain ⟨m₁, ha, hs⟩ := Tokens.shows_append.1 hs
    obtain ⟨c, t, rest, rfl, ⟨hk, _⟩, hb⟩ := Tokens.shows_cons.1 hs
    have hkind : BinaryOp.ofKind? t.kind = some op := by rw [hk]; exact op.ofKind?_sign
    obtain ⟨tb, s₂, kbs, htb, hfirst, hkbs, hjoints⟩ := ihb hb hm hjs
    have hready : (Tokens.token c t rest).Ready := ⟨t, rfl, fun hb => by rw [hb] at hkind; cases hkind⟩
    obtain ⟨ta, s₁, kas, hta, hfirst', hkas, hjoints'⟩ := iha ha hready (.operator hkind htb hkbs)
    refine ⟨ta, s₁, kas, hta, hfirst', hkas, ?_⟩
    rw [hjoints', List.map_cons, hjoints, Joint.unplaced, hfirst, Expr.jointList, List.append_assoc, List.cons_append]

/-- A row is read as the expression that it shows. -/
theorem reads (h : Row ws r) {s s' : Tokens} (hs : Tokens.Shows ws s s') (hstop : s'.Stops) (hready : s'.Ready) :
    ∃ u, Reads (.expression u) s s' ∧ u.unplaced = r := by
  obtain ⟨t, s₁, ks, ht, hfirst, hks, hjoints⟩ := h.operators hs hready (.noOperator hstop)
  refine ⟨_, .expression ht hks, ?_⟩
  rw [Expr.unplaced_joinAll, hfirst, hjoints, List.map_nil, List.append_nil, Expr.joinAll_of_climbs h.climbs]

theorem readOff (h : Row ws r) : ReadOff .expression (fun u r => u.unplaced = r) ws r :=
  fun _ _ hs hc => h.reads hs hc.stops hc.ready

end Row

end ExprLang
