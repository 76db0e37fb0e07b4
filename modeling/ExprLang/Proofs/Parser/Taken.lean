import ExprLang.ModelList
import ExprLang.Proofs.Grammar
import Mathlib.Logic.Relation

/-!
# Tokens that are taken off

What a reading leaves of a source is a later part of it: `Tokens.Drops` takes the first token off, and an expression
(`Reads.drops`) and the readings of a model list (`Reading.Drops`) do so again and again.
-/

namespace ExprLang

open Relation (ReflTransGen)

/-! ## Sources -/

namespace Tokens

/-- The second stream is what is left behind the first token. -/
def Drops (s s' : Tokens) : Prop := ∃ c t, s = .token c t s'

variable {s s' : Tokens} {t : Token} {ks : List Token.Kind}

theorem drops_token (c : Cursor) (t : Token) (s : Tokens) : (token c t s).Drops s := ⟨c, t, rfl⟩

theorem Wf.drops (hs : s.Wf) (ht : s.head = .ok t) (hk : t.kind ≠ .endOfInput) : s.Drops s.tail := by
  obtain ⟨c, hc⟩ := hs.eq_token ht hk
  exact ⟨c, t, hc⟩

theorem Drops.wf (h : s.Drops s') (hs : s.Wf) : s'.Wf := by
  obtain ⟨c, t, rfl⟩ := h
  exact hs.2

theorem Spans.drops : ∀ {ks : List Token.Kind} {s : Tokens}, Spans Token.kind ks s s' → ReflTransGen Drops s s'
  | [], _, h => by
    cases h
    exact .refl
  | _ :: _, _, ⟨c, t, rest, hs, _, h⟩ => .head ⟨c, t, hs⟩ h.drops

theorem wf_of_drops (h : ReflTransGen Drops s s') (hs : s.Wf) : s'.Wf := by
  induction h with
  | refl => exact hs
  | tail _ hstep ih => exact hstep.wf ih

end Tokens

/-! ## Expressions -/

theorem Reads.drops {p : Phrase} {s s' : Tokens} (h : Reads p s s') : ReflTransGen Tokens.Drops s s' := by
  obtain ⟨ks, hspans, -⟩ := h.derives
  exact hspans.drops

/-! ## Model lists -/

/-- What a reading takes of a source are tokens. -/
def Reading.Drops {α : Type} (x : Reading α) : Prop :=
  ∀ s a s', s.Wf → x s = .ok (a, s') → ReflTransGen Tokens.Drops s s'

namespace Reading.Drops

variable {α β : Type}

theorem pure (a : α) : Drops (Pure.pure a : Reading α) := by
  intro s b s' _ h
  obtain ⟨-, rfl⟩ := pure_ok.1 h
  exact .refl

theorem refuse (e : Error) (c : Cursor) : Drops (Reading.refuse e c : Reading α) := by
  intro s a s' _ h
  cases h

theorem bind {x : Reading α} {k : α → Reading β} (hx : Drops x) (hk : ∀ a, Drops (k a)) : Drops (x >>= k) := by
  intro s b s' hs h
  obtain ⟨a, s₁, ha, hb⟩ := bind_ok.1 h
  have hfirst := hx s a s₁ hs ha
  exact hfirst.trans (hk a s₁ b s' (Tokens.wf_of_drops hfirst hs) hb)

theorem look (f : Tokens → Except Error α) : Drops (Reading.look f) := by
  intro s a s' _ h
  obtain ⟨-, rfl⟩ := look_ok.1 h
  exact .refl

theorem ahead (k : Token.Kind) : Drops (Reading.ahead k) := (look _).bind fun _ => .pure _

theorem expect {ks : List Token.Kind} (hks : .endOfInput ∉ ks) : Drops (Reading.expect ks) := by
  intro s t s' hs h
  obtain ⟨⟨ht, hk⟩, rfl⟩ := expect_ok.1 h
  exact .single (hs.drops ht fun he => hks (he ▸ hk))

end Reading.Drops

namespace ModelList

open Reading

theorem here_drops : Drops here := by
  intro s c s' _ h
  cases h
  exact .refl

theorem index_drops : Drops index := by
  intro s p s' hs h
  simp only [index, bind_ok, peek_ok] at h
  obtain ⟨t, _, ⟨ht, rfl⟩, h⟩ := h
  split at h
  · next hk =>
    simp only [bind_ok, next_ok] at h
    obtain ⟨_, _, ⟨_, rfl⟩, x, s₁, hx, h⟩ := h
    obtain ⟨-, rfl⟩ := look_ok.1 hx
    obtain ⟨-, rfl⟩ := pure_ok.1 h
    exact .single (hs.drops ht (by simp [hk]))
  · obtain ⟨-, rfl⟩ := pure_ok.1 h
    exact .refl

theorem conditionAhead_drops : Drops conditionAhead := by
  refine (Drops.ahead _).bind fun named => ?_
  split
  · exact (Drops.look _).bind fun _ => .pure _
  · exact .pure _

theorem condition_drops : Drops condition := by
  refine (Drops.expect (by decide)).bind fun key => (Drops.expect (by decide)).bind fun sign =>
    (Drops.expect (by decide)).bind fun t => ?_
  dsimp only
  split
  · exact (Drops.pure _).bind fun _ => .pure _
  · exact ((Drops.look _).bind fun _ => .pure _).bind fun _ => .pure _

theorem staticEntry_drops : Drops staticEntry := by
  have hmodel : ∀ (path : Token) (v : Expr), Drops (do
      if ← conditionAhead then return (← condition).join path.location .guarded v else return v) := by
    refine fun path v => conditionAhead_drops.bind fun conditional => ?_
    split
    · exact condition_drops.bind fun _ => .pure _
    · exact .pure _
  refine (Drops.expect (by decide)).bind fun path => index_drops.bind fun p => ?_
  dsimp only
  split
  · exact index_drops.bind fun q => hmodel path _
  · exact (Drops.pure _).bind fun q => hmodel path _

theorem dynamicKeys_drops (n : Nat) (d : Dynamic) : Drops (dynamicKeys n d) := by
  induction n generalizing d with
  | zero =>
    intro s a s' _ h
    cases h
  | succ n ih =>
    intro s a s' hs h
    simp only [dynamicKeys, bind_ok, ahead_ok] at h
    obtain ⟨_, _, ⟨⟨t, ht, rfl⟩, rfl⟩, h⟩ := h
    split at h
    · next hname =>
      obtain ⟨key, s₁, hkey, h⟩ := bind_ok.1 h
      obtain ⟨-, rfl⟩ := next_ok.1 hkey
      have hfirst := hs.drops ht fun he => by simp [he] at hname
      refine .head hfirst ?_
      split at h
      · exact (here_drops.bind fun c => .refuse _ c) _ a s' (hfirst.wf hs) h
      · exact ((Drops.expect (by decide)).bind fun _ => (Drops.expect (by decide)).bind fun name => ih _)
          _ a s' (hfirst.wf hs) h
    · obtain ⟨-, rfl⟩ := pure_ok.1 h
      exact .refl

theorem dynamicEntry_drops (n : Nat) : Drops (dynamicEntry n) := by
  refine here_drops.bind fun c => (dynamicKeys_drops n _).bind fun d => ?_
  split
  · exact here_drops.bind fun c => .refuse _ c
  · exact .pure _

end ModelList

end ExprLang
