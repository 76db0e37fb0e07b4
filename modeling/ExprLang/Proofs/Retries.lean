import ExprLang.Proofs.Fallback
import ExprLang.Scanner

/-!
# Reading on after a failure

Where no token begins, a scanner stands still: it fails again, with the same error at the same place, however its tokens are
asked for (`Cursor.Stuck`, `Scanner.run_stuck`). Only a string without an end is read through, and what follows its failure is
the end of the source. `Scanner.run_retried` says so about every failure.
-/

namespace ExprLang

/-! ## Gaps -/

namespace Lexeme

/-- Behind a gap there is no other one. -/
theorem gap_gapFrom (inside : Bool) (cs : List Char) : gap (gapFrom inside cs).2 = ([], (gapFrom inside cs).2) := by
  fun_induction gapFrom inside cs with
  | case1 => rfl
  | case2 c r ih => exact ih
  | case3 r ih => exact ih
  | case4 c r _ hspace ih => exact ih
  | case5 c r hcomment hspace =>
    show gapFrom false (c :: r) = ([], c :: r)
    rw [gapFrom, if_neg hspace]
    exact hcomment

end Lexeme

namespace Cursor

theorem skipGap_skipGap (c : Cursor) : c.skipGap.skipGap = c.skipGap := by
  have hgap : Lexeme.gap c.skipGap.rest = ([], c.skipGap.rest) := Lexeme.gap_gapFrom false c.rest
  rw [skipGap, hgap]
  rfl

/-! ## Failing -/

/-- Reading a token fails and leaves the cursor where it is. -/
def Stuck (c : Cursor) (e : Error) : Prop := c.next = (.error e, c)

/-- A failure leaves the cursor stuck, or at the end of the source if a string has no end. -/
theorem next_failed {c : Cursor} {e : Error} (h : c.next.1 = .error e) : ∃ f, e = .parse c.skipGap.location f ∧
    (f ≠ .unterminatedString ∧ c.next.2.Stuck e ∨ f = .unterminatedString ∧ c.next.2.rest = []) := by
  have hagain : c.skipGap.next = c.next := by rw [next, next, skipGap_skipGap]
  cases hfront : Lexeme.front c.skipGap.rest with
  | ended =>
    rw [next, hfront] at h
    cases h
  | lexeme l rest =>
    rw [next, hfront] at h
    cases h
  | fault f =>
    by_cases hf : f = .unterminatedString
    · subst hf
      rw [next, hfront] at h ⊢
      exact ⟨_, (Except.error.inj h).symm, .inr ⟨rfl, rfl⟩⟩
    · have hnext : c.next = (.error (.parse c.skipGap.location f), c.skipGap) := by
        rw [next, hfront]
        cases f <;> first | rfl | exact absurd rfl hf
      rw [hnext] at h hagain
      rw [hnext]
      cases h
      exact ⟨f, rfl, .inl ⟨hf, hagain⟩⟩

theorem next_of_ended {c : Cursor} (h : c.rest = []) : c.next = (.ok c.endToken, c) := by
  rw [next, skipGap_of_ended h, h]
  rfl

end Cursor

/-! ## Reading again -/

namespace Scanner

/-- Whether an operation asks for a token. -/
def Operation.AsksForToken : Operation → Prop
  | next | peek | peekSecond | expect _ | peekExpected _ => True
  | _ => False

variable {s : Scanner} {e : Error}

theorem perform_stuck (h : s.cursor.Stuck e) {o : Operation} (ho : o.AsksForToken) : s.perform o = (.token (.error e), s) := by
  have hnext : s.cursor.next = (.error e, s.cursor) := h
  cases o with
  | next => rw [perform, hnext]
  | peek => rw [perform, Cursor.peek, hnext]
  | peekSecond => rw [perform, Cursor.peekSecond, hnext]
  | expect kinds =>
    rw [perform, Cursor.expect, hnext]
    rfl
  | peekExpected kinds =>
    rw [perform, Cursor.peekExpected, Cursor.peek, hnext]
    rfl
  | _ => exact ho.elim

theorem run_stuck (h : s.cursor.Stuck e) {os : List Operation} (hos : ∀ o ∈ os, o.AsksForToken) :
    s.run os = (os.map fun _ => .token (.error e), s) := by
  induction os with
  | nil => rfl
  | cons o os ih =>
    obtain ⟨ho, hos⟩ := List.forall_mem_cons.1 hos
    rw [run, perform_stuck h ho, ih hos]
    rfl

theorem run_ended (h : s.cursor.rest = []) (n : Nat) :
    s.run (.replicate n .next) = (.replicate n (.token (.ok s.cursor.endToken)), s) := by
  induction n with
  | zero => rfl
  | succ n ih => rw [List.replicate_succ, run, perform, Cursor.next_of_ended h, ih, List.replicate_succ]

/-- After a failure to read a token, any operations that ask for tokens fail with that very error and leave the scanner where
it is, unless the failure is that of a string without an end: behind that, all tokens are the end of the source. -/
theorem run_retried (h : (s.perform .next).1 = .token (.error e)) : ∃ place f, e = .parse place f ∧
    (f ≠ .unterminatedString → ∀ os : List Operation, (∀ o ∈ os, o.AsksForToken) →
      (s.perform .next).2.run os = (os.map fun _ => .token (.error e), (s.perform .next).2)) ∧
    (f = .unterminatedString → ∀ n, (s.perform .next).2.run (.replicate n .next) =
      (.replicate n (.token (.ok (s.perform .next).2.cursor.endToken)), (s.perform .next).2)) := by
  obtain ⟨f, he, hcases⟩ := Cursor.next_failed (Outcome.token.inj h)
  refine ⟨_, f, he, fun hf os hos => ?_, fun hf n => ?_⟩
  · rcases hcases with ⟨-, hstuck⟩ | ⟨hstring, -⟩
    · exact run_stuck hstuck hos
    · exact absurd hstring hf
  · rcases hcases with ⟨hother, -⟩ | ⟨-, hended⟩
    · exact absurd hf hother
    · exact run_ended hended n

/-- A number that touches a word, behind a token and a gap. -/
theorem run_retried_number : ∃ s : Scanner, s = ((start "x // y\n 1a" ⟨3, 5⟩).run [.next]).2 ∧
    (s.perform .next).1 = .token (.error (.parse ⟨4, 2⟩ (.unexpectedCharacter '1'))) ∧
    (∀ o ∈ [Operation.next, .peekSecond, .expect [.name], .next], o.AsksForToken) ∧
    ((s.perform .next).2.run [.next, .peekSecond, .expect [.name], .next]).1 =
      .replicate 4 (.token (.error (.parse ⟨4, 2⟩ (.unexpectedCharacter '1')))) := by
  have hfails : ((((start "x // y\n 1a" ⟨3, 5⟩).run [.next]).2).perform .next).1 =
      .token (.error (.parse ⟨4, 2⟩ (.unexpectedCharacter '1'))) := rfl
  have hasks : ∀ o ∈ [Operation.next, .peekSecond, .expect [.name], .next], o.AsksForToken := by simp [Operation.AsksForToken]
  obtain ⟨place, f, he, hother, -⟩ := run_retried hfails
  cases he
  refine ⟨_, rfl, hfails, hasks, ?_⟩
  rw [hother (by decide) _ hasks]
  rfl

/-- Not every failure to read a token is met again: a string without an end is followed by the end of the source. -/
theorem run_retried_string : ¬ ∀ (text : String) (origin : Location) (os : List Operation) (e : Error),
    (((start text origin).run os).2.perform .next).1 = .token (.error e) →
      ((((start text origin).run os).2.perform .next).2.perform .next).1 = .token (.error e) := by
  intro hagain
  have hfails : (((start "\"abc" ⟨1, 1⟩).run []).2.perform .next).1 = .token (.error (.parse ⟨1, 1⟩ .unterminatedString)) := rfl
  have hended : ((((start "\"abc" ⟨1, 1⟩).run []).2.perform .next).2.perform .next).1 =
      .token (.ok ⟨.endOfInput, [], 4, ⟨1, 5⟩⟩) := rfl
  have hsame := hagain _ _ _ _ hfails
  rw [hended] at hsame
  cases hsame

end Scanner

end ExprLang
