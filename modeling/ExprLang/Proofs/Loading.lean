import ExprLang.Proofs.BindingLines
import ExprLang.Proofs.Variables
import Mathlib.Data.List.Nodup
import Mathlib.Logic.Equiv.Basic

/-!
# Loading binding files

What a file declares and which of its lines fail, for the file as a whole: each binding line declares
one variable or fails, and the failing ones might as well be empty (`load_isolates`).
-/

namespace ExprLang.BindingFile

/-! ## Lines and their numbers -/

/-- The lines of a text with their numbers, counted from one. -/
def numbered (text : String) : List (List Char × Nat) := (Text.lines text.toList).zipIdx 1

/-- The line at an index, counted from zero; behind the last line there are empty ones. -/
def lineAt (text : String) (i : Nat) : List Char := (Text.lines text.toList)[i]?.getD []

/-- Loading a text, by the bare values that its lines declare. -/
theorem load_outcomes (text : String) : (load text).1.bare = declared (numbered text) [] ∧
    (load text).2.map LineFault.line = failing (numbered text) [] :=
  loadLines_outcomes (numbered text) .empty

section

variable {ls : List (List Char × Nat)} {vars : Entries Value}

theorem outcomes_numbers (ls : List (List Char × Nat)) (vars : Entries Value) :
    (outcomes ls vars).map Prod.fst = (ls.filter fun l => isBinding l.1).map Prod.snd := by
  induction ls generalizing vars with
  | nil => rfl
  | cons l ls ih =>
    obtain ⟨line, number⟩ := l
    by_cases hbinding : isBinding line = true
    · rw [outcomes_cons hbinding, List.map_cons, ih, List.filter_cons_of_pos (by exact hbinding), List.map_cons]
    · rw [outcomes_cons_of_not hbinding, ih, List.filter_cons_of_neg (by exact hbinding)]

/-- Each outcome is what its line declares over the variables that were declared before. -/
theorem outcomes_split {pre post : List (Nat × Option (String × Value))} {n : Nat} {d : Option (String × Value)}
    (h : outcomes ls vars = pre ++ (n, d) :: post) :
    ∃ line, (line, n) ∈ ls ∧ d = declaration (vars ++ pre.filterMap Prod.snd) line := by
  induction ls generalizing pre vars with
  | nil => exact absurd h.symm (List.append_ne_nil_of_right_ne_nil _ (List.cons_ne_nil _ _))
  | cons l ls ih =>
    obtain ⟨line, number⟩ := l
    by_cases hbinding : isBinding line = true
    · rw [outcomes_cons hbinding] at h
      cases pre with
      | nil =>
        cases h
        exact ⟨line, List.mem_cons_self, by rw [List.filterMap_nil, List.append_nil]⟩
      | cons o pre =>
        obtain ⟨rfl, hrest⟩ := List.cons_eq_cons.1 h
        obtain ⟨line', hmem, hd⟩ := ih hrest
        refine ⟨line', List.mem_cons_of_mem _ hmem, ?_⟩
        rw [hd, List.append_assoc]
        cases declaration vars line <;> rfl
    · rw [outcomes_cons_of_not hbinding] at h
      obtain ⟨line', hmem, hd⟩ := ih h
      exact ⟨line', List.mem_cons_of_mem _ hmem, hd⟩

theorem outcomes_sublist (ls : List (List Char × Nat)) (vars : Entries Value) :
    ((outcomes ls vars).map Prod.fst).Sublist (ls.map Prod.snd) := by
  rw [outcomes_numbers]
  exact List.filter_sublist.map _

theorem failing_sublist (ls : List (List Char × Nat)) (vars : Entries Value) :
    (failing ls vars).Sublist (ls.map Prod.snd) :=
  (List.filter_sublist.map _).trans (outcomes_sublist ls vars)

end

/-- No two lines have the same number. -/
theorem numbered_pairwise (text : String) : ((numbered text).map Prod.snd).Pairwise (· < ·) := by
  rw [numbered, List.zipIdx_map_snd]
  exact List.pairwise_lt_range' 1

/-! ## Empty lines -/

theorem outcomes_of_empty {ls : List (List Char × Nat)} (h : ∀ l ∈ ls, l.1 = []) (vars : Entries Value) :
    outcomes ls vars = [] := by
  induction ls with
  | nil => rfl
  | cons l ls ih =>
    obtain ⟨line, number⟩ := l
    obtain ⟨hline, hls⟩ := List.forall_mem_cons.1 h
    obtain rfl : line = [] := hline
    rw [outcomes_cons_of_not (by decide), ih hls]

/-- Empty lines at the end make no difference. -/
theorem outcomes_upTo {text : String} {n : Nat} (h : (Text.lines text.toList).length ≤ n) (vars : Entries Value) :
    outcomes (numbered text) vars = outcomes ((List.range n).map fun i => (lineAt text i, i + 1)) vars := by
  obtain ⟨k, rfl⟩ := Nat.exists_eq_add_of_le h
  have hlines : (List.range (Text.lines text.toList).length).map (fun i => (lineAt text i, i + 1)) = numbered text := by
    refine List.ext_getElem (by simp [numbered]) fun i hi hi' => ?_
    rw [List.length_map, List.length_range] at hi
    simp [numbered, lineAt, List.getElem?_eq_getElem hi, Nat.add_comm]
  have hempty : ∀ l ∈ ((List.range k).map fun i => (Text.lines text.toList).length + i).map
      (fun i => (lineAt text i, i + 1)), l.1 = [] := by
    intro l hl
    obtain ⟨i, hi, rfl⟩ := List.mem_map.1 hl
    obtain ⟨j, -, rfl⟩ := List.mem_map.1 hi
    simp [lineAt]
  rw [List.range_add, List.map_append, outcomes_append, hlines, outcomes_of_empty hempty, List.append_nil]

/-- Lines that declare nothing may be empty: no line after them sees the difference. -/
theorem outcomes_emptied {p : Nat → Prop} [DecidablePred p] {ls : List (List Char × Nat)} {vars : Entries Value}
    (h : ∀ o ∈ outcomes ls vars, p o.1 ↔ o.2.isNone = true) :
    outcomes (ls.map fun l => (if p l.2 then [] else l.1, l.2)) vars =
      (outcomes ls vars).filter fun o => !o.2.isNone := by
  induction ls generalizing vars with
  | nil => rfl
  | cons l ls ih =>
    obtain ⟨line, number⟩ := l
    by_cases hbinding : isBinding line = true
    · rw [outcomes_cons hbinding] at h ⊢
      obtain ⟨hnumber, hls⟩ := List.forall_mem_cons.1 h
      have hrest := ih hls
      rw [List.map_cons]
      cases hd : declaration vars line with
      | none =>
        rw [hd, Option.toList_none, List.append_nil] at hrest
        have hempty : p number := hnumber.2 (by rw [hd]; rfl)
        rw [if_pos hempty, outcomes_cons_of_not (by decide), hrest, Option.toList_none, List.append_nil]
        rfl
      | some d =>
        have hkept : ¬ p number := fun hp => by
          have hnone := hnumber.1 hp
          rw [hd] at hnone
          cases hnone
        rw [if_neg hkept, outcomes_cons hbinding, hd]
        rw [hd] at hrest
        exact congrArg ((number, some d) :: ·) hrest
    · rw [outcomes_cons_of_not hbinding] at h ⊢
      have hother : ¬ isBinding (if p number then [] else line) = true := by
        split
        · decide
        · exact hbinding
      rw [List.map_cons, outcomes_cons_of_not hother, ih h]

/-! ## Failures -/

/-- The second text has empty lines in the place of those with the given numbers, and otherwise the lines of the first.
How lines end does not matter, and neither does how many empty lines there are at the end. -/
def Empties (numbers : List Nat) (text text' : String) : Prop :=
  ∀ i, lineAt text' i = if i + 1 ∈ numbers then [] else lineAt text i

theorem newline_notMem_lines (cs : List Char) : ∀ l ∈ Text.lines cs, '\n' ∉ l := by
  fun_induction Text.lines cs with
  | case1 => exact fun _ h => absurd h List.not_mem_nil
  | case2 r ih => exact List.forall_mem_cons.2 ⟨List.not_mem_nil, ih⟩
  | case3 c r _ _ ih => exact ih
  | case4 c r hc _ _ ih => exact List.forall_mem_singleton.2 fun h => hc (List.mem_singleton.1 h).symm
  | case5 c r hc _ l ls hlines ih =>
    rw [hlines] at ih
    obtain ⟨hl, hls⟩ := List.forall_mem_cons.1 ih
    exact List.forall_mem_cons.2 ⟨fun h => (List.mem_cons.1 h).elim (fun h => hc h.symm) hl, hls⟩

/-- A line is found again before a carriage return and a line feed. -/
theorem lines_line {l : List Char} (h : '\n' ∉ l) (r : List Char) :
    Text.lines (l ++ '\r' :: '\n' :: r) = l :: Text.lines r := by
  induction l with
  | nil => rfl
  | cons c l ih =>
    obtain ⟨hc, hl⟩ := List.ne_and_not_mem_of_not_mem_cons h
    have hend : ¬ (c = '\r' ∧ (l ++ '\r' :: '\n' :: r).head? = some '\n') := by
      rintro ⟨-, hhead⟩
      cases l with
      | nil => cases hhead
      | cons d l => exact hl (Option.some.inj hhead ▸ List.mem_cons_self)
    rw [List.cons_append, Text.lines, if_neg hc.symm, if_neg hend, ih hl]

theorem lines_flatMap {ls : List (List Char)} (h : ∀ l ∈ ls, '\n' ∉ l) :
    Text.lines (ls.flatMap (· ++ ['\r', '\n'])) = ls := by
  induction ls with
  | nil => rfl
  | cons l ls ih =>
    obtain ⟨hl, hls⟩ := List.forall_mem_cons.1 h
    rw [List.flatMap_cons, List.append_assoc]
    exact (lines_line hl _).trans (congrArg (l :: ·) (ih hls))

theorem exists_empties (numbers : List Nat) (text : String) : ∃ text', Empties numbers text text' := by
  let ls := (numbered text).map fun l => if l.2 ∈ numbers then [] else l.1
  have hls : ∀ l ∈ ls, '\n' ∉ l := by
    intro l hl
    obtain ⟨⟨line, n⟩, hline, rfl⟩ := List.mem_map.1 hl
    dsimp only
    split
    · exact List.not_mem_nil
    · exact newline_notMem_lines _ line (List.fst_mem_of_mem_zipIdx hline)
  refine ⟨String.ofList (ls.flatMap (· ++ ['\r', '\n'])), fun i => ?_⟩
  rw [lineAt, String.toList_ofList, lines_flatMap hls, List.getElem?_map, numbered, List.getElem?_zipIdx, lineAt]
  cases (Text.lines text.toList)[i]? with
  | none => simp
  | some line => simp [Nat.add_comm]

/-- The number of a binding line is that of a fault if and only if the line declares nothing. -/
theorem mem_failing_iff {text : String} {o : Nat × Option (String × Value)} (h : o ∈ outcomes (numbered text) []) :
    o.1 ∈ failing (numbered text) [] ↔ o.2.isNone = true := by
  have hnodup : ((outcomes (numbered text) []).map Prod.fst).Nodup :=
    ((numbered_pairwise text).sublist (outcomes_sublist _ _)).nodup
  constructor
  · intro hfails
    obtain ⟨o', ho', heq⟩ := List.mem_map.1 hfails
    obtain ⟨hmem, hnone⟩ := List.mem_filter.1 ho'
    rwa [← List.inj_on_of_nodup_map hnodup hmem h heq]
  · exact fun hnone => List.mem_map_of_mem (List.mem_filter.2 ⟨h, hnone⟩)

/-- A text in which the failing lines are empty has the outcomes of the other lines. -/
theorem outcomes_of_empties {text text' : String} (h : Empties (failing (numbered text) []) text text') :
    outcomes (numbered text') [] = (outcomes (numbered text) []).filter fun o => !o.2.isNone := by
  obtain ⟨n, hn, hn'⟩ : ∃ n, (Text.lines text.toList).length ≤ n ∧ (Text.lines text'.toList).length ≤ n :=
    ⟨_, Nat.le_max_left _ _, Nat.le_max_right _ _⟩
  have hthere := outcomes_upTo hn []
  have hhere := outcomes_upTo hn' []
  have hfails : ∀ o ∈ outcomes ((List.range n).map fun i => (lineAt text i, i + 1)) [],
      o.1 ∈ failing (numbered text) [] ↔ o.2.isNone = true := by
    rw [← hthere]
    exact fun o ho => mem_failing_iff ho
  have hlines : (List.range n).map (fun i => (lineAt text' i, i + 1)) = ((List.range n).map fun i =>
      (lineAt text i, i + 1)).map fun l => (if l.2 ∈ failing (numbered text) [] then [] else l.1, l.2) := by
    rw [List.map_map]
    exact List.map_congr_left fun i _ => Prod.ext (h i) rfl
  rw [hthere, hhere, hlines]
  exact outcomes_emptied hfails

/-! ## Whole files -/

/-- What the binding lines of a text come to: each declares a variable or has a fault. -/
structure Accounts (text : String) (os : List (Nat × Option (String × Value))) : Prop where
  /-- There is one outcome for each binding line, in their order. -/
  numbers : os.map Prod.fst = ((numbered text).filter fun l => isBinding l.1).map Prod.snd
  declares : (load text).1.bare = os.filterMap Prod.snd
  distinct : Entries.Nodup (os.filterMap Prod.snd)
  faults : (load text).2.map LineFault.line = (os.filter fun o => o.2.isNone).map Prod.fst
  /-- A variable has the name that stands in its line, and a value other than undefined. -/
  named : ∀ n d, (n, some d) ∈ os → d.2.isUndefined = false ∧
    ∃ line e, (line, n) ∈ numbered text ∧ readLine line n = .ok (d.1, e)
  /-- Which of both it is, the line and the variables before it decide. -/
  decided : ∀ pre n d post, os = pre ++ (n, d) :: post →
    ∃ line, (line, n) ∈ numbered text ∧ d = declaration (pre.filterMap Prod.snd) line

theorem accounts_outcomes (text : String) : Accounts text (outcomes (numbered text) []) where
  numbers := outcomes_numbers _ _
  declares := (load_outcomes text).1
  distinct := by
    have hnodup := (load text).1.nodup_bare
    rwa [(load_outcomes text).1] at hnodup
  faults := (load_outcomes text).2
  named n d h := by
    obtain ⟨pre, post, hsplit⟩ := List.append_of_mem h
    obtain ⟨line, hline, hd⟩ := outcomes_split hsplit
    obtain ⟨⟨_, hread⟩, hdefined⟩ := declaration_some hd.symm
    obtain ⟨e, he⟩ := readLine_name hread n
    exact ⟨hdefined, line, e, hline, he⟩
  decided _ _ _ _ h := outcomes_split h

/-- The text without the failing lines declares the same variables, and none of its lines fail. -/
theorem load_of_empties {text text' : String} (h : Empties ((load text).2.map LineFault.line) text text') :
    (load text').1.bare = (load text).1.bare ∧ (load text').2 = [] := by
  obtain ⟨hvars, hfaults⟩ := load_outcomes text
  obtain ⟨hvars', hfaults'⟩ := load_outcomes text'
  rw [hfaults] at h
  have houtcomes := outcomes_of_empties h
  have hfailing : failing (numbered text') [] = [] := by
    rw [failing, houtcomes, List.filter_filter]
    simp
  rw [hfailing] at hfaults'
  refine ⟨?_, List.map_eq_nil_iff.1 hfaults'⟩
  rw [hvars', hvars, declared, declared, houtcomes, List.filterMap_filter]
  refine List.filterMap_congr fun o _ => ?_
  obtain ⟨n, d⟩ := o
  cases d <;> rfl

/-- Loading gives one outcome for each binding line, and the faults in the order of the lines. The text with empty lines
in the place of the failing ones declares the same variables, and none of its lines fail. -/
theorem load_isolates (text : String) :
    (∃ os, Accounts text os) ∧ ((load text).2.map LineFault.line).Pairwise (· < ·) ∧
    (∃ text', Empties ((load text).2.map LineFault.line) text text') ∧
    ∀ text', Empties ((load text).2.map LineFault.line) text text' →
      (load text').1.bare = (load text).1.bare ∧ (load text').2 = [] := by
  refine ⟨⟨_, accounts_outcomes text⟩, ?_, exists_empties _ _, fun text' => load_of_empties⟩
  rw [(load_outcomes text).2]
  exact (numbered_pairwise text).sublist (failing_sublist _ _)

theorem load_isolates_undefined :
    (load "a = 1\nb = y\nc = a").2.map LineFault.line = [2] ∧ Empties [2] "a = 1\nb = y\nc = a" "a = 1\n\nc = a" ∧
      (load "a = 1\n\nc = a").1.bare = (load "a = 1\nb = y\nc = a").1.bare ∧ (load "a = 1\n\nc = a").2 = [] := by
  have hfaults : (load "a = 1\nb = y\nc = a").2.map LineFault.line = [2] := by decide +kernel
  have hempties : Empties [2] "a = 1\nb = y\nc = a" "a = 1\n\nc = a" := by
    have hlines : Text.lines "a = 1\nb = y\nc = a".toList = ["a = 1".toList, "b = y".toList, "c = a".toList] := by
      decide +kernel
    have hlines' : Text.lines "a = 1\n\nc = a".toList = ["a = 1".toList, [], "c = a".toList] := by decide +kernel
    intro i
    rw [lineAt, lineAt, hlines, hlines']
    match i with
    | 0 | 1 | 2 | _ + 3 => simp
  exact ⟨hfaults, hempties, (load_isolates _).2.2.2 _ (hfaults ▸ hempties)⟩

end ExprLang.BindingFile
