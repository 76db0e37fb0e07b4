import ExprLang.Proofs.Entries
import ExprLang.Step.Binary
import ExprLang.Step.Subscript

/-!
# Subscripts by lists put together

A subscript by one list after another is the sum of the subscripts by each. Strings and arrays put together what is at
the positions; maps unite, each key in the place where it was first selected and with the value that it has.

* `Value.positionsOf_append`: positions, nested lists and ranges flattened.
* `Value.submap_eq`: keys selected after others.
* `Value.subscript_append`: the part that two lists select.
-/

namespace ExprLang.Value

/-- Whether a third result is the sum of two, or fails because one of these does. -/
inductive Sums : Except Error Value → Except Error Value → Except Error Value → Prop
  | ok {v w u : Value} : v.add w = .ok u → Sums (.ok v) (.ok w) (.ok u)
  | left (e : Error) (s : Except Error Value) (e' : Error) : Sums (.error e) s (.error e')
  | right (r : Except Error Value) (e e' : Error) : Sums r (.error e) (.error e')

theorem Sums.exists_iff {r s t : Except Error Value} (h : Sums r s t) :
    ((∃ u, t = .ok u) ↔ (∃ v, r = .ok v) ∧ ∃ w, s = .ok w) ∧
      ∀ u, t = .ok u ↔ ∃ v w, r = .ok v ∧ s = .ok w ∧ v.add w = .ok u := by
  cases h with
  | @ok v w u hadd =>
    refine ⟨⟨fun _ => ⟨⟨v, rfl⟩, w, rfl⟩, fun _ => ⟨u, rfl⟩⟩, fun u' => ⟨?_, ?_⟩⟩
    · rintro ⟨⟩
      exact ⟨v, w, rfl, rfl, hadd⟩
    · rintro ⟨_, _, ⟨⟩, ⟨⟩, hadd'⟩
      rw [← hadd, hadd']
  | left => simp
  | right => simp

/-! ## Positions -/

theorem positionsOf_append (size : Nat) (vs ws : List Value) :
    positionsOf size (vs ++ ws) = (do return (← positionsOf size vs) ++ (← positionsOf size ws)) := by
  induction vs with
  | nil =>
    rw [positionsOf, List.nil_append]
    cases positionsOf size ws <;> rfl
  | cons v vs ih =>
    rw [List.cons_append, positionsOf, positionsOf, ih]
    cases v.positions size with
    | error e => rfl
    | ok ps =>
      cases positionsOf size vs with
      | error e => rfl
      | ok qs =>
        cases positionsOf size ws with
        | error e => rfl
        | ok rs => exact congrArg Except.ok (List.append_assoc ps qs rs).symm

/-! ## Keys -/

section

variable (origin : Value → Option Location) (entries : Entries Value)

/-- Keys are selected one after the other. -/
theorem submap_append (vs ws : List Value) (found : Entries Value) :
    submap origin entries (vs ++ ws) found = submap origin entries vs found >>= submap origin entries ws := by
  induction vs generalizing found with
  | nil => rfl
  | cons v vs ih =>
    rw [List.cons_append, submap, submap]
    split
    · split <;> exact ih _
    · rfl

/-- What was found before does not matter for what is found. -/
theorem submap_eq (keys : List Value) (found : Entries Value) :
    submap origin entries keys found = Entries.union found <$> submap origin entries keys [] := by
  induction keys generalizing found with
  | nil => rfl
  | cons key keys ih =>
    rw [submap, submap]
    split
    · next k _ =>
      cases Entries.find? entries k with
      | none => exact ih found
      | some v =>
        have hsingle : Entries.Nodup [(k, v)] := by simp [Entries.Nodup, Entries.keys]
        -- The hypothesis is used twice, for what was found before with the new entry and for the new entry alone.
        show submap origin entries keys (Entries.insert found k v) =
          Entries.union found <$> submap origin entries keys [(k, v)]
        rw [ih, ih [(k, v)]]
        cases submap origin entries keys [] with
        | error e => rfl
        | ok es => exact congrArg Except.ok (Entries.union_assoc hsingle found es)
    · rfl

end

/-! ## Selections -/

section

variable (origin : Value → Option Location) (m m₁ m₂ n : Option Nat) (vs ws : List Value)

theorem sums_string (s : String) : Sums (subscript origin ⟨n, .string s⟩ ⟨m₁, .array vs⟩)
    (subscript origin ⟨n, .string s⟩ ⟨m₂, .array ws⟩) (subscript origin ⟨n, .string s⟩ ⟨m, .array (vs ++ ws)⟩) := by
  show Sums (positionsOf s.toList.length vs >>= _) (positionsOf s.toList.length ws >>= _)
    (positionsOf s.toList.length (vs ++ ws) >>= _)
  rw [positionsOf_append]
  cases positionsOf s.toList.length vs with
  | error e => exact .left _ _ _
  | ok ps =>
    cases positionsOf s.toList.length ws with
    | error e => exact .right _ _ _
    | ok qs =>
      refine .ok ?_
      rw [List.filterMap_append, String.ofList_append]
      rfl

theorem sums_array (items : List Value) : Sums (subscript origin ⟨n, .array items⟩ ⟨m₁, .array vs⟩)
    (subscript origin ⟨n, .array items⟩ ⟨m₂, .array ws⟩)
    (subscript origin ⟨n, .array items⟩ ⟨m, .array (vs ++ ws)⟩) := by
  show Sums (positionsOf items.length vs >>= _) (positionsOf items.length ws >>= _)
    (positionsOf items.length (vs ++ ws) >>= _)
  rw [positionsOf_append]
  cases positionsOf items.length vs with
  | error e => exact .left _ _ _
  | ok ps =>
    cases positionsOf items.length ws with
    | error e => exact .right _ _ _
    | ok qs =>
      dsimp only [bind, Except.bind, pure, Except.pure]
      rw [List.mapM_append]
      cases ps.mapM (pick? items) with
      | none => exact .left _ _ _
      | some vs =>
        cases qs.mapM (pick? items) with
        | none => exact .right _ _ _
        | some ws => exact .ok rfl

theorem sums_map (es : Entries Value) : Sums (subscript origin ⟨n, .map es⟩ ⟨m₁, .array vs⟩)
    (subscript origin ⟨n, .map es⟩ ⟨m₂, .array ws⟩) (subscript origin ⟨n, .map es⟩ ⟨m, .array (vs ++ ws)⟩) := by
  show Sums (submap origin es vs [] >>= _) (submap origin es ws [] >>= _) (submap origin es (vs ++ ws) [] >>= _)
  rw [submap_append]
  cases submap origin es vs [] with
  | error e => exact .left _ _ _
  | ok found =>
    show Sums _ _ (submap origin es ws found >>= _)
    rw [submap_eq origin es ws found]
    cases submap origin es ws [] with
    | error e => exact .right _ _ _
    | ok found' => exact .ok rfl

end

/-- One list after another selects something if each of them does, and then the sum of what they select. -/
theorem subscript_append (origin : Value → Option Location) (base : Value) (m m₁ m₂ : Option Nat)
    (vs ws : List Value) :
    ((∃ u, base.subscript origin ⟨m, .array (vs ++ ws)⟩ = .ok u) ↔
      (∃ v, base.subscript origin ⟨m₁, .array vs⟩ = .ok v) ∧ ∃ w, base.subscript origin ⟨m₂, .array ws⟩ = .ok w) ∧
    ∀ u, base.subscript origin ⟨m, .array (vs ++ ws)⟩ = .ok u ↔
      ∃ v w, base.subscript origin ⟨m₁, .array vs⟩ = .ok v ∧ base.subscript origin ⟨m₂, .array ws⟩ = .ok w ∧
        v.add w = .ok u := by
  refine Sums.exists_iff ?_
  obtain ⟨n, c⟩ := base
  cases c with
  | string s => exact sums_string origin m m₁ m₂ n vs ws s
  | array items => exact sums_array origin m m₁ m₂ n vs ws items
  | map es => exact sums_map origin m m₁ m₂ n vs ws es
  | _ => exact .left _ _ _

/-- A key that is selected again keeps its first place. -/
example : (map [("a", null), ("b", boolean true)]).subscript (fun _ => none)
    (array ([string "b", string "c"] ++ [string "a", string "b"])) = .ok (map [("b", boolean true), ("a", null)]) := by
  rfl

end ExprLang.Value
