/-!
# Keyed lists

Pairs of a key and a value in the order in which the keys were first inserted. Inserting under a key
that is present replaces its value in place. Only lists without a repeated key stand for a map;
every operation keeps that (`nodup_insert`, `nodup_insertNew`, `nodup_union`).
-/

namespace ExprLang

abbrev Entries (α : Type) := List (String × α)

namespace Entries

variable {α : Type}

def keys (es : Entries α) : List String := es.map Prod.fst

def find? (es : Entries α) (k : String) : Option α := List.lookup k es

def contains (es : Entries α) (k : String) : Bool := (find? es k).isSome

def insert : Entries α → String → α → Entries α
  | [], k, v => [(k, v)]
  | (l, w) :: r, k, v => if l = k then (k, v) :: r else (l, w) :: insert r k v

/-- Inserts only under a key that is not there yet. -/
def insertNew (es : Entries α) (k : String) (v : α) : Entries α := if contains es k then es else es ++ [(k, v)]

/-- The entries of both lists; under a shared key the value of the second. -/
def union (es fs : Entries α) : Entries α := fs.foldl (fun acc f => insert acc f.1 f.2) es

/-- Repeated keys keep their first place and their last value. -/
def ofPairs (es : List (String × α)) : Entries α := union [] es

/-- The entries in the order of their keys. -/
def sorted (es : Entries α) : Entries α := es.mergeSort fun a b => a.1 ≤ b.1

def Nodup (es : Entries α) : Prop := (keys es).Nodup

/-! ## Keys of the operations -/

theorem keys_insert (es : Entries α) (k : String) (v : α) :
    keys (insert es k v) = if k ∈ keys es then keys es else keys es ++ [k] := by
  induction es with
  | nil => simp [insert, keys]
  | cons e r ih =>
    obtain ⟨l, w⟩ := e
    by_cases h : l = k
    · subst h; simp [insert, keys]
    · have hk : k ≠ l := fun e => h e.symm
      simp only [keys] at ih
      by_cases hm : k ∈ r.map Prod.fst <;> simp [insert, keys, h, hk, ih, hm]

theorem find?_eq_none_iff {es : Entries α} {k : String} : find? es k = none ↔ k ∉ keys es := by
  induction es with
  | nil => simp [find?, keys]
  | cons e r ih =>
    rw [find?, keys] at ih
    rw [find?, keys, List.lookup_cons, List.map_cons, List.mem_cons]
    by_cases h : k = e.1
    · simp [h]
    · rw [beq_false_of_ne h, ih]
      simp [h]

theorem contains_iff {es : Entries α} {k : String} : contains es k = true ↔ k ∈ keys es := by
  have h : find? es k = none ↔ k ∉ keys es := find?_eq_none_iff
  unfold contains
  cases hf : find? es k <;> simp_all

theorem nodup_insert {es : Entries α} (h : Nodup es) (k : String) (v : α) : Nodup (insert es k v) := by
  unfold Nodup at *
  rw [keys_insert]
  split
  · exact h
  · next hk => exact List.nodup_append.2 ⟨h, by simp, by rintro a ha b hb rfl; simp_all⟩

theorem nodup_insertNew {es : Entries α} (h : Nodup es) (k : String) (v : α) : Nodup (insertNew es k v) := by
  unfold insertNew
  split
  · exact h
  · next hk =>
    rw [contains_iff] at hk
    have hkeys : keys (es ++ [(k, v)]) = keys es ++ [k] := by simp [keys]
    unfold Nodup at *
    rw [hkeys]
    exact List.nodup_append.2 ⟨h, by simp, by rintro a ha b hb rfl; simp_all⟩

theorem nodup_union {es : Entries α} (h : Nodup es) (fs : Entries α) : Nodup (union es fs) := by
  unfold union
  induction fs generalizing es with
  | nil => exact h
  | cons f r ih => exact ih (nodup_insert h f.1 f.2)

theorem nodup_ofPairs (es : List (String × α)) : Nodup (ofPairs es) :=
  have h : Nodup ([] : Entries α) := by simp [Nodup, keys]
  nodup_union h es

end Entries

end ExprLang
