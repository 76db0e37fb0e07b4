import ExprLang.Entries

/-!
# Entries in and out

Which entries the operations on keyed lists leave: `mem_insert`, `mem_union`. In a list without
repeated keys an entry is found under its key (`find?_eq_some_iff`), whatever the order of the list
(`find?_of_perm`). An insertion is seen under its own key alone (`find?_insert`, `find?_insertNew`).
It does not matter how three lists are united (`union_assoc`), and sorting forgets the order of a list
(`sorted_eq_of_perm`).
-/

namespace ExprLang.Entries

variable {α : Type} {es fs : Entries α} {k : String} {v : α}

theorem mem_of_find? (h : find? es k = some v) : (k, v) ∈ es := by
  obtain ⟨before, after, rfl, -⟩ := List.lookup_eq_some_iff.1 h
  exact List.mem_append_right _ List.mem_cons_self

theorem find?_eq_some_iff (hes : Nodup es) : find? es k = some v ↔ (k, v) ∈ es := by
  refine ⟨mem_of_find?, fun h => ?_⟩
  obtain ⟨before, after, rfl⟩ := List.append_of_mem h
  refine List.lookup_eq_some_iff.2 ⟨before, after, rfl, fun f hf => ?_⟩
  rw [Nodup, keys, List.map_append, List.nodup_append] at hes
  exact bne_iff_ne.2 (hes.2.2 f.1 (List.mem_map_of_mem hf) k List.mem_cons_self).symm

theorem find?_of_perm (h : es.Perm fs) (hes : Nodup es) (k : String) : find? es k = find? fs k := by
  have hfs : Nodup fs := (h.map Prod.fst).nodup hes
  refine Option.ext fun v => ?_
  rw [find?_eq_some_iff hes, find?_eq_some_iff hfs, h.mem_iff]

/-- Without repeated keys, what is found is all there is. -/
theorem perm_of_find? (hes : Nodup es) (hfs : Nodup fs) (h : ∀ k, find? es k = find? fs k) : es.Perm fs := by
  have hdistinct : ∀ {gs : Entries α}, Nodup gs → List.Nodup gs := fun h =>
    (List.pairwise_map.1 h).imp fun hkey heq => hkey (congrArg Prod.fst heq)
  refine (List.perm_ext_iff_of_nodup (hdistinct hes) (hdistinct hfs)).2 fun f => ?_
  rw [← find?_eq_some_iff hes (k := f.1), h, find?_eq_some_iff hfs]

theorem find?_append (es fs : Entries α) (k : String) : find? (es ++ fs) k = (find? es k).or (find? fs k) :=
  List.lookup_append

/-- Entries with other keys do not count. -/
theorem find?_append_of_notMem (h : k ∉ keys fs) : find? (es ++ fs) k = find? es k := by
  rw [find?_append, find?_eq_none_iff.2 h, Option.or_none]

theorem find?_cons (l : String) (w : α) (es : Entries α) (k : String) :
    find? ((l, w) :: es) k = if l = k then some w else find? es k := by
  rw [find?, List.lookup_cons]
  by_cases h : l = k
  · rw [if_pos h, h, beq_self_eq_true]
  · rw [if_neg h, beq_false_of_ne (Ne.symm h)]
    rfl

theorem find?_insert (es : Entries α) (k : String) (v : α) (l : String) :
    find? (insert es k v) l = if k = l then some v else find? es l := by
  induction es with
  | nil => exact find?_cons k v [] l
  | cons e es ih =>
    obtain ⟨m, w⟩ := e
    by_cases hm : m = k
    · subst hm
      rw [insert, if_pos rfl, find?_cons, find?_cons]
      split <;> rfl
    · rw [insert, if_neg hm, find?_cons, find?_cons, ih]
      by_cases hl : m = l
      · rw [if_pos hl, if_pos hl, if_neg fun hk => hm (hl.trans hk.symm)]
      · rw [if_neg hl, if_neg hl]

theorem find?_insertNew (h : k ∉ keys es) (v : α) (l : String) :
    find? (insertNew es k v) l = if k = l then some v else find? es l := by
  rw [insertNew, if_neg (mt contains_iff.1 h), find?_append]
  by_cases hl : k = l
  · subst hl
    rw [find?_eq_none_iff.2 h, if_pos rfl, find?_cons, if_pos rfl]
    rfl
  · rw [if_neg hl, find?_cons, if_neg hl]
    exact Option.or_none

theorem mem_insert {f : String × α} (h : f ∈ insert es k v) : f ∈ es ∨ f = (k, v) := by
  induction es with
  | nil => exact .inr (List.mem_singleton.1 h)
  | cons e es ih =>
    rw [insert] at h
    split at h
    · rcases List.mem_cons.1 h with rfl | h
      · exact .inr rfl
      · exact .inl (List.mem_cons_of_mem _ h)
    · rcases List.mem_cons.1 h with rfl | h
      · exact .inl List.mem_cons_self
      · exact (ih h).imp_left (List.mem_cons_of_mem _)

theorem mem_union {f : String × α} (h : f ∈ union es fs) : f ∈ es ∨ f ∈ fs := by
  induction fs generalizing es with
  | nil => exact .inl h
  | cons g fs ih =>
    have hmem : f ∈ union (insert es g.1 g.2) fs := h
    rcases ih hmem with h | h
    · exact (mem_insert h).imp_right fun h => by rw [h]; exact List.mem_cons_self
    · exact .inr (List.mem_cons_of_mem _ h)

/-! ## Union -/

theorem insert_cons_self (l : String) (v w : α) (es : Entries α) : insert ((l, v) :: es) l w = (l, w) :: es := by
  rw [insert, if_pos rfl]

theorem insert_cons_of_ne {l : String} (h : l ≠ k) (v w : α) (es : Entries α) :
    insert ((l, v) :: es) k w = (l, v) :: insert es k w := by
  rw [insert, if_neg h]

/-- The last value stays. -/
theorem insert_insert (es : Entries α) (k : String) (v w : α) : insert (insert es k v) k w = insert es k w := by
  induction es with
  | nil => exact insert_cons_self k v w []
  | cons e es ih =>
    obtain ⟨l, u⟩ := e
    by_cases h : l = k
    · subst h
      rw [insert_cons_self, insert_cons_self, insert_cons_self]
    · rw [insert_cons_of_ne h, insert_cons_of_ne h, insert_cons_of_ne h, ih]

/-- What is under a key that is there can be replaced before or after other insertions. -/
theorem insert_comm {l : String} (hk : k ∈ keys es) (hl : l ≠ k) (v w : α) :
    insert (insert es l w) k v = insert (insert es k v) l w := by
  induction es with
  | nil => cases hk
  | cons e es ih =>
    obtain ⟨m, u⟩ := e
    by_cases hmk : m = k
    · subst hmk
      rw [insert_cons_of_ne hl.symm, insert_cons_self, insert_cons_self, insert_cons_of_ne hl.symm]
    · have hk : k ∈ keys es := (List.mem_cons.1 hk).resolve_left (Ne.symm hmk)
      by_cases hml : m = l
      · subst hml
        rw [insert_cons_self, insert_cons_of_ne hmk, insert_cons_of_ne hmk, insert_cons_self]
      · rw [insert_cons_of_ne hml, insert_cons_of_ne hmk, insert_cons_of_ne hmk, insert_cons_of_ne hml, ih hk]

theorem mem_keys_insert {l : String} : l ∈ keys (insert es k v) ↔ l ∈ keys es ∨ l = k := by
  rw [keys_insert]
  split
  · next h => exact ⟨.inl, fun hl => hl.elim id fun hl => hl ▸ h⟩
  · rw [List.mem_append, List.mem_singleton]

theorem union_cons (es : Entries α) (l : String) (w : α) (fs : Entries α) :
    union es ((l, w) :: fs) = union (insert es l w) fs := rfl

/-- Under a shared key the second list counts. -/
theorem find?_union (hfs : Nodup fs) (es : Entries α) (k : String) :
    find? (union es fs) k = (find? fs k).or (find? es k) := by
  induction fs generalizing es with
  | nil => rfl
  | cons f fs ih =>
    obtain ⟨l, w⟩ := f
    obtain ⟨hl, hfs⟩ := List.nodup_cons.1 hfs
    rw [union_cons, ih hfs, find?_insert, find?_cons]
    by_cases h : l = k
    · have hnone : find? fs k = none := find?_eq_none_iff.2 (h ▸ hl)
      rw [hnone, if_pos h, if_pos h, Option.none_or, Option.some_or]
    · rw [if_neg h, if_neg h]

theorem insert_union (hk : k ∈ keys es) (hfs : k ∉ keys fs) (v : α) :
    insert (union es fs) k v = union (insert es k v) fs := by
  induction fs generalizing es with
  | nil => rfl
  | cons f fs ih =>
    obtain ⟨l, w⟩ := f
    obtain ⟨hl, hfs⟩ := not_or.1 (mt List.mem_cons.2 hfs)
    rw [union_cons, union_cons, ih (mem_keys_insert.2 (.inl hk)) hfs, insert_comm hk (Ne.symm hl)]

theorem union_insert (hfs : Nodup fs) (es : Entries α) (k : String) (v : α) :
    union es (insert fs k v) = insert (union es fs) k v := by
  induction fs generalizing es with
  | nil => rfl
  | cons f fs ih =>
    obtain ⟨l, w⟩ := f
    obtain ⟨hl, hfs⟩ := List.nodup_cons.1 hfs
    by_cases h : l = k
    · subst h
      rw [insert_cons_self, union_cons, union_cons, insert_union (mem_keys_insert.2 (.inr rfl)) hl, insert_insert]
    · rw [insert_cons_of_ne h, union_cons, union_cons, ih hfs]

theorem union_assoc (hfs : Nodup fs) (es gs : Entries α) : union (union es fs) gs = union es (union fs gs) := by
  induction gs generalizing fs with
  | nil => rfl
  | cons g gs ih =>
    obtain ⟨k, v⟩ := g
    -- The entry moves from the third list to the second.
    rw [union_cons, union_cons, ← union_insert hfs, ih (nodup_insert hfs k v)]

/-! ## Sorted entries -/

theorem sorted_perm (es : Entries α) : (sorted es).Perm es := List.mergeSort_perm es _

theorem pairwise_sorted (es : Entries α) : (sorted es).Pairwise fun e f => e.1 ≤ f.1 := by
  have htrans : ∀ e f g : String × α, decide (e.1 ≤ f.1) = true → decide (f.1 ≤ g.1) = true →
      decide (e.1 ≤ g.1) = true := by
    simpa only [decide_eq_true_eq] using fun e f g => String.le_trans
  have htotal : ∀ e f : String × α, (decide (e.1 ≤ f.1) || decide (f.1 ≤ e.1)) = true := by
    simpa only [Bool.or_eq_true, decide_eq_true_eq] using fun (e f : String × α) => String.le_total e.1 f.1
  exact (List.pairwise_mergeSort htrans htotal es).imp of_decide_eq_true

theorem keys_sorted_of_perm {β : Type} {fs : Entries β} (h : (keys es).Perm (keys fs)) :
    keys (sorted es) = keys (sorted fs) := by
  have hperm : (keys (sorted es)).Perm (keys (sorted fs)) :=
    ((sorted_perm es).map Prod.fst).trans (h.trans ((sorted_perm fs).map Prod.fst).symm)
  exact hperm.eq_of_pairwise (fun _ _ _ _ => String.le_antisymm) (List.pairwise_map.2 (pairwise_sorted es))
    (List.pairwise_map.2 (pairwise_sorted fs))

/-- Without repeated keys there is one order. -/
theorem sorted_eq_of_perm (h : es.Perm fs) (hes : Nodup es) : sorted es = sorted fs := by
  have hperm : (sorted es).Perm (sorted fs) := (sorted_perm es).trans (h.trans (sorted_perm fs).symm)
  refine hperm.eq_of_pairwise (fun e f he hf hef hfe => ?_) (pairwise_sorted es) (pairwise_sorted fs)
  have he : find? es e.1 = some e.2 := (find?_eq_some_iff hes).2 ((sorted_perm es).mem_iff.1 he)
  have hf : find? es f.1 = some f.2 := (find?_eq_some_iff hes).2 (h.mem_iff.2 ((sorted_perm fs).mem_iff.1 hf))
  have hkey : e.1 = f.1 := String.le_antisymm hef hfe
  rw [hkey, hf] at he
  exact Prod.ext hkey (Option.some.inj he).symm

end ExprLang.Entries
