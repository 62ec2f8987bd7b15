import Mathlib.Data.List.Sort

/-! Maps as lists of entries with distinct keys: in the order of insertion, or in the order of the keys. -/
namespace KeyedList

variable {K V : Type*}

section Unordered
variable [BEq K] [LawfulBEq K]

/-- Insertion: a known key keeps its place and gets the new value, a new one goes to the end. -/
def put (key : K) (value : V) : List (K × V) → List (K × V)
  | [] => [(key, value)]
  | entry :: rest => if entry.1 == key then (key, value) :: rest else entry :: put key value rest

/-- Change the value of one key, if it is there. -/
def modify (key : K) (f : V → V) (entries : List (K × V)) : List (K × V) :=
  entries.map fun entry => if entry.1 == key then (entry.1, f entry.2) else entry

def remove (key : K) (entries : List (K × V)) : List (K × V) := entries.filter fun entry => entry.1 != key

variable {key other : K} {value : V} {entries : List (K × V)}

omit [LawfulBEq K] in
private theorem lookup_cons (key : K) (entry : K × V) (rest : List (K × V)) :
    (entry :: rest).lookup key = if key == entry.1 then some entry.2 else rest.lookup key := by
  rw [List.lookup_cons]
  cases key == entry.1 <;> rfl

theorem lookup_isSome : (entries.lookup key).isSome = true ↔ key ∈ entries.map Prod.fst := by
  rw [List.lookup_isSome_iff, List.mem_map]
  constructor
  · rintro ⟨entry, hentry, hkey⟩
    exact ⟨entry, hentry, (beq_iff_eq.mp hkey).symm⟩
  · rintro ⟨entry, hentry, rfl⟩
    exact ⟨entry, hentry, beq_self_eq_true _⟩

theorem lookup_of_mem (hkeys : (entries.map Prod.fst).Nodup) (h : (key, value) ∈ entries) :
    entries.lookup key = some value := by
  induction entries with
  | nil => cases h
  | cons entry rest ih =>
    rw [List.map_cons, List.nodup_cons] at hkeys
    rw [lookup_cons]
    rcases List.mem_cons.mp h with rfl | hrest
    · exact if_pos (beq_self_eq_true key)
    · rw [if_neg]
      · exact ih hkeys.2 hrest
      · intro hkey
        rw [beq_iff_eq] at hkey
        exact hkeys.1 (hkey ▸ List.mem_map_of_mem (f := Prod.fst) hrest)

omit [LawfulBEq K] in
private theorem lookup_shadow {k : K} (hkey : k = key) (v : V) (rest : List (K × V)) :
    (if other == key then some value else if other == k then some v else rest.lookup other) =
      if other == key then some value else rest.lookup other := by
  subst hkey
  split <;> rfl

private theorem lookup_behind {k : K} (hkey : k ≠ key) (v : V) (rest : List (K × V)) :
    (if other == k then some v else if other == key then some value else rest.lookup other) =
      if other == key then some value else if other == k then some v else rest.lookup other := by
  by_cases hother : other == key
  · have hk : ¬ (other == k) = true := by
      intro hk
      exact hkey ((beq_iff_eq.mp hk).symm.trans (beq_iff_eq.mp hother))
    rw [if_neg hk, if_pos hother]
    exact (if_pos hother).symm
  · rw [if_neg hother, if_neg hother]

@[simp] theorem lookup_put (key other : K) (value : V) (entries : List (K × V)) :
    (put key value entries).lookup other = if other == key then some value else entries.lookup other := by
  induction entries with
  | nil => rw [put, lookup_cons]
  | cons entry rest ih =>
    rw [put, lookup_cons other entry]
    split
    · rename_i hentry
      rw [lookup_shadow (beq_iff_eq.mp hentry), lookup_cons]
    · rename_i hentry
      rw [lookup_cons, ih, lookup_behind]
      simpa using hentry

private theorem mem_keys_put : other ∈ (put key value entries).map Prod.fst ↔ other = key ∨
    other ∈ entries.map Prod.fst := by
  rw [← lookup_isSome, lookup_put, ← lookup_isSome]
  by_cases hother : other = key <;> simp [hother]

omit [LawfulBEq K] in
private theorem mem_of_mem_put {entry : K × V} (h : entry ∈ put key value entries) : entry = (key, value) ∨
    entry ∈ entries := by
  induction entries with
  | nil => exact .inl (List.mem_singleton.mp h)
  | cons first rest ih =>
    rw [put] at h
    split at h
    · exact (List.mem_cons.mp h).imp_right (List.mem_cons_of_mem _)
    · rcases List.mem_cons.mp h with rfl | h
      · exact .inr List.mem_cons_self
      · exact (ih h).imp_right (List.mem_cons_of_mem _)

/-- A new key goes to the end. -/
theorem put_of_notMem (hkey : key ∉ entries.map Prod.fst) : put key value entries = entries ++ [(key, value)] := by
  induction entries with
  | nil => rfl
  | cons first rest ih =>
    rw [List.map_cons, List.mem_cons, not_or] at hkey
    have hfirst : ¬ (first.1 == key) = true := fun he => hkey.1 (beq_iff_eq.mp he).symm
    rw [put, if_neg hfirst, ih hkey.2, List.cons_append]

omit [LawfulBEq K] in
/-- The map collected from a list of entries has no others. -/
theorem mem_of_mem_foldl_put {entry : K × V} {news : List (K × V)}
    (h : entry ∈ news.foldl (fun map new => put new.1 new.2 map) entries) : entry ∈ entries ∨ entry ∈ news := by
  induction news generalizing entries with
  | nil => exact .inl h
  | cons new news ih =>
    rcases ih h with hold | hnew
    · rcases mem_of_mem_put hold with rfl | hold
      · exact .inr List.mem_cons_self
      · exact .inl hold
    · exact .inr (List.mem_cons_of_mem _ hnew)

theorem mem_keys_foldl_put {news : List (K × V)} :
    key ∈ (news.foldl (fun map new => put new.1 new.2 map) entries).map Prod.fst ↔
      key ∈ entries.map Prod.fst ∨ key ∈ news.map Prod.fst := by
  induction news generalizing entries with
  | nil => simp
  | cons new news ih =>
    rw [List.foldl_cons, ih, mem_keys_put, List.map_cons, List.mem_cons]
    tauto

theorem nodup_put (hkeys : (entries.map Prod.fst).Nodup) : ((put key value entries).map Prod.fst).Nodup := by
  induction entries with
  | nil => exact List.nodup_singleton key
  | cons entry rest ih =>
    rw [List.map_cons, List.nodup_cons] at hkeys
    rw [put]
    split
    · rename_i hentry
      rw [List.map_cons, List.nodup_cons, ← beq_iff_eq.mp hentry]
      exact hkeys
    · rename_i hentry
      rw [List.map_cons, List.nodup_cons, mem_keys_put]
      refine ⟨?_, ih hkeys.2⟩
      rintro (he | hmem)
      · exact hentry (beq_iff_eq.mpr he)
      · exact hkeys.1 hmem

omit [LawfulBEq K] in
@[simp] theorem keys_modify (f : V → V) : (modify key f entries).map Prod.fst = entries.map Prod.fst := by
  rw [modify, List.map_map]
  apply List.map_congr_left
  intro entry _
  rw [Function.comp_apply]
  split <;> rfl

@[simp] theorem lookup_modify (key other : K) (f : V → V) (entries : List (K × V)) :
    (modify key f entries).lookup other =
      if other == key then (entries.lookup other).map f else entries.lookup other := by
  induction entries with
  | nil => simp [modify]
  | cons entry rest ih =>
    rw [modify] at ih
    rw [modify, List.map_cons, lookup_cons, lookup_cons, ih]
    by_cases hkey : entry.1 == key
    · rw [if_pos hkey]
      rw [beq_iff_eq] at hkey
      subst hkey
      by_cases hother : other = entry.1 <;> simp [hother]
    · rw [if_neg hkey]
      rw [beq_iff_eq] at hkey
      by_cases hother : other = entry.1
      · subst hother
        simp [hkey]
      · simp [hother]

@[simp] theorem lookup_remove (key other : K) (entries : List (K × V)) :
    (remove key entries).lookup other = if other == key then none else entries.lookup other := by
  induction entries with
  | nil => simp [remove]
  | cons entry rest ih =>
    rw [remove] at ih
    rw [remove, List.filter_cons, lookup_cons]
    by_cases hkey : entry.1 == key
    · have hdrop : ¬ (entry.1 != key) = true := by rw [bne, hkey]; simp
      rw [if_neg hdrop, ih, ← beq_iff_eq.mp hkey]
      split <;> rfl
    · have hkeep : (entry.1 != key) = true := by simpa using hkey
      rw [if_pos hkeep, lookup_cons, ih]
      rw [beq_iff_eq] at hkey
      by_cases hother : other = entry.1
      · subst hother
        simp [hkey]
      · simp [hother]

end Unordered

section Ordered
variable [LinearOrder K] [BEq K] [LawfulBEq K]

def insertOrdered (key : K) (value : V) : List (K × V) → List (K × V)
  | [] => [(key, value)]
  | entry :: rest =>
    if key < entry.1 then (key, value) :: entry :: rest
    else if key = entry.1 then (key, value) :: rest
    else entry :: insertOrdered key value rest

variable {key other : K} {value : V} {entries : List (K × V)}

@[simp] theorem lookup_insertOrdered (key other : K) (value : V) (entries : List (K × V)) :
    (insertOrdered key value entries).lookup other = if other == key then some value else entries.lookup other := by
  induction entries with
  | nil => rw [insertOrdered, lookup_cons]
  | cons entry rest ih =>
    rw [insertOrdered]
    split
    · rw [lookup_cons]
    · rw [lookup_cons other entry]
      split
      · rename_i hentry
        rw [lookup_shadow hentry.symm, lookup_cons]
      · rename_i hentry
        rw [lookup_cons, ih, lookup_behind (Ne.symm hentry)]

private theorem mem_keys_insertOrdered :
    other ∈ (insertOrdered key value entries).map Prod.fst ↔ other = key ∨ other ∈ entries.map Prod.fst := by
  rw [← lookup_isSome, lookup_insertOrdered, ← lookup_isSome]
  by_cases hother : other = key <;> simp [hother]

theorem sorted_insertOrdered (h : (entries.map Prod.fst).Pairwise (· < ·)) :
    ((insertOrdered key value entries).map Prod.fst).Pairwise (· < ·) := by
  induction entries with
  | nil => exact List.pairwise_singleton _ key
  | cons entry rest ih =>
    have hwhole := h
    rw [List.map_cons, List.pairwise_cons] at h
    rw [insertOrdered]
    split
    · rename_i hless
      rw [List.map_cons, List.pairwise_cons]
      refine ⟨fun next hnext => ?_, hwhole⟩
      rcases List.mem_cons.mp hnext with rfl | hnext
      · exact hless
      · exact hless.trans (h.1 next hnext)
    · split
      · rename_i hkey
        rw [List.map_cons, List.pairwise_cons, hkey]
        exact h
      · rename_i hless hkey
        rw [List.map_cons, List.pairwise_cons]
        refine ⟨fun next hnext => ?_, ih h.2⟩
        rcases mem_keys_insertOrdered.mp hnext with rfl | hnext
        · exact lt_of_le_of_ne (le_of_not_gt hless) (Ne.symm hkey)
        · exact h.1 next hnext

end Ordered

section Range
variable {keys : List ℕ} {n : ℕ}

/-- Increasing numbers that are those below `n`. -/
theorem eq_range_of_sorted (h : keys.Pairwise (· < ·)) (hmem : ∀ i, i ∈ keys ↔ i < n) : keys = List.range n := by
  have hperm : keys.Perm (List.range n) := by
    rw [List.perm_ext_iff_of_nodup (h.imp fun hlt => hlt.ne) List.nodup_range]
    intro i
    rw [hmem, List.mem_range]
  exact hperm.eq_of_pairwise (fun i j _ _ hij hji => absurd hij (Nat.lt_asymm hji)) h List.pairwise_lt_range

/-- As many numbers as there are below `n`, all of these among them, leave room for no other. -/
theorem mem_iff_lt_of_length (hlength : keys.length = n) (hall : ∀ i < n, i ∈ keys) (i : ℕ) : i ∈ keys ↔ i < n := by
  have hsub : List.range n ⊆ keys := fun j hj => hall j (List.mem_range.mp hj)
  have hperm : (List.range n).Perm keys := by
    refine (List.subperm_of_subset List.nodup_range hsub).perm_of_length_le ?_
    rw [List.length_range, hlength]
  rw [← hperm.mem_iff, List.mem_range]

/-- As many different numbers below `n` as there are leave none out. -/
theorem mem_iff_lt_of_nodup (hlength : keys.length = n) (hnodup : keys.Nodup) (hlt : ∀ i ∈ keys, i < n) (i : ℕ) :
    i ∈ keys ↔ i < n := by
  have hsub : keys ⊆ List.range n := fun j hj => List.mem_range.mpr (hlt j hj)
  have hperm : keys.Perm (List.range n) := by
    refine (List.subperm_of_subset hnodup hsub).perm_of_length_le ?_
    rw [List.length_range, hlength]
  rw [hperm.mem_iff, List.mem_range]

variable {entries : List (ℕ × V)}

/-- With keys that are a range, the values in order are the values of the range's keys. -/
theorem values_of_range (hkeys : entries.map Prod.fst = List.range n) (i : ℕ) :
    (entries.map Prod.snd)[i]? = entries.lookup i := by
  have hnodup : (entries.map Prod.fst).Nodup := hkeys ▸ List.nodup_range
  have hlength : entries.length = n := by
    rw [← List.length_range (n := n), ← hkeys, List.length_map]
  rw [List.getElem?_map]
  by_cases hi : i < entries.length
  · have hfst : (entries[i]).1 = i := by
      have hkey : (entries.map Prod.fst)[i]? = (List.range n)[i]? := by rw [hkeys]
      rw [List.getElem?_map, List.getElem?_eq_getElem hi, List.getElem?_range (hlength ▸ hi)] at hkey
      exact Option.some.inj hkey
    have hmem : (i, (entries[i]).2) ∈ entries := by
      have hself : (entries[i].1, entries[i].2) ∈ entries := List.getElem_mem hi
      rwa [hfst] at hself
    rw [List.getElem?_eq_getElem hi, lookup_of_mem hnodup hmem]
    rfl
  · have hnone : ¬ (entries.lookup i).isSome = true := by
      rw [lookup_isSome, hkeys, List.mem_range]
      omega
    rw [List.getElem?_eq_none (Nat.le_of_not_lt hi), Option.not_isSome_iff_eq_none.mp hnone]
    rfl

end Range
end KeyedList
