import Mathlib.Algebra.GroupWithZero.Nat
import Mathlib.Data.List.Nodup
import Mathlib.Data.List.Perm.Basic

/-! One entry of a list exchanged for another, and what a key that the exchange keeps then tells. -/
namespace Replace

variable {α κ : Type*} {xs ys : List α} {x y z : α}

/-- `ys` is `xs` with one occurrence of `x` exchanged for `y`. -/
def Replaces (xs ys : List α) (x y : α) : Prop :=
  ∃ before after, xs = before ++ x :: after ∧ ys = before ++ y :: after

theorem replaces_set {i : Nat} (h : xs[i]? = some x) (y : α) : Replaces xs (xs.set i y) x y := by
  obtain ⟨hi, rfl⟩ := List.getElem?_eq_some_iff.mp h
  refine ⟨xs.take i, xs.drop (i + 1), ?_, ?_⟩
  · rw [List.getElem_cons_drop, List.take_append_drop]
  · rw [List.set_eq_take_append_cons_drop, if_pos hi]

namespace Replaces

theorem mem_left (h : Replaces xs ys x y) : x ∈ xs := by
  obtain ⟨before, after, rfl, -⟩ := h
  simp

theorem mem_right (h : Replaces xs ys x y) : y ∈ ys := by
  obtain ⟨before, after, -, rfl⟩ := h
  simp

theorem map_eq (h : Replaces xs ys x y) (key : α → κ) (hkey : key y = key x) : ys.map key = xs.map key := by
  obtain ⟨before, after, rfl, rfl⟩ := h
  simp only [List.map_append, List.map_cons, hkey]

theorem map {β : Type*} (h : Replaces xs ys x y) (f : α → β) : Replaces (xs.map f) (ys.map f) (f x) (f y) := by
  obtain ⟨before, after, rfl, rfl⟩ := h
  exact ⟨before.map f, after.map f, by simp, by simp⟩

theorem length_eq (h : Replaces xs ys x y) : ys.length = xs.length := by
  obtain ⟨before, after, rfl, rfl⟩ := h
  simp only [List.length_append, List.length_cons]

/-- A sum over the list changes by what the exchange changes. -/
theorem sum_eq (h : Replaces xs ys x y) (f : α → Nat) : (ys.map f).sum + f x = (xs.map f).sum + f y := by
  obtain ⟨before, after, rfl, rfl⟩ := h
  simp only [List.map_append, List.map_cons, List.sum_append, List.sum_cons]
  omega

/-- What one entry trades against `a` and `b`, the whole list does. -/
theorem flatMap_perm {β : Type*} (h : Replaces xs ys x y) (f : α → List β) {a b : List β}
    (hf : (f y ++ b).Perm (f x ++ a)) : (ys.flatMap f ++ b).Perm (xs.flatMap f ++ a) := by
  obtain ⟨before, after, rfl, rfl⟩ := h
  simp only [List.flatMap_append, List.flatMap_cons, List.append_assoc]
  refine List.Perm.append_left _ ?_
  have hswap : ∀ l r : List β, (l ++ (after.flatMap f ++ r)).Perm (after.flatMap f ++ (l ++ r)) := fun l r => by
    rw [← List.append_assoc, ← List.append_assoc]
    exact List.perm_append_comm.append_right r
  exact (hswap _ _).trans ((hf.append_left _).trans (hswap _ _).symm)

/-- What the exchange takes away from one entry is all that changes for the list. -/
theorem flatMap_subset {β : Type*} (h : Replaces xs ys x y) (f : α → List β) (hf : f y ⊆ f x) :
    ys.flatMap f ⊆ xs.flatMap f := by
  obtain ⟨before, after, rfl, rfl⟩ := h
  intro b hb
  simp only [List.flatMap_append, List.flatMap_cons, List.mem_append] at hb ⊢
  exact hb.imp_right (Or.imp_left (hf ·))

theorem of_mem_right (h : Replaces xs ys x y) (hz : z ∈ ys) : z = y ∨ z ∈ xs := by
  obtain ⟨before, after, rfl, rfl⟩ := h
  simp only [List.mem_append, List.mem_cons] at hz ⊢
  tauto

theorem of_mem_left (h : Replaces xs ys x y) (hz : z ∈ xs) : z = x ∨ z ∈ ys := by
  obtain ⟨before, after, rfl, rfl⟩ := h
  simp only [List.mem_append, List.mem_cons] at hz ⊢
  tauto

/-- What every old entry has, every new one has if the one exchanged in has it. -/
theorem forall_iff {P : α → Prop} (h : Replaces xs ys x y) (hxs : ∀ z ∈ xs, P z) : (∀ z ∈ ys, P z) ↔ P y := by
  constructor
  · intro hys
    exact hys y h.mem_right
  · intro hy z hz
    rcases h.of_mem_right hz with rfl | hz
    · exact hy
    · exact hxs z hz

/-- Where the key tells the entries apart, every other entry of the new list is an old one with
another key. -/
theorem other_of_mem_right (h : Replaces xs ys x y) (key : α → κ) (hnodup : (xs.map key).Nodup)
    (hkey : key y = key x) (hz : z ∈ ys) : z = y ∨ z ∈ xs ∧ key z ≠ key x := by
  obtain ⟨before, after, rfl, rfl⟩ := h
  simp only [List.map_append, List.map_cons, List.nodup_append, List.nodup_cons, List.mem_map] at hnodup
  obtain ⟨-, ⟨hafter, -⟩, hbefore⟩ := hnodup
  simp only [List.mem_append, List.mem_cons] at hz ⊢
  rcases hz with hz | rfl | hz
  · exact Or.inr ⟨Or.inl hz, hbefore _ ⟨z, hz, rfl⟩ _ (by simp)⟩
  · exact Or.inl rfl
  · exact Or.inr ⟨Or.inr (Or.inr hz), fun he => hafter ⟨z, hz, he⟩⟩

theorem exists_replaces (h : x ∈ xs) (y : α) : ∃ ys, Replaces xs ys x y := by
  obtain ⟨before, after, rfl⟩ := List.append_of_mem h
  exact ⟨before ++ y :: after, before, after, rfl, rfl⟩

theorem other_of_mem_left (h : Replaces xs ys x y) (hz : z ∈ xs) (hne : z ≠ x) : z ∈ ys :=
  (h.of_mem_left hz).resolve_left hne

end Replaces

/-- Two entries with the same key are the same entry. -/
theorem eq_of_key (key : α → κ) (hnodup : (xs.map key).Nodup) (hx : x ∈ xs) (hz : z ∈ xs) (h : key z = key x) : z = x :=
  List.inj_on_of_nodup_map hnodup hz hx h

end Replace
