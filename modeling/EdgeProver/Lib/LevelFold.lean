import EdgeProver.Lib.FoldTree
import EdgeProver.Lib.Outcome

/-! A list folded level by level in a fold tree, against the same fold done node by node. -/
namespace LevelFold
open FoldTree
variable {α ε : Type}

/-- The list in runs of `k`; the last run may be shorter. -/
def chunks (k : Nat) (xs : List α) : List (List α) :=
  (List.range (xs.length ⌈/⌉ k)).map fun i => (xs.drop (i * k)).take k

/-- The whole level `v`, each level from the one below it. -/
def level (fan : Nat → Nat) (combine : Nat → List α → Except ε α) : Nat → List α → Except ε (List α)
  | 0, items => .ok items
  | v + 1, items => do (chunks (fan v) (← level fan combine v items)).mapM (combine v)

/-- Node `(v, i)` alone folds to this, from the nodes of its own group. -/
def Folds (fan : Nat → Nat) (n : Nat) (combine : Nat → List α → Except ε α) (item : Nat → α) : Nat → Nat → α → Prop
  | 0, i, y => y = item i
  | v + 1, i, y => ∃ xs, List.Forall₂ (Folds fan n combine item v)
      (List.range' (i * fan v) (groupLen fan n v i)) xs ∧ combine v xs = .ok y

/-- A list against a run of indices, place by place. -/
theorem forall₂_range' {R : Nat → α → Prop} {start len : Nat} {xs : List α} :
    List.Forall₂ R (List.range' start len) xs ↔ xs.length = len ∧ ∀ k y, xs[k]? = some y → R (start + k) y := by
  induction len generalizing start xs with
  | zero =>
    rw [List.range'_zero, List.forall₂_nil_left_iff]
    constructor
    · rintro rfl
      exact ⟨rfl, by simp⟩
    · exact fun h => List.eq_nil_of_length_eq_zero h.1
  | succ len ih =>
    cases xs with
    | nil => simp [List.range'_succ]
    | cons x xs =>
      rw [List.range'_succ, List.forall₂_cons, ih, List.length_cons, Nat.add_right_cancel_iff]
      constructor
      · rintro ⟨hx, hlen, hxs⟩
        refine ⟨hlen, fun k y hk => ?_⟩
        cases k with
        | zero =>
          obtain rfl : x = y := Option.some.inj hk
          exact hx
        | succ k =>
          rw [Nat.add_comm k, ← Nat.add_assoc]
          exact hxs k y hk
      · rintro ⟨hlen, hall⟩
        refine ⟨hall 0 x rfl, hlen, fun k y hk => ?_⟩
        rw [Nat.add_assoc, Nat.add_comm 1]
        exact hall (k + 1) y hk

theorem forall₂_trans {β γ : Type} {R : α → β → Prop} {S : β → γ → Prop} {T : α → γ → Prop}
    (h : ∀ a b c, R a b → S b c → T a c) {as : List α} {bs : List β} {cs : List γ} (hR : List.Forall₂ R as bs)
    (hS : List.Forall₂ S bs cs) : List.Forall₂ T as cs := by
  induction hR generalizing cs with
  | nil =>
    cases hS
    exact .nil
  | cons hab _ ih =>
    cases hS with
    | cons hbc hS => exact .cons (h _ _ _ hab hbc) (ih hS)

theorem forall₂_of_map_eq {β γ : Type} {f : α → γ} {g : β → γ} {as : List α} {bs : List β} (h : as.map f = bs.map g) :
    List.Forall₂ (fun a b => f a = g b) as bs := by
  induction as generalizing bs with
  | nil =>
    rw [List.map_eq_nil_iff.mp h.symm]
    exact .nil
  | cons a as ih =>
    cases bs with
    | nil => cases h
    | cons b bs =>
      obtain ⟨hab, h⟩ := List.cons.inj h
      exact .cons hab (ih h)

/-- What exists for every index up to `len` exists as a list. -/
theorem exists_list {R : Nat → α → Prop} {len : Nat} (h : ∀ i < len, ∃ y, R i y) :
    ∃ ys, List.Forall₂ R (List.range len) ys := by
  induction len with
  | zero => exact ⟨[], .nil⟩
  | succ len ih =>
    obtain ⟨ys, hys⟩ := ih fun i hi => h i (Nat.lt_succ_of_lt hi)
    obtain ⟨y, hy⟩ := h len (Nat.lt_succ_self len)
    refine ⟨ys ++ [y], ?_⟩
    rw [List.range_succ]
    exact List.rel_append hys (.cons hy .nil)

section
variable {fan : Nat → Nat} {n : Nat} {combine : Nat → List α → Except ε α} {item : Nat → α}

private theorem Folds.unique {v i : Nat} {y z : α} (hy : Folds fan n combine item v i y)
    (hz : Folds fan n combine item v i z) :
    y = z := by
  induction v generalizing i y z with
  | zero => exact hy.trans hz.symm
  | succ v ih =>
    obtain ⟨xs, hxs, hy⟩ := hy
    obtain ⟨xs', hxs', hz⟩ := hz
    have hright : Relator.RightUnique (Folds fan n combine item v) := fun _ _ _ h h' => ih h h'
    obtain rfl : xs = xs' := hright.forall₂ hxs hxs'
    exact Except.ok.inj (hy.symm.trans hz)

variable (hf : ∀ v, 0 < fan v)
include hf

/-- The group of the last node, and of no other, ends with the last node below. -/
theorem group_ends_iff {v i : Nat} (hi : i < width fan n (v + 1)) :
    i * fan v + groupLen fan n v i = width fan n v ↔ i + 1 = width fan n (v + 1) := by
  have hin := (lt_width_succ (hf v)).mp hi
  have hnext := lt_width_succ (n := n) (i := i + 1) (hf v)
  rw [Nat.succ_mul] at hnext
  rw [groupLen]
  omega

/-- Where a level is folded, so is the level below it. -/
theorem folds_below {v : Nat} (h : ∀ i < width fan n (v + 1), ∃ y, Folds fan n combine item (v + 1) i y) {j : Nat}
    (hj : j < width fan n v) : ∃ y, Folds fan n combine item v j y := by
  obtain ⟨-, xs, hxs, -⟩ := h (j / fan v) (parent_lt hf hj)
  obtain ⟨k, hk, hjk⟩ := (parent_eq_iff hf hj).mp rfl
  obtain ⟨hlen, hall⟩ := forall₂_range'.mp hxs
  refine ⟨xs[k], ?_⟩
  have hat := hall k xs[k] (List.getElem?_eq_getElem _)
  rwa [← hjk] at hat

omit hf in
private theorem combine_run {v i : Nat} {xs : List α} {y : α}
    (hxs : List.Forall₂ (Folds fan n combine item v) (List.range (width fan n v)) xs)
    (hy : Folds fan n combine item (v + 1) i y) : combine v ((xs.drop (i * fan v)).take (fan v)) = .ok y := by
  obtain ⟨group, hgroup, hcombine⟩ := hy
  rw [List.range_eq_range'] at hxs
  obtain ⟨hlen, hall⟩ := forall₂_range'.mp hxs
  have hrun : List.Forall₂ (Folds fan n combine item v) (List.range' (i * fan v) (groupLen fan n v i))
      ((xs.drop (i * fan v)).take (fan v)) := by
    refine forall₂_range'.mpr ⟨?_, fun k z hk => ?_⟩
    · rw [List.length_take, List.length_drop, hlen, groupLen]
    · rw [List.getElem?_take, List.getElem?_drop] at hk
      have hz : xs[i * fan v + k]? = some z := by
        split at hk
        · exact hk
        · cases hk
      have hat := hall _ z hz
      rwa [Nat.zero_add] at hat
  have hright : Relator.RightUnique (Folds fan n combine item v) := fun _ _ _ h h' => h.unique h'
  rw [hright.forall₂ hrun hgroup]
  exact hcombine

/-- Folding the levels from the bottom up comes to what the nodes fold to. -/
theorem level_eq {v : Nat} (h : ∀ i < width fan n v, ∃ y, Folds fan n combine item v i y) :
    ∃ ys, level fan combine v ((List.range n).map item) = .ok ys ∧
      List.Forall₂ (Folds fan n combine item v) (List.range (width fan n v)) ys := by
  induction v with
  | zero =>
    refine ⟨(List.range n).map item, rfl, ?_⟩
    rw [List.forall₂_map_right_iff]
    exact List.forall₂_same.mpr fun _ _ => rfl
  | succ v ih =>
    obtain ⟨xs, hlevel, hxs⟩ := ih fun i hi => folds_below hf h hi
    obtain ⟨ys, hys⟩ := exists_list h
    have hlen : xs.length = width fan n v := by rw [← hxs.length_eq, List.length_range]
    refine ⟨ys, ?_, hys⟩
    rw [level, hlevel]
    apply Outcome.mapM_ok_iff.mpr
    rw [chunks, hlen, List.forall₂_map_left_iff]
    exact hys.imp fun i y hy => combine_run hxs hy

/-- So does the root. -/
theorem level_root {v : Nat} {y : α} (hw : width fan n v = 1) (h : Folds fan n combine item v 0 y) :
    level fan combine v ((List.range n).map item) = .ok [y] := by
  have hone : ∀ i < width fan n v, ∃ y, Folds fan n combine item v i y := by
    intro i hi
    obtain rfl : i = 0 := by omega
    exact ⟨y, h⟩
  obtain ⟨ys, hlevel, hys⟩ := level_eq hf hone
  rw [hw] at hys
  cases hys with
  | cons hz hnil =>
    cases hnil
    rw [hlevel, hz.unique h]

end
end LevelFold
