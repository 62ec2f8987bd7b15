import Mathlib.Algebra.Order.Floor.Div
import Mathlib.Data.List.Basic
import Mathlib.Tactic.Ring

/-! Mixed-radix fold trees: `n` items at level 0, and every node of level `v + 1`
folds up to `fan v` consecutive nodes of level `v`. -/
namespace FoldTree

/-- Number of nodes at level `v`. -/
def width (fan : Nat → Nat) (n : Nat) : Nat → Nat
  | 0 => n
  | v + 1 => width fan n v ⌈/⌉ fan v

/-- Number of level-0 items below a full node of level `v`. -/
def size (fan : Nat → Nat) : Nat → Nat
  | 0 => 1
  | v + 1 => size fan v * fan v

/-- The group of node `(v + 1, i)` holds `groupLen` nodes of level `v`, from `i * fan v` on. -/
def groupLen (fan : Nat → Nat) (n v i : Nat) : Nat := min (fan v) (width fan n v - i * fan v)

/-- No node of level `v` is missing from the group of node `(v + 1, i)`. -/
def Full (fan : Nat → Nat) (n v i : Nat) : Prop := (i + 1) * fan v ≤ width fan n v

instance (fan : Nat → Nat) (n v i : Nat) : Decidable (Full fan n v i) :=
  inferInstanceAs (Decidable (_ ≤ _))

/-- First level-0 item below node `(v, i)`. -/
def first (fan : Nat → Nat) (v i : Nat) : Nat := i * size fan v

/-- Last level-0 item below node `(v, i)`. -/
def last (fan : Nat → Nat) (n v i : Nat) : Nat := min ((i + 1) * size fan v) n - 1

section
variable {fan : Nat → Nat} {n : Nat}

theorem lt_ceilDiv {a b i : Nat} (ha : 0 < a) : i < b ⌈/⌉ a ↔ i * a < b := by
  rw [← not_le, ← not_le, ceilDiv_le_iff_le_mul ha, Nat.mul_comm]

theorem ceilDiv_pos {a b : Nat} (ha : 0 < a) (hb : 0 < b) : 0 < b ⌈/⌉ a :=
  (lt_ceilDiv ha).mpr (by simpa using hb)

theorem ceilDiv_lt {a b : Nat} (ha : 2 ≤ a) (hb : 2 ≤ b) : b ⌈/⌉ a < b := by
  have hle : b ⌈/⌉ a ≤ b - 1 := (ceilDiv_le_iff_le_mul (by omega)).mpr <| by
    have := Nat.mul_le_mul_right (b - 1) ha
    omega
  omega

/-- Rounding up twice is rounding up once by the product. -/
theorem ceilDiv_ceilDiv {a b c : Nat} (ha : 0 < a) (hb : 0 < b) :
    c ⌈/⌉ a ⌈/⌉ b = c ⌈/⌉ (a * b) := by
  apply eq_of_forall_ge_iff
  intro m
  rw [ceilDiv_le_iff_le_mul hb, ceilDiv_le_iff_le_mul ha, ceilDiv_le_iff_le_mul (Nat.mul_pos ha hb),
    Nat.mul_assoc]

theorem lt_width_succ {v i : Nat} (hf : 0 < fan v) :
    i < width fan n (v + 1) ↔ i * fan v < width fan n v :=
  lt_ceilDiv hf

variable (hf : ∀ v, 0 < fan v)
include hf

theorem size_pos (v : Nat) : 0 < size fan v := by
  induction v with
  | zero => exact Nat.one_pos
  | succ v ih => exact Nat.mul_pos ih (hf v)

/-- Every level is the item count rounded up by the size of its nodes. -/
theorem width_eq (v : Nat) : width fan n v = n ⌈/⌉ size fan v := by
  induction v with
  | zero => simp [width, size]
  | succ v ih => rw [width, ih, ceilDiv_ceilDiv (size_pos hf v) (hf v), size]

theorem lt_width {v i : Nat} : i < width fan n v ↔ first fan v i < n := by
  rw [width_eq hf, lt_ceilDiv (size_pos hf v), first]

theorem width_pos (hn : 0 < n) (v : Nat) : 0 < width fan n v := by
  rw [lt_width hf, first]
  simpa using hn

theorem parent_lt {v i : Nat} (hi : i < width fan n v) : i / fan v < width fan n (v + 1) := by
  rw [lt_width_succ (hf v)]
  exact (Nat.div_mul_le_self i (fan v)).trans_lt hi

theorem groupLen_pos {v i : Nat} (hi : i < width fan n (v + 1)) : 0 < groupLen fan n v i := by
  have := hf v
  rw [lt_width_succ (hf v)] at hi
  unfold groupLen
  omega

/-- The nodes whose parent index is `i` are exactly the members of group `i`. -/
theorem parent_eq_iff {v i j : Nat} (hj : j < width fan n v) :
    j / fan v = i ↔ ∃ k < groupLen fan n v i, j = i * fan v + k := by
  have hp := hf v
  constructor
  · rintro rfl
    refine ⟨j % fan v, ?_, (Nat.div_add_mod' j (fan v)).symm⟩
    have hm := Nat.mod_lt j hp
    have he := Nat.div_add_mod' j (fan v)
    unfold groupLen
    omega
  · rintro ⟨k, hk, rfl⟩
    have hk' : k < fan v := by unfold groupLen at hk; omega
    rw [Nat.add_comm, Nat.add_mul_div_right _ _ hp, Nat.div_eq_of_lt hk', Nat.zero_add]

theorem full_iff_groupLen {v i : Nat} : Full fan n v i ↔ groupLen fan n v i = fan v := by
  have hp := hf v
  unfold Full groupLen
  rw [Nat.succ_mul]
  omega

/-- The one group of level `v` that is not full, if there is one, is the last. -/
theorem not_full_iff {v i : Nat} (hi : i < width fan n (v + 1)) :
    ¬ Full fan n v i ↔ width fan n v % fan v ≠ 0 ∧ i = width fan n v / fan v := by
  have hp := hf v
  rw [lt_width_succ hp] at hi
  unfold Full
  have he := Nat.div_add_mod' (width fan n v) (fan v)
  have hm := Nat.mod_lt (width fan n v) hp
  constructor
  · intro h
    have hdiv : width fan n v / fan v = i := by
      rw [Nat.div_eq_iff hp]
      rw [Nat.succ_mul] at h
      omega
    rw [hdiv] at he
    exact ⟨by omega, hdiv.symm⟩
  · rintro ⟨h0, rfl⟩
    rw [Nat.succ_mul]
    omega

theorem groupLen_partial {v : Nat} : groupLen fan n v (width fan n v / fan v) = width fan n v % fan v := by
  have he := Nat.div_add_mod' (width fan n v) (fan v)
  have hm := Nat.mod_lt (width fan n v) (hf v)
  unfold groupLen
  omega

omit hf in
theorem first_child (v i : Nat) : first fan v (i * fan v) = first fan (v + 1) i := by
  simp only [first, size]
  ring

omit hf in
theorem last_lt {v i : Nat} (hn : 0 < n) : last fan n v i < n := by
  unfold last
  omega

omit hf in
theorem last_mono {v i j : Nat} (h : i ≤ j) : last fan n v i ≤ last fan n v j := by
  have := Nat.mul_le_mul_right (size fan v) (Nat.add_le_add_right h 1)
  unfold last
  omega

omit hf in
theorem first_mono {v i j : Nat} (h : i ≤ j) : first fan v i ≤ first fan v j :=
  Nat.mul_le_mul_right _ h

/-- The last member of a group ends where its parent ends. -/
theorem last_child {v i : Nat} (hi : i < width fan n (v + 1)) :
    last fan n v (i * fan v + (groupLen fan n v i - 1)) = last fan n (v + 1) i := by
  have hg := groupLen_pos hf hi
  have hp := hf v
  by_cases h : Full fan n v i
  · have hlen := (full_iff_groupLen hf).mp h
    have hidx : i * fan v + (groupLen fan n v i - 1) + 1 = (i + 1) * fan v := by
      rw [hlen, Nat.succ_mul]; omega
    simp only [last, hidx, size]
    rw [Nat.mul_assoc, Nat.mul_comm (fan v)]
  · have hidx : i * fan v + (groupLen fan n v i - 1) + 1 = width fan n v := by
      rw [lt_width_succ hp] at hi
      simp only [Full, Nat.succ_mul] at h
      unfold groupLen
      omega
    have hv : n ≤ width fan n v * size fan v := by
      rw [Nat.mul_comm, ← ceilDiv_le_iff_le_mul (size_pos hf v), ← width_eq hf]
    have hv' : n ≤ (i + 1) * size fan (v + 1) := by
      refine hv.trans ?_
      rw [size, Nat.mul_comm (size fan v), ← Nat.mul_assoc]
      exact Nat.mul_le_mul_right _ (Nat.le_of_not_le h)
    simp only [last, hidx]
    omega

theorem last_of_width_one {v : Nat} (h : width fan n v = 1) : last fan n v 0 = n - 1 := by
  have hv : n ≤ size fan v := by
    rw [width_eq hf] at h
    simpa using (ceilDiv_le_iff_le_mul (size_pos hf v)).mp h.le
  simp only [last, Nat.zero_add, Nat.one_mul]
  omega

theorem width_succ_of_one {v : Nat} (h : width fan n v = 1) : width fan n (v + 1) = 1 := by
  have h1 : width fan n (v + 1) ≤ 1 := by
    rw [width, h]
    exact (ceilDiv_le_iff_le_mul (hf v)).mpr (by have := hf v; omega)
  have h0 : 0 < width fan n (v + 1) := by
    rw [lt_width_succ (hf v)]
    omega
  omega

theorem width_of_one_le {v u : Nat} (h : width fan n v = 1) (hu : v ≤ u) : width fan n u = 1 := by
  induction u, hu using Nat.le_induction with
  | base => exact h
  | succ u _ ih => exact width_succ_of_one hf ih

end
end FoldTree
