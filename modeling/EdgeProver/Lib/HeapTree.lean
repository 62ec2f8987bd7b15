import Mathlib.Data.Nat.Bitwise

/-! Hash trees in heap order: the root is node `1` and the children of node `i` are `2 * i` and `2 * i + 1`. -/
namespace HeapTree

variable {D : Type*} (hash : D → D → D) (node : Nat → D)

/-- Every node above the leaves hashes its children. -/
def IsHashed (height : Nat) : Prop := ∀ i, 1 ≤ i → i < 2 ^ height → node i = hash (node (2 * i)) (node (2 * i + 1))

/-- The siblings met on the way from a node to its ancestor `levels` above. -/
def siblings (i : Nat) : Nat → List D
  | 0 => []
  | levels + 1 => node (i ^^^ 1) :: siblings (i / 2) levels

/-- The digest that the siblings lead to: an even node is the left child, an odd one the right. -/
def climb (digest : D) (i : Nat) : List D → D
  | [] => digest
  | sibling :: rest => climb (if i % 2 = 0 then hash digest sibling else hash sibling digest) (i / 2) rest

variable {hash node}

@[simp] theorem siblings_length (i levels : Nat) : (siblings node i levels).length = levels := by
  induction levels generalizing i with
  | zero => rfl
  | succ levels ih => rw [siblings, List.length_cons, ih]

theorem siblings_drop (i levels depth : Nat) :
    (siblings node i levels).drop depth = siblings node (i / 2 ^ depth) (levels - depth) := by
  induction depth generalizing i levels with
  | zero => rw [List.drop_zero, pow_zero, Nat.div_one, Nat.sub_zero]
  | succ depth ih =>
    cases levels with
    | zero =>
      rw [Nat.zero_sub, siblings, siblings, List.drop_nil]
    | succ levels =>
      rw [siblings, List.drop_succ_cons, ih, Nat.div_div_eq_div_mul, ← pow_succ', Nat.succ_sub_succ]

/-- A node and its sibling hash to their parent. -/
theorem parent_eq {height i : Nat} (hhashed : IsHashed hash node height) (hi : 2 ≤ i) (hlt : i / 2 < 2 ^ height) :
    node (i / 2) = if i % 2 = 0 then hash (node i) (node (i ^^^ 1)) else hash (node (i ^^^ 1)) (node i) := by
  have hparent := hhashed (i / 2) (by omega) hlt
  rcases Nat.even_or_odd i with heven | hodd
  · have hmod : i % 2 = 0 := Nat.even_iff.mp heven
    have hleft : 2 * (i / 2) = i := by omega
    rw [if_pos hmod, Nat.xor_one_of_even heven, hparent, hleft]
  · have hmod : i % 2 = 1 := Nat.odd_iff.mp hodd
    have hright : 2 * (i / 2) + 1 = i := by omega
    have hleft : 2 * (i / 2) = i - 1 := by omega
    rw [if_neg (by omega), Nat.xor_one_of_odd hodd, hparent, hright, hleft]

/-- Climbing with a node's own siblings gives its ancestors. -/
theorem climb_siblings {height i levels : Nat} (hhashed : IsHashed hash node height) (hlow : 2 ^ levels ≤ i)
    (hhigh : i < 2 ^ (height + 1)) :
    climb hash (node i) i (siblings node i levels) = node (i / 2 ^ levels) := by
  induction levels generalizing i with
  | zero => rw [siblings, climb, pow_zero, Nat.div_one]
  | succ levels ih =>
    rw [pow_succ] at hlow hhigh
    have hone : 1 ≤ 2 ^ levels := Nat.one_le_two_pow
    have hparent := parent_eq hhashed (i := i) (by omega) (by omega)
    rw [siblings, climb, ← hparent, ih (by omega) (by rw [pow_succ]; omega), Nat.div_div_eq_div_mul, ← pow_succ']

end HeapTree
