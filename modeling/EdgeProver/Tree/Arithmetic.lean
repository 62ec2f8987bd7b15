import Mathlib.Order.Bounds.Basic
import EdgeProver.ProofState.MachineTree

/-! The tree math in closed form: a layer of the recursion tree is the leaf count rounded up by a power of the
internal arity, and the layers are as many as it takes to get down to one proof. -/
namespace EdgeProver
open MachineInt

section
variable {n a : Nat}

/-- Without segments below the leaves, level `l + 1` of the fold tree rounds the leaf count up by `a ^ l`. -/
private theorem width_leaves (ha : 2 ≤ a) (l : Nat) : FoldTree.width (treeFan 1 a) n (l + 1) = n ⌈/⌉ a ^ l := by
  have harities : Arities 1 a := ⟨Nat.one_pos, ha⟩
  rw [FoldTree.width_eq (treeFan_pos harities), size_layer, Nat.one_mul]

private theorem divCeil_one (n : Nat) : divCeil n 1 = n := by
  rw [divCeil_eq Nat.one_pos, ceilDiv_one]

private theorem one_lt_ceilDiv_pow (ha : 2 ≤ a) (l : Nat) : 1 < n ⌈/⌉ a ^ l ↔ a ^ l < n := by
  rw [FoldTree.lt_ceilDiv (Nat.pow_pos (by omega)), Nat.one_mul]

private theorem ceilDiv_pow_eq_one (ha : 2 ≤ a) (hn : 0 < n) (l : Nat) : n ⌈/⌉ a ^ l = 1 ↔ n ≤ a ^ l := by
  have hpos : 0 < n ⌈/⌉ a ^ l := FoldTree.ceilDiv_pos (Nat.pow_pos (by omega)) hn
  have hlt := one_lt_ceilDiv_pow (n := n) ha l
  omega

/-- The loop stops at the first power of the arity that reaches the leaf count. -/
theorem numInternalLayers_isLeast (ha : 2 ≤ a) (hn : 0 < n) :
    IsLeast {L | 1 ≤ L ∧ n ≤ a ^ L} (numInternalLayersForLeafCount n a) := by
  have harities : Arities 1 a := ⟨Nat.one_pos, ha⟩
  have hspec := numInternalLayers_spec harities hn
  simp only [divCeil_one, width_leaves ha] at hspec
  obtain ⟨hpos, htop, hbelow, -⟩ := hspec
  constructor
  · exact ⟨hpos, (ceilDiv_pow_eq_one ha hn _).mp htop⟩
  · rintro k ⟨hk, hreach⟩
    by_contra hless
    have hshort := (one_lt_ceilDiv_pow ha k).mp (hbelow k (Nat.lt_of_not_le hless) hk)
    omega

private theorem numInternalLayers_mono (ha : 2 ≤ a) : Monotone fun n => numInternalLayersForLeafCount n a := by
  intro m n hle
  rcases Nat.eq_zero_or_pos m with rfl | hm
  · rcases Nat.eq_zero_or_pos n with rfl | hn
    · exact le_refl _
    · exact (numInternalLayers_isLeast ha hn).1.1
  · obtain ⟨hone, hreach⟩ := (numInternalLayers_isLeast ha (hm.trans_le hle)).1
    exact (numInternalLayers_isLeast ha hm).2 ⟨hone, hle.trans hreach⟩

/-- The rounds of the layer loop, in closed form: once the leaf count is used up, nothing is left. -/
theorem numProofsAtInternalLayer_closed (ha : 2 ≤ a) (l : Nat) : numProofsAtInternalLayerForLeafCount n l a =
    if n ⌈/⌉ a ^ l = 1 then 0 else n ⌈/⌉ a ^ (l + 1) := by
  have harities : Arities 1 a := ⟨Nat.one_pos, ha⟩
  have heq := @numProofsAtInternalLayer_eq 1 a n harities l
  rwa [divCeil_one, width_leaves ha, width_leaves ha (l + 1)] at heq

/-- A layer of the tree holds the leaves rounded up, and the top layer alone holds one proof. -/
theorem numProofs_of_layer (ha : 2 ≤ a) (hn : 1 < n) {l : Nat} (hl : l < numInternalLayersForLeafCount n a) :
    numProofsAtInternalLayerForLeafCount n l a = n ⌈/⌉ a ^ (l + 1) ∧
      (numProofsAtInternalLayerForLeafCount n l a = 1 ↔ l = numInternalLayersForLeafCount n a - 1) := by
  have hpos : 0 < n := by omega
  obtain ⟨⟨-, hreach⟩, hleast⟩ := numInternalLayers_isLeast ha hpos
  have hshort : ∀ k < numInternalLayersForLeafCount n a, a ^ k < n := by
    intro k hk
    by_contra hlong
    rcases Nat.eq_zero_or_pos k with rfl | hk0
    · rw [Nat.pow_zero] at hlong
      omega
    · exact absurd (hleast ⟨hk0, Nat.le_of_not_lt hlong⟩) (Nat.not_le.mpr hk)
  have hcount : numProofsAtInternalLayerForLeafCount n l a = n ⌈/⌉ a ^ (l + 1) := by
    rw [numProofsAtInternalLayer_closed ha, if_neg]
    rw [ceilDiv_pow_eq_one ha hpos]
    exact Nat.not_le.mpr (hshort l hl)
  refine ⟨hcount, ?_⟩
  rw [hcount, ceilDiv_pow_eq_one ha hpos]
  constructor
  · intro hdone
    by_contra hne
    have := hshort (l + 1) (by omega)
    omega
  · rintro rfl
    rwa [Nat.sub_add_cancel (by omega)]

private theorem numProofs_above (ha : 2 ≤ a) (hn : 0 < n) {l : Nat} (hl : numInternalLayersForLeafCount n a ≤ l) :
    numProofsAtInternalLayerForLeafCount n l a = 0 := by
  obtain ⟨⟨-, hreach⟩, -⟩ := numInternalLayers_isLeast ha hn
  rw [numProofsAtInternalLayer_closed ha, if_pos]
  rw [ceilDiv_pow_eq_one ha hn]
  exact hreach.trans (Nat.pow_le_pow_right (by omega) hl)

variable {la : Nat}

private theorem segmentStartToInternalIdx_iff (ha : 2 ≤ a) (hla : 0 < la) (l idx segment : Nat) :
    segmentStartToInternalIdxWithBatch segment l la a = idx ↔
      idx * (la * a ^ (l + 1)) ≤ segment ∧ segment < (idx + 1) * (la * a ^ (l + 1)) := by
  have hsize : 0 < la * a ^ (l + 1) := Nat.mul_pos hla (Nat.pow_pos (by omega))
  rw [segmentStartToInternalIdx_eq, size_layer, Nat.div_eq_iff hsize, Nat.succ_mul]
  omega

end

/-- The tree math for every internal arity from 2 on and every leaf arity from 1 on: the layer count is the least that
reaches the leaf count and grows with it, a layer holds the leaves rounded up by its power of the arity and nothing
above the top, and the index of a segment is that of the node whose range it lies in. Wherever the values fit the word,
the machine computes them. -/
theorem tree_arithmetic {internalArity leafArity : Nat} (hinternal : 2 ≤ internalArity) (hleaf : 1 ≤ leafArity) :
    (∀ n, 1 ≤ n → IsLeast {L | 1 ≤ L ∧ n ≤ internalArity ^ L} (numInternalLayersForLeafCount n internalArity)) ∧
    (Monotone fun n => numInternalLayersForLeafCount n internalArity) ∧
    (∀ n, 1 < n → ∀ l,
      (l < numInternalLayersForLeafCount n internalArity →
        numProofsAtInternalLayerForLeafCount n l internalArity = n ⌈/⌉ internalArity ^ (l + 1) ∧
        (numProofsAtInternalLayerForLeafCount n l internalArity = 1 ↔
          l = numInternalLayersForLeafCount n internalArity - 1)) ∧
      (numInternalLayersForLeafCount n internalArity ≤ l →
        numProofsAtInternalLayerForLeafCount n l internalArity = 0)) ∧
    (∀ l idx segment, idx * (leafArity * internalArity ^ (l + 1)) ≤ segment →
      segment < (idx + 1) * (leafArity * internalArity ^ (l + 1)) →
      segmentStartToInternalIdxWithBatch segment l leafArity internalArity = idx) ∧
    (∀ l idx, segmentStartToInternalIdxWithBatch
      (segmentStartOfInternalProofForLeafCount leafArity internalArity l idx) l leafArity internalArity = idx) ∧
    ∀ (t : Target) (fuel : Nat), t.bits ≤ fuel → ∀ n l idx segment,
      (n < 2 ^ t.bits →
        Machine.numInternalLayersForLeafCount t fuel n internalArity =
          .ok (numInternalLayersForLeafCount n internalArity) ∧
        Machine.numProofsAtInternalLayerForLeafCount t n l internalArity =
          .ok (numProofsAtInternalLayerForLeafCount n l internalArity)) ∧
      (internalArity * internalArity ^ l < 2 ^ t.bits →
        idx * (internalArity * internalArity ^ l) * leafArity < 2 ^ t.bits →
        Machine.segmentStartOfInternalProofForLeafCount t leafArity internalArity l idx =
          .ok (segmentStartOfInternalProofForLeafCount leafArity internalArity l idx)) ∧
      (internalArity * leafArity * internalArity ^ l < 2 ^ t.bits →
        Machine.segmentStartToInternalIdxWithBatch t segment l leafArity internalArity =
          .ok (segmentStartToInternalIdxWithBatch segment l leafArity internalArity)) := by
  have hpos : 0 < internalArity := by omega
  have harities : Arities leafArity internalArity := ⟨hleaf, hinternal⟩
  refine ⟨fun n hn => numInternalLayers_isLeast hinternal hn, numInternalLayers_mono hinternal, ?_, ?_, ?_, ?_⟩
  · intro n hn l
    exact ⟨numProofs_of_layer hinternal hn, numProofs_above hinternal (by omega)⟩
  · intro l idx segment hfirst hlast
    exact (segmentStartToInternalIdx_iff hinternal hleaf l idx segment).mpr ⟨hfirst, hlast⟩
  · intro l idx
    rw [segmentStartOfInternalProof_eq]
    exact segmentStartToInternalIdx_first harities l idx
  · intro t fuel hfuel n l idx segment
    refine ⟨fun hn => ⟨?_, ?_⟩, fun hbase hfits => ?_, fun hfits => ?_⟩
    · exact Machine.numInternalLayers_run hinternal hfuel hn
    · exact Machine.numProofs_run hpos hn
    · exact Machine.segmentStartOfInternalProof_run hleaf hpos hbase hfits
    · exact Machine.segmentStartToInternalIdx_run hleaf hpos hfits

/-- Ten leaves under an arity of three fold in three layers. -/
theorem tree_arithmetic_sample : IsLeast {L | 1 ≤ L ∧ 10 ≤ 3 ^ L} 3 ∧
    segmentStartToInternalIdxWithBatch (segmentStartOfInternalProofForLeafCount 4 3 1 5) 1 4 3 = 5 :=
  have hall := tree_arithmetic (show 2 ≤ 3 by decide) (show 1 ≤ 4 by decide)
  ⟨hall.1 10 (by decide), hall.2.2.2.2.1 1 5⟩

end EdgeProver
