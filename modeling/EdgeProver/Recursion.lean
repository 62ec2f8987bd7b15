import EdgeProver.Lib.FoldTree

/-! Shape of the recursion tree, as the manager computes it. -/
namespace EdgeProver

def divCeil (n d : Nat) : Nat := if n % d > 0 then n / d + 1 else n / d

/-- The `while nodes > 1` loop. `fuel` bounds its rounds: with a fan-in of at least two,
`nodes` shrinks in each, so the initial `nodes` is enough (`layersLoop_spec`). -/
def layersLoop (internalArity : Nat) : Nat → Nat → Nat → Nat
  | 0, _, layers => layers
  | fuel + 1, nodes, layers =>
    if nodes > 1 then layersLoop internalArity fuel (divCeil nodes internalArity) (layers + 1)
    else layers

def numInternalLayersForLeafCount (numLeafProofs internalArity : Nat) : Nat :=
  if numLeafProofs ≤ 1 then 1
  else layersLoop internalArity numLeafProofs numLeafProofs 0

/-- The `for _ in 0..=layer_idx` loop, `rounds` rounds from its end. -/
def proofsAtLayerLoop (internalArity : Nat) : Nat → Nat → Nat
  | 0, ret => ret
  | rounds + 1, ret =>
    if ret = 1 then 0 else proofsAtLayerLoop internalArity rounds (divCeil ret internalArity)

def numProofsAtInternalLayerForLeafCount (numLeafProofs layerIdx internalArity : Nat) : Nat :=
  proofsAtLayerLoop internalArity (layerIdx + 1) numLeafProofs

/-- The `for _ in 0..layer_idx { base *= internal_arity }` loop of both index maps. -/
def scaleBase (internalArity : Nat) : Nat → Nat → Nat
  | 0, base => base
  | rounds + 1, base => scaleBase internalArity rounds (base * internalArity)

def segmentStartOfInternalProofForLeafCount (leafArity internalArity layerIdx idx : Nat) : Nat :=
  idx * scaleBase internalArity layerIdx internalArity * leafArity

def segmentStartToInternalIdxWithBatch (segmentStart layerIdx leafArity internalArity : Nat) : Nat :=
  segmentStart / scaleBase internalArity layerIdx (internalArity * leafArity)

theorem divCeil_eq {n d : Nat} (hd : 0 < d) : divCeil n d = n ⌈/⌉ d := by
  apply eq_of_forall_lt_iff
  intro c
  rw [FoldTree.lt_ceilDiv hd, divCeil]
  have he := Nat.div_add_mod' n d
  have hm := Nat.mod_lt n hd
  have hlt : c < n / d ↔ c * d + d ≤ n := by
    rw [Nat.lt_iff_add_one_le, Nat.le_div_iff_mul_le hd, Nat.succ_mul]
  have hle : c ≤ n / d ↔ c * d ≤ n := Nat.le_div_iff_mul_le hd
  have heq : n % d = 0 → c * d < n → c < n / d := by
    intro h0 hc
    rw [h0, Nat.add_zero] at he
    exact Nat.lt_of_mul_lt_mul_right (a := d) (by omega)
  split <;> rename_i h0
  · rw [Nat.lt_succ_iff, hle]
    refine ⟨fun hc => ?_, fun hc => hc.le⟩
    rcases hc.lt_or_eq with hc | hc
    · exact hc
    · rw [← hc, Nat.mul_mod_left] at h0
      omega
  · rw [hlt]
    refine ⟨fun hc => by omega, fun hc => hlt.mp (heq (by omega) hc)⟩

theorem scaleBase_eq (a k b : Nat) : scaleBase a k b = b * a ^ k := by
  induction k generalizing b with
  | zero => simp [scaleBase]
  | succ k ih => rw [scaleBase, ih, Nat.pow_succ, Nat.mul_assoc, Nat.mul_comm a]

/-- Level 0 of the fold tree holds the segments, level 1 the leaf proofs, and level `l + 2` the internal proofs of
layer `l`. -/
def treeFan (leafArity internalArity : Nat) : Nat → Nat
  | 0 => leafArity
  | _ + 1 => internalArity

/-- Arities that the handlers can divide by and whose tree narrows at every layer. -/
structure Arities (leafArity internalArity : Nat) : Prop where
  leaf_pos : 0 < leafArity
  two_le_internal : 2 ≤ internalArity

section
variable {la ia n : Nat} (ha : Arities la ia)
include ha

theorem treeFan_pos (v : Nat) : 0 < treeFan la ia v := by
  have h1 := ha.leaf_pos
  have h2 := ha.two_le_internal
  cases v <;> simp only [treeFan] <;> omega

theorem leafCount_eq : divCeil n la = FoldTree.width (treeFan la ia) n 1 :=
  divCeil_eq ha.leaf_pos

private theorem width_layer (l : Nat) : divCeil (FoldTree.width (treeFan la ia) n (l + 1)) ia =
    FoldTree.width (treeFan la ia) n (l + 2) :=
  divCeil_eq (by have := ha.two_le_internal; omega)

omit ha in
theorem size_layer (l : Nat) : FoldTree.size (treeFan la ia) (l + 1) = la * ia ^ l := by
  induction l with
  | zero => simp [FoldTree.size, treeFan]
  | succ l ih => rw [FoldTree.size, ih, treeFan, Nat.mul_assoc, ← Nat.pow_succ]

omit ha in
theorem size_leaf : FoldTree.size (treeFan la ia) 1 = la := by
  rw [size_layer, Nat.pow_zero, Nat.mul_one]

omit ha in
theorem segmentStartOfInternalProof_eq (l idx : Nat) :
    segmentStartOfInternalProofForLeafCount la ia l idx = FoldTree.first (treeFan la ia) (l + 2) idx := by
  rw [segmentStartOfInternalProofForLeafCount, scaleBase_eq, FoldTree.first, size_layer, Nat.pow_succ]
  ring

omit ha in
theorem segmentStartToInternalIdx_eq (s l : Nat) :
    segmentStartToInternalIdxWithBatch s l la ia = s / FoldTree.size (treeFan la ia) (l + 2) := by
  rw [segmentStartToInternalIdxWithBatch, scaleBase_eq, size_layer, Nat.pow_succ]
  ring_nf

/-- An internal proof's first segment is mapped back to its index. -/
theorem segmentStartToInternalIdx_first (l idx : Nat) :
    segmentStartToInternalIdxWithBatch (FoldTree.first (treeFan la ia) (l + 2) idx) l la ia = idx := by
  rw [segmentStartToInternalIdx_eq, FoldTree.first]
  exact Nat.mul_div_cancel _ (FoldTree.size_pos (treeFan_pos ha) _)

private theorem layersLoop_spec (hn : 0 < n) (fuel l layers : Nat)
    (hfuel : FoldTree.width (treeFan la ia) n (l + 1) ≤ fuel) :
    ∃ k, layersLoop ia fuel (FoldTree.width (treeFan la ia) n (l + 1)) layers = layers + k ∧
      FoldTree.width (treeFan la ia) n (l + k + 1) = 1 ∧
      ∀ j < k, 1 < FoldTree.width (treeFan la ia) n (l + j + 1) := by
  induction fuel generalizing l layers with
  | zero =>
    have := FoldTree.width_pos (treeFan_pos ha) hn (l + 1)
    omega
  | succ fuel ih =>
    have hpos := FoldTree.width_pos (treeFan_pos ha) hn (l + 1)
    by_cases h : FoldTree.width (treeFan la ia) n (l + 1) > 1
    · have hlt : FoldTree.width (treeFan la ia) n (l + 1 + 1) < FoldTree.width (treeFan la ia) n (l + 1) :=
        FoldTree.ceilDiv_lt ha.two_le_internal h
      obtain ⟨k, hk, h1, hj⟩ := ih (l + 1) (layers + 1) (by omega)
      refine ⟨k + 1, ?_, ?_, ?_⟩
      · rw [layersLoop, if_pos h, width_layer ha, hk]
        omega
      · rwa [show l + (k + 1) + 1 = l + 1 + k + 1 by omega]
      · intro j hlt
        cases j with
        | zero => exact h
        | succ j =>
          rw [show l + (j + 1) + 1 = l + 1 + j + 1 by omega]
          exact hj j (by omega)
    · refine ⟨0, ?_, ?_, fun j hj => absurd hj (Nat.not_lt_zero j)⟩
      · rw [layersLoop, if_neg h, Nat.add_zero]
      · rw [Nat.add_zero]
        omega

/-- The layer count: the top layer holds one proof, and every layer below it, the leaves
included, holds several unless there is a single layer. -/
theorem numInternalLayers_spec (hn : 0 < n) :
    let L := numInternalLayersForLeafCount (divCeil n la) ia
    0 < L ∧ FoldTree.width (treeFan la ia) n (L + 1) = 1 ∧
      (∀ l < L, 0 < l → 1 < FoldTree.width (treeFan la ia) n (l + 1)) ∧
      (1 < L → 1 < FoldTree.width (treeFan la ia) n 1) := by
  intro L
  have hpos := FoldTree.width_pos (treeFan_pos ha) hn 1
  have hL : L = numInternalLayersForLeafCount (FoldTree.width (treeFan la ia) n 1) ia := by
    rw [← leafCount_eq ha]
  by_cases h : FoldTree.width (treeFan la ia) n 1 ≤ 1
  · have h1 : L = 1 := by rw [hL, numInternalLayersForLeafCount, if_pos h]
    have hw : FoldTree.width (treeFan la ia) n 1 = 1 := by omega
    rw [h1]
    refine ⟨Nat.one_pos, FoldTree.width_of_one_le (treeFan_pos ha) hw (by omega), ?_, by omega⟩
    intro l hl h0
    omega
  · obtain ⟨k, hk, h1, hj⟩ := layersLoop_spec ha hn _ 0 0 (le_refl (FoldTree.width (treeFan la ia) n 1))
    have hLk : L = k := by
      rw [hL, numInternalLayersForLeafCount, if_neg h]
      simpa using hk
    rw [hLk]
    simp only [Nat.zero_add] at h1 hj
    refine ⟨?_, h1, fun l hl _ => hj l hl, fun _ => by omega⟩
    rcases Nat.eq_zero_or_pos k with rfl | hk0
    · simp only [Nat.zero_add] at h1
      omega
    · exact hk0

private theorem proofsAtLayerLoop_spec (rounds l : Nat) :
    proofsAtLayerLoop ia (rounds + 1) (FoldTree.width (treeFan la ia) n (l + 1)) =
      if FoldTree.width (treeFan la ia) n (l + rounds + 1) = 1 then 0
      else FoldTree.width (treeFan la ia) n (l + rounds + 2) := by
  induction rounds generalizing l with
  | zero => simp only [proofsAtLayerLoop, width_layer ha, Nat.add_zero]
  | succ rounds ih =>
    rw [proofsAtLayerLoop, width_layer ha]
    by_cases h : FoldTree.width (treeFan la ia) n (l + 1) = 1
    · have h1 : FoldTree.width (treeFan la ia) n (l + (rounds + 1) + 1) = 1 :=
        FoldTree.width_of_one_le (treeFan_pos ha) h (by omega)
      rw [if_pos h, if_pos h1]
    · rw [if_neg h, show l + 2 = l + 1 + 1 from rfl, ih (l + 1)]
      rw [show l + 1 + rounds + 1 = l + (rounds + 1) + 1 by omega,
        show l + 1 + rounds + 2 = l + (rounds + 1) + 2 by omega]

/-- The proof count of a layer is the width of its level, and zero above the top. -/
theorem numProofsAtInternalLayer_eq (l : Nat) :
    numProofsAtInternalLayerForLeafCount (divCeil n la) l ia =
      if FoldTree.width (treeFan la ia) n (l + 1) = 1 then 0
      else FoldTree.width (treeFan la ia) n (l + 2) := by
  have h := @proofsAtLayerLoop_spec la ia n ha l 0
  rw [numProofsAtInternalLayerForLeafCount, leafCount_eq ha, h]
  simp only [Nat.zero_add]

end
end EdgeProver
