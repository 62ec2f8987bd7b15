import EdgeProver.ProofState.Duplicates
import EdgeProver.ProofState.MachineTree

/-! Which results the handlers take without a fault, and that they then do what the exact handlers do. -/
namespace EdgeProver
open Gather MachineInt

/-- The numbers of the result are words. -/
def ProofResult.Decodable (bits : Nat) : ProofResult → Prop
  | .executeE2 r => r.state.numSegments < 2 ^ bits
  | .app r => r.state.segmentIdx < 2 ^ bits
  | .leaf r => r.state.segmentStart < 2 ^ bits ∧ r.state.segmentEnd < 2 ^ bits
  | .internal r => r.state.layerIdx < 2 ^ bits ∧ r.state.segmentStart < 2 ^ bits ∧ r.state.segmentEnd < 2 ^ bits
  | .evm _ | .error _ => True

/-- The bytes of this many proofs fit one allocation. -/
def HoldsProofs (bits capacity : Nat) : Prop := Target.Allocates bits (3 * (bits / 8)) capacity

instance (bits capacity : Nat) : Decidable (HoldsProofs bits capacity) :=
    inferInstanceAs (Decidable (Target.Allocates ..))

namespace ProofState

/-- The tail batch that `flush_pending_leaf_batches` makes room for. -/
def flushRoom (ps : ProofState) (numSegments : Nat) : Nat :=
  if (ps.leafProofs (numSegments / ps.leafArity * ps.leafArity)).isSome then 0 else numSegments % ps.leafArity

/-- The tail of a layer that `trigger_tail_proofs` makes room for. -/
def tailRoom (ps : ProofState) (numLeafProofs layerIdx : Nat) : Nat :=
  let numProofs := if layerIdx = 0 then numLeafProofs
    else numProofsAtInternalLayerForLeafCount numLeafProofs (layerIdx - 1) ps.internalArity
  if (ps.internalProofs ⟨layerIdx, numProofs / ps.internalArity⟩).isSome then 0 else numProofs % ps.internalArity

/-- The group that a new internal proof makes room for; none where its answer is the last layer's or the wrap's. -/
def groupRoom (ps : ProofState) (state : InternalProofState) : Nat :=
  let idxStart := (ps.internalSlot state).idx / ps.internalArity * ps.internalArity
  match ps.numSegments with
  | none => ps.internalArity
  | some n =>
    let numLeafProofs := divCeil n ps.leafArity
    let numInternalLayers := numInternalLayersForLeafCount numLeafProofs ps.internalArity
    if state.layerIdx = ps.effectiveFinalLayer n ∨ numInternalLayers = state.layerIdx + 1 ∧ numInternalLayers = 1 then 0
    else
      min (idxStart + ps.internalArity)
        (numProofsAtInternalLayerForLeafCount numLeafProofs state.layerIdx ps.internalArity) - idxStart

theorem flushRoom_le {ps : ProofState} (hla : 0 < ps.leafArity) (numSegments : Nat) :
    ps.flushRoom numSegments ≤ ps.leafArity := by
  unfold flushRoom
  split
  · exact Nat.zero_le _
  · exact (Nat.mod_lt _ hla).le

theorem tailRoom_le {ps : ProofState} (hia : 0 < ps.internalArity) (numLeafProofs layerIdx : Nat) :
    ps.tailRoom numLeafProofs layerIdx ≤ ps.internalArity := by
  unfold tailRoom
  dsimp only
  generalize (if layerIdx = 0 then numLeafProofs
    else numProofsAtInternalLayerForLeafCount numLeafProofs (layerIdx - 1) ps.internalArity) = numProofs
  split
  · exact Nat.zero_le _
  · exact (Nat.mod_lt _ hia).le

theorem groupRoom_le (ps : ProofState) (state : InternalProofState) : ps.groupRoom state ≤ ps.internalArity := by
  unfold groupRoom
  dsimp only
  split
  · exact le_refl _
  · split
    · exact Nat.zero_le _
    · omega

theorem actualBatchEnd_le (ps : ProofState) (batchStart : Nat) :
    ps.actualBatchEnd batchStart ≤ batchStart + ps.leafArity - 1 := by
  unfold actualBatchEnd
  dsimp only
  split
  · exact Nat.min_le_left _ _
  · exact le_refl _

theorem groupEndLeafIdx_le (ps : ProofState) (groupStart : Nat) :
    ps.groupEndLeafIdx groupStart ≤ groupStart + ps.internalArity - 1 := by
  unfold groupEndLeafIdx
  dsimp only
  split
  · exact Nat.min_le_left _ _
  · exact le_refl _

/-- First leaf of the group of the leaf that starts at this segment. -/
def groupStart (ps : ProofState) (segmentStart : Nat) : Nat :=
  segmentStart / ps.leafArity / ps.internalArity * ps.internalArity

/-- The arithmetic of a new app, leaf or internal result stays within the word: the end of its batch, the end of its
group with the first segment of every leaf the group's loop comes to, or the segments below its layer; and so does the
room it makes for the proofs of its batch or group, or for the tails. -/
def StaysWithin (ps : ProofState) (bits : Nat) : ProofResult → Prop
  | .app r =>
    let batchStart := r.state.segmentIdx / ps.leafArity * ps.leafArity
    batchStart + ps.leafArity < 2 ^ bits ∧ HoldsProofs bits (ps.actualBatchEnd batchStart + 1 - batchStart)
  | .leaf r =>
    ps.groupStart r.state.segmentStart + ps.internalArity < 2 ^ bits ∧
      HoldsProofs bits (ps.groupEndLeafIdx (ps.groupStart r.state.segmentStart) + 1 -
        ps.groupStart r.state.segmentStart) ∧
      ∀ i, ps.groupStart r.state.segmentStart ≤ i →
        i ≤ ps.groupEndLeafIdx (ps.groupStart r.state.segmentStart) →
        (∀ j, ps.groupStart r.state.segmentStart ≤ j → j < i → j * ps.leafArity = r.state.segmentStart ∨
          (ps.leafProofs (j * ps.leafArity)).isSome = true) → i * ps.leafArity < 2 ^ bits
  | .internal r =>
    ps.internalArity * ps.leafArity * ps.internalArity ^ r.state.layerIdx < 2 ^ bits ∧
      (ps.slotFilled (.internal r) = true ∨ HoldsProofs bits (ps.groupRoom r.state))
  | .executeE2 r =>
    ps.executeE2State.isSome = true ∨ ps.costLimit < r.state.cost ∨
      HoldsProofs bits (ps.flushRoom r.state.numSegments) ∧
      ∀ layer < numInternalLayersForLeafCount (divCeil r.state.numSegments ps.leafArity) ps.internalArity,
        HoldsProofs bits (ps.tailRoom (divCeil r.state.numSegments ps.leafArity) layer)
  | .evm _ | .error _ => True

/-- The result is not taken up, or its arithmetic stays within the word. An internal result's index is worked out
before its slot is looked at. -/
def Safe (ps : ProofState) (bits : Nat) (result : ProofResult) : Prop :=
  ps.isSealedForResults = true ∨ result.hasProof = false ∨ ps.outOfBounds result = true ∨
    (∀ r, result ≠ .internal r) ∧ ps.slotFilled result = true ∨ ps.StaysWithin bits result

end ProofState

namespace Machine

private theorem holdsProofs_zero (bits : Nat) : HoldsProofs bits 0 := by
  unfold HoldsProofs Target.Allocates
  rw [Nat.zero_mul]
  exact Nat.two_pow_pos _

private theorem withProofCapacity_run {t : Target} {capacity : Nat} (h : HoldsProofs t.bits capacity) :
    withProofCapacity t capacity = .ok () := Target.withCapacity_of_allocates h

private theorem withProofCapacity_overflow {t : Target} {capacity : Nat} (h : ¬ HoldsProofs t.bits capacity) :
    withProofCapacity t capacity = .error .capacityOverflow := Target.withCapacity_overflow h

private theorem unwrap_run {proof : Option ProofBytes} (hproof : proof.isSome = true) :
    unwrap proof = .ok (ProofState.unwrapProof proof) := by
  cases proof with
  | none => cases hproof
  | some bytes => rfl

section
variable {t : Target} {fuel n : Nat} {ps : ProofState} (h : Fits t fuel ps)
include h

section
variable (hla : 0 < ps.leafArity) (hn : ps.numSegments = some n) (hpos : 0 < n) (hword : n < 2 ^ t.bits)
include hla hn hpos hword
omit h

theorem flushPendingLeafBatches_run (hroom : HoldsProofs t.bits (ps.flushRoom n)) :
    flushPendingLeafBatches t ps = .ok ps.flushPendingLeafBatches := by
  unfold ProofState.flushRoom at hroom
  unfold flushPendingLeafBatches ProofState.flushPendingLeafBatches
  rw [hn]
  dsimp only
  rw [div_of_pos hla, ok_bind, rem_of_pos hla, ok_bind]
  split
  · rw [Target.mul_of_lt ((Nat.div_mul_le_self n _).trans_lt hword), ok_bind, Target.sub_of_le (show 1 ≤ n from hpos),
      ok_bind]
    split
    · rfl
    · rename_i hslot
      rw [if_neg hslot] at hroom
      rw [withProofCapacity_run hroom, ok_bind]
      cases gather ps.appBytes (n / ps.leafArity * ps.leafArity) (n - 1 + 1 - n / ps.leafArity * ps.leafArity) <;> rfl
  · rfl

theorem flushPendingLeafBatches_overflow (hroom : ¬ HoldsProofs t.bits (ps.flushRoom n)) :
    flushPendingLeafBatches t ps = .error .capacityOverflow := by
  unfold ProofState.flushRoom at hroom
  unfold flushPendingLeafBatches
  rw [hn]
  dsimp only
  split at hroom
  · exact absurd (holdsProofs_zero _) hroom
  · rename_i hslot
    have htail : n % ps.leafArity > 0 := Nat.pos_of_ne_zero fun hzero => hroom (hzero ▸ holdsProofs_zero _)
    rw [div_of_pos hla, ok_bind, rem_of_pos hla, ok_bind, if_pos htail,
      Target.mul_of_lt ((Nat.div_mul_le_self n _).trans_lt hword), ok_bind, Target.sub_of_le (show 1 ≤ n from hpos),
      ok_bind, if_neg hslot, withProofCapacity_overflow hroom, error_bind]

end

/-- A layer below the top has more than one proof below it, so its index scale is within the segments. -/
theorem scale_lt (hn : 0 < n) {layer : Nat}
    (hlayer : layer + 1 < EdgeProver.numInternalLayersForLeafCount
      (EdgeProver.divCeil n ps.leafArity) ps.internalArity) :
    ps.internalArity * ps.internalArity ^ layer < n := by
  obtain ⟨-, -, hwide, -⟩ := numInternalLayers_spec h.arities hn
  have hone := hwide (layer + 1) hlayer (Nat.succ_pos layer)
  rw [FoldTree.lt_width (treeFan_pos h.arities), FoldTree.first, Nat.one_mul, size_layer, Nat.pow_succ,
    Nat.mul_comm (ps.internalArity ^ layer)] at hone
  exact (Nat.le_mul_of_pos_left _ h.arities.leaf_pos).trans_lt hone

/-- An index of a layer within the segments gives a first segment within them. -/
theorem first_lt {layer idx : Nat} (hidx : idx <
      EdgeProver.numProofsAtInternalLayerForLeafCount (EdgeProver.divCeil n ps.leafArity) layer ps.internalArity) :
    idx * (ps.internalArity * ps.internalArity ^ layer) * ps.leafArity < n := by
  rw [numProofsAtInternalLayer_eq h.arities] at hidx
  split at hidx
  · exact absurd hidx (Nat.not_lt_zero idx)
  · rw [FoldTree.lt_width (treeFan_pos h.arities), FoldTree.first, size_layer, Nat.pow_succ] at hidx
    calc idx * (ps.internalArity * ps.internalArity ^ layer) * ps.leafArity
        = idx * (ps.leafArity * (ps.internalArity ^ layer * ps.internalArity)) := by ring
      _ < n := hidx

private theorem leaf_first_lt {idx : Nat} (hidx : idx < EdgeProver.divCeil n ps.leafArity) :
    idx * ps.leafArity < n := by
  rw [EdgeProver.divCeil_eq h.arities.leaf_pos] at hidx
  exact (FoldTree.lt_ceilDiv h.arities.leaf_pos).mp hidx

private theorem proofsBelow_run (hword : n < 2 ^ t.bits) (layer : Nat) :
    proofsBelow t ps (EdgeProver.divCeil n ps.leafArity) layer = .ok
      (if layer = 0 then EdgeProver.divCeil n ps.leafArity
      else EdgeProver.numProofsAtInternalLayerForLeafCount (EdgeProver.divCeil n ps.leafArity) (layer - 1)
        ps.internalArity) := by
  unfold proofsBelow
  split
  · rfl
  · rename_i hlayer
    rw [Target.sub_of_le (Nat.one_le_iff_ne_zero.mpr hlayer), ok_bind,
      numProofs_run h.internal_pos (leafCount_lt h hword)]

private theorem tailChild_run {layer idx : Nat} (hfits : layer = 0 → idx * ps.leafArity < 2 ^ t.bits) :
    tailChild t ps layer idx = .ok (ps.tailChild layer idx) := by
  unfold tailChild ProofState.tailChild
  split
  · rename_i hlayer
    rw [Target.mul_of_lt (hfits hlayer), ok_bind]
    cases hleaf : ps.leafProofs (idx * ps.leafArity) with
    | none => rfl
    | some leaf =>
      dsimp only
      rw [unwrap_run (h.leafProofs _ _ hleaf), ok_bind]
      rfl
  · rename_i hlayer
    rw [Target.sub_of_le (Nat.one_le_iff_ne_zero.mpr hlayer), ok_bind]
    cases hchild : ps.internalProofs ⟨layer - 1, idx⟩ with
    | none => rfl
    | some child =>
      dsimp only
      rw [unwrap_run (h.internalProofs _ _ hchild), ok_bind]
      rfl

private theorem triggerTailProof_run (hn : 0 < n) (hword : n < 2 ^ t.bits) {layer : Nat}
    (hlayer : layer < EdgeProver.numInternalLayersForLeafCount (EdgeProver.divCeil n ps.leafArity) ps.internalArity)
    (hroom : HoldsProofs t.bits (ps.tailRoom (EdgeProver.divCeil n ps.leafArity) layer)) :
    triggerTailProof t fuel ps (EdgeProver.divCeil n ps.leafArity) (ps.effectiveFinalLayer n) layer =
      .ok (ps.triggerTailProof (EdgeProver.divCeil n ps.leafArity) (ps.effectiveFinalLayer n) layer) := by
  unfold ProofState.tailRoom at hroom
  unfold triggerTailProof ProofState.triggerTailProof
  rw [proofsBelow_run h hword, ok_bind]
  dsimp only at hroom ⊢
  generalize hproofs : (if layer = 0 then EdgeProver.divCeil n ps.leafArity
    else EdgeProver.numProofsAtInternalLayerForLeafCount (EdgeProver.divCeil n ps.leafArity) (layer - 1)
      ps.internalArity) = numProofs at hroom ⊢
  rw [rem_of_pos h.internal_pos, ok_bind]
  have hsmall : numProofs < 2 ^ t.bits := by
    have hleaves := leafCount_lt h hword
    rw [← hproofs]
    split
    · exact hleaves
    · exact (proofsAtLayerLoop_le_self h.internal_pos).trans_lt hleaves
  split
  · rename_i htail
    have hle : numProofs % ps.internalArity ≤ numProofs := Nat.mod_le _ _
    rw [Target.sub_of_le hle, ok_bind, div_of_pos h.internal_pos, ok_bind]
    split
    · rfl
    · rename_i hslot
      rw [if_neg hslot] at hroom
      -- The tail starts below the proof count, so its indices are within the segments.
      have hstart : tailSegmentStart t ps layer (numProofs - numProofs % ps.internalArity) = .ok
          (if layer = 0 then (numProofs - numProofs % ps.internalArity) * ps.leafArity
          else EdgeProver.segmentStartOfInternalProofForLeafCount ps.leafArity ps.internalArity (layer - 1)
            (numProofs - numProofs % ps.internalArity)) := by
        unfold tailSegmentStart
        split
        · rename_i hzero
          rw [if_pos hzero] at hproofs
          exact Target.mul_of_lt ((leaf_first_lt h (by omega)).trans hword)
        · rename_i hpos
          rw [if_neg hpos] at hproofs
          obtain ⟨below, rfl⟩ := Nat.exists_eq_add_one_of_ne_zero hpos
          rw [Target.sub_of_le (Nat.le_add_left 1 below), ok_bind]
          apply segmentStartOfInternalProof_run h.arities.leaf_pos h.internal_pos
          · exact (scale_lt h hn hlayer).trans hword
          · apply (first_lt h (n := n) _).trans hword
            omega
      have hread : gatherRun (fun i => do
            let idx ← t.add (numProofs - numProofs % ps.internalArity) i
            tailChild t ps layer idx) 0 (numProofs % ps.internalArity) = .ok
          (gather (ps.tailChild layer) (numProofs - numProofs % ps.internalArity) (numProofs % ps.internalArity)) := by
        conv_rhs => rw [← Nat.add_zero (numProofs - numProofs % ps.internalArity), gather_add]
        apply gatherRun_eq
        intro k hk _
        rw [Nat.zero_add, Target.add_of_lt (by omega), ok_bind]
        apply tailChild_run h
        intro hzero
        rw [if_pos hzero] at hproofs
        exact (leaf_first_lt h (by omega)).trans hword
      rw [withProofCapacity_run hroom, ok_bind, hstart, ok_bind, hread, ok_bind]
      cases gather (ps.tailChild layer) (numProofs - numProofs % ps.internalArity) (numProofs % ps.internalArity) with
      | none => rfl
      | some children =>
        dsimp only
        rw [internalRequest_run h, ok_bind]
  · rfl

private theorem triggerTailProof_overflow (hword : n < 2 ^ t.bits) {layer : Nat}
    (hroom : ¬ HoldsProofs t.bits (ps.tailRoom (EdgeProver.divCeil n ps.leafArity) layer)) (effectiveFinalLayer : Nat) :
    triggerTailProof t fuel ps (EdgeProver.divCeil n ps.leafArity) effectiveFinalLayer layer =
      .error .capacityOverflow := by
  unfold ProofState.tailRoom at hroom
  unfold triggerTailProof
  rw [proofsBelow_run h hword, ok_bind]
  dsimp only at hroom ⊢
  generalize (if layer = 0 then EdgeProver.divCeil n ps.leafArity
    else EdgeProver.numProofsAtInternalLayerForLeafCount (EdgeProver.divCeil n ps.leafArity) (layer - 1)
      ps.internalArity) = numProofs at hroom ⊢
  split at hroom
  · exact absurd (holdsProofs_zero _) hroom
  · rename_i hslot
    have htail : numProofs % ps.internalArity > 0 := Nat.pos_of_ne_zero fun hzero => hroom (hzero ▸ holdsProofs_zero _)
    rw [rem_of_pos h.internal_pos, ok_bind, if_pos htail, Target.sub_of_le (Nat.mod_le _ _), ok_bind,
      div_of_pos h.internal_pos, ok_bind, if_neg hslot, withProofCapacity_overflow hroom, error_bind]

private theorem triggerTailProofs_run (hn : 0 < n) (hword : n < 2 ^ t.bits) (hroom : ∀ layer <
      EdgeProver.numInternalLayersForLeafCount (EdgeProver.divCeil n ps.leafArity) ps.internalArity,
      HoldsProofs t.bits (ps.tailRoom (EdgeProver.divCeil n ps.leafArity) layer)) :
    triggerTailProofs t fuel ps n = .ok (ps.triggerTailProofs n) := by
  unfold triggerTailProofs ProofState.triggerTailProofs
  rw [shape_run h hword, ok_bind]
  dsimp only
  rw [List.range_eq_range']
  apply collectRun_eq
  intro k hk
  rw [Nat.zero_add]
  exact triggerTailProof_run h hn hword hk (hroom k hk)

private theorem triggerTailProofs_overflow (hword : n < 2 ^ t.bits) (hroom : ¬ ∀ layer <
      EdgeProver.numInternalLayersForLeafCount (EdgeProver.divCeil n ps.leafArity) ps.internalArity,
      HoldsProofs t.bits (ps.tailRoom (EdgeProver.divCeil n ps.leafArity) layer)) :
    ∃ fault, triggerTailProofs t fuel ps n = .error fault := by
  simp only [not_forall] at hroom
  obtain ⟨layer, hlayer, hroom⟩ := hroom
  unfold triggerTailProofs
  rw [shape_run h hword, ok_bind]
  apply collectRun_error hlayer
  rw [Nat.zero_add]
  exact triggerTailProof_overflow h hword hroom _

private theorem fits_counted {r : ExecuteE2Result} (hr : ProofResult.Decodable t.bits (.executeE2 r))
    (hpos : 0 < r.state.numSegments) :
    Fits t fuel { ps with numSegments := some r.state.numSegments, executeE2State := some r.state } :=
  { h with count := fun _ hm => Option.some.inj hm ▸ ⟨hpos, hr⟩ }

theorem handleExecuteE2Result_run {r : ExecuteE2Result} (hr : ProofResult.Decodable t.bits (.executeE2 r))
    (hroom : ¬ ps.executeE2State.isSome = true → HoldsProofs t.bits (ps.flushRoom r.state.numSegments) ∧
      ∀ layer < EdgeProver.numInternalLayersForLeafCount (EdgeProver.divCeil r.state.numSegments ps.leafArity)
        ps.internalArity,
        HoldsProofs t.bits (ps.tailRoom (EdgeProver.divCeil r.state.numSegments ps.leafArity) layer)) :
    handleExecuteE2Result t fuel ps r = .ok (ps.handleExecuteE2Result r) := by
  unfold handleExecuteE2Result ProofState.handleExecuteE2Result
  split
  · rfl
  · rename_i hnew
    obtain ⟨hflush, htails⟩ := hroom hnew
    dsimp only
    split
    · rfl
    · rename_i hzero
      have hpos : 0 < r.state.numSegments := Nat.pos_of_ne_zero hzero
      have hnext := fits_counted h hr hpos
      have hflushed := flushPendingLeafBatches_run hnext.arities.leaf_pos rfl hpos hr hflush
      rw [hflushed, ok_bind, triggerTailProofs_run hnext hpos hr htails, ok_bind]

theorem handleExecuteE2Result_overflow {r : ExecuteE2Result} (hr : ProofResult.Decodable t.bits (.executeE2 r))
    (hnew : ¬ ps.executeE2State.isSome = true) (hroom : ¬ (HoldsProofs t.bits (ps.flushRoom r.state.numSegments) ∧
      ∀ layer < EdgeProver.numInternalLayersForLeafCount (EdgeProver.divCeil r.state.numSegments ps.leafArity)
        ps.internalArity,
        HoldsProofs t.bits (ps.tailRoom (EdgeProver.divCeil r.state.numSegments ps.leafArity) layer))) :
    ∃ fault, handleExecuteE2Result t fuel ps r = .error fault := by
  have hzero : ¬ r.state.numSegments = 0 := by
    intro hzero
    apply hroom
    rw [hzero]
    refine ⟨?_, fun layer hlayer => ?_⟩
    · have hnone : ps.flushRoom 0 = 0 := by simp [ProofState.flushRoom]
      rw [hnone]
      exact holdsProofs_zero _
    · have hleaves : EdgeProver.divCeil 0 ps.leafArity = 0 := by simp [EdgeProver.divCeil]
      rw [hleaves] at hlayer ⊢
      have hone : layer = 0 := by simpa [EdgeProver.numInternalLayersForLeafCount] using hlayer
      have hnone : ps.tailRoom 0 layer = 0 := by simp [ProofState.tailRoom, hone]
      rw [hnone]
      exact holdsProofs_zero _
  have hpos := Nat.pos_of_ne_zero hzero
  have hnext := fits_counted h hr hpos
  unfold handleExecuteE2Result
  rw [if_neg hnew]
  dsimp only
  rw [if_neg hzero]
  by_cases hflush : HoldsProofs t.bits (ps.flushRoom r.state.numSegments)
  · have htails : ¬ ∀ layer < EdgeProver.numInternalLayersForLeafCount
        (EdgeProver.divCeil r.state.numSegments ps.leafArity) ps.internalArity,
        HoldsProofs t.bits (ps.tailRoom (EdgeProver.divCeil r.state.numSegments ps.leafArity) layer) :=
      fun htails => hroom ⟨hflush, htails⟩
    obtain ⟨fault, htail⟩ := triggerTailProofs_overflow hnext hr htails
    have hflushed := flushPendingLeafBatches_run hnext.arities.leaf_pos rfl hpos hr hflush
    refine ⟨fault, ?_⟩
    rw [hflushed, ok_bind, htail, error_bind]
  · have hbad := flushPendingLeafBatches_overflow hnext.arities.leaf_pos rfl hpos hr hflush
    exact ⟨_, by rw [hbad, error_bind]⟩

private theorem actualBatchEnd_run (batchStart : Nat) :
    actualBatchEnd t ps (batchStart + ps.leafArity - 1) = .ok (some (ps.actualBatchEnd batchStart)) := by
  unfold actualBatchEnd ProofState.actualBatchEnd
  cases hn : ps.numSegments with
  | none => rfl
  | some n =>
    have hpos := (h.count n hn).1
    dsimp only
    rw [if_neg hpos.ne', Target.sub_of_le (show 1 ≤ n from hpos), ok_bind]

theorem numSegments_ne_zero : ps.numSegments ≠ some 0 := by
  intro hzero
  exact absurd (h.count 0 hzero).1 (Nat.lt_irrefl 0)

private theorem collectLeafBatch_run {segmentIdx : Nat}
    (hfits : segmentIdx / ps.leafArity * ps.leafArity + ps.leafArity < 2 ^ t.bits)
    (hroom : HoldsProofs t.bits (ps.actualBatchEnd (segmentIdx / ps.leafArity * ps.leafArity) + 1 -
      segmentIdx / ps.leafArity * ps.leafArity)) :
    collectLeafBatch t ps segmentIdx = .ok (ps.collectLeafBatch (segmentIdx / ps.leafArity * ps.leafArity)) := by
  have hla := h.arities.leaf_pos
  unfold collectLeafBatch ProofState.collectLeafBatch
  dsimp only
  rw [div_of_pos hla, ok_bind, Target.mul_of_lt (by omega), ok_bind, Target.add_of_lt hfits, ok_bind,
    Target.sub_of_le (by omega), ok_bind, actualBatchEnd_run h, ok_bind]
  generalize segmentIdx / ps.leafArity * ps.leafArity = batchStart at *
  have hend := ps.actualBatchEnd_le batchStart
  generalize ps.actualBatchEnd batchStart = last at *
  dsimp only
  split
  · rfl
  · have hlast : last - batchStart + 1 < 2 ^ t.bits := by
      have hword := h.leafArity
      omega
    have hcapacity : last - batchStart + 1 = last + 1 - batchStart := by omega
    rw [Target.sub_of_le (by omega), ok_bind, Target.add_of_lt hlast, ok_bind, hcapacity, withProofCapacity_run hroom,
      ok_bind]
    cases gather ps.appBytes batchStart (last + 1 - batchStart) <;> rfl

private theorem collectLeafBatch_overflow (hchecks : t.overflowChecks = true) {segmentIdx : Nat}
    (hsegment : segmentIdx < 2 ^ t.bits)
    (hlarge : ¬ (segmentIdx / ps.leafArity * ps.leafArity + ps.leafArity < 2 ^ t.bits ∧
      HoldsProofs t.bits (ps.actualBatchEnd (segmentIdx / ps.leafArity * ps.leafArity) + 1 -
        segmentIdx / ps.leafArity * ps.leafArity))) :
    ∃ fault, collectLeafBatch t ps segmentIdx = .error fault := by
  have hla := h.arities.leaf_pos
  have hstart : segmentIdx / ps.leafArity * ps.leafArity < 2 ^ t.bits := (Nat.div_mul_le_self _ _).trans_lt hsegment
  unfold collectLeafBatch
  dsimp only
  rw [div_of_pos hla, ok_bind, Target.mul_of_lt hstart, ok_bind]
  generalize segmentIdx / ps.leafArity * ps.leafArity = batchStart at *
  rcases Nat.lt_or_ge (batchStart + ps.leafArity) (2 ^ t.bits) with hfits | hbad
  · have hroom : ¬ HoldsProofs t.bits (ps.actualBatchEnd batchStart + 1 - batchStart) := fun hroom =>
      hlarge ⟨hfits, hroom⟩
    have hend := ps.actualBatchEnd_le batchStart
    rw [Target.add_of_lt hfits, ok_bind, Target.sub_of_le (by omega), ok_bind, actualBatchEnd_run h, ok_bind]
    generalize ps.actualBatchEnd batchStart = last at *
    have hpos : 0 < last + 1 - batchStart := Nat.pos_of_ne_zero fun hzero => hroom (hzero ▸ holdsProofs_zero _)
    have hlast : last - batchStart + 1 < 2 ^ t.bits := by
      have hword := h.leafArity
      omega
    have hcapacity : last - batchStart + 1 = last + 1 - batchStart := by omega
    dsimp only
    rw [if_neg (by omega), Target.sub_of_le (by omega), ok_bind, Target.add_of_lt hlast, ok_bind, hcapacity,
      withProofCapacity_overflow hroom]
    exact ⟨_, rfl⟩
  · rw [Target.add_overflow hchecks hbad]
    exact ⟨_, rfl⟩

private theorem fits_app (state : AppProofState) : Fits t fuel { ps with
    appProofs := Function.update ps.appProofs state.segmentIdx (some state)
    deferralFinalMerklePathBytes := ProofState.keepFirst ps.deferralFinalMerklePathBytes state.finalMerklePathBytes
    deferralDepth0MerkleProofsBytes :=
      ProofState.keepFirst ps.deferralDepth0MerkleProofsBytes state.deferralMerkleProofsBytes } :=
  { h with }

theorem handleAppResult_run {r : AppProof} (hwithin : ¬ r.state.proof.isNone = true →
      ¬ ps.outOfBounds (.app r) = true → ¬ ps.slotFilled (.app r) = true → ps.StaysWithin t.bits (.app r)) :
    handleAppResult t ps r = .ok (ps.handleAppResult r) := by
  unfold handleAppResult ProofState.handleAppResult
  dsimp only
  split
  · rfl
  · rename_i hproof
    split
    · rfl
    · rename_i hout
      split
      · rfl
      · rename_i hnew
        obtain ⟨hbatch, hroom⟩ := hwithin hproof hout hnew
        rw [collectLeafBatch_run (fits_app h r.state) hbatch hroom, ok_bind, if_neg (numSegments_ne_zero h)]

theorem handleAppResult_overflow (hchecks : t.overflowChecks = true) {r : AppProof}
    (hr : ProofResult.Decodable t.bits (.app r)) (hproof : ¬ r.state.proof.isNone = true)
    (hout : ¬ ps.outOfBounds (.app r) = true) (hnew : ¬ ps.slotFilled (.app r) = true)
    (hlarge : ¬ ps.StaysWithin t.bits (.app r)) : ∃ fault, handleAppResult t ps r = .error fault := by
  obtain ⟨fault, hfault⟩ := collectLeafBatch_overflow (fits_app h r.state) hchecks hr hlarge
  refine ⟨fault, ?_⟩
  unfold handleAppResult
  dsimp only
  rw [if_neg hproof]
  refine (if_neg hout).trans ((if_neg hnew).trans ?_)
  rw [hfault, error_bind]

private theorem groupEndLeafIdx_run (groupStart : Nat) :
    groupEndLeafIdx t ps (groupStart + ps.internalArity - 1) = .ok (some (ps.groupEndLeafIdx groupStart)) := by
  unfold groupEndLeafIdx ProofState.groupEndLeafIdx
  cases hn : ps.numSegments with
  | none => rfl
  | some n =>
    obtain ⟨hpos, hword⟩ := h.count n hn
    have hleaf : 0 < EdgeProver.divCeil n ps.leafArity := by
      rw [EdgeProver.divCeil_eq h.arities.leaf_pos]
      exact FoldTree.ceilDiv_pos h.arities.leaf_pos hpos
    dsimp only
    rw [if_neg hpos.ne', divCeil_run h.arities.leaf_pos hword, ok_bind,
      Target.sub_of_le (show 1 ≤ EdgeProver.divCeil n ps.leafArity from hleaf), ok_bind]

private theorem groupLeaf_run {i : Nat} (hi : i * ps.leafArity < 2 ^ t.bits) : groupLeaf t ps i = .ok
    ((ps.leafProofs (i * ps.leafArity)).map fun leaf => (ProofState.unwrapProof leaf.proof, leaf.segmentEnd)) := by
  unfold groupLeaf
  rw [Target.mul_of_lt hi, ok_bind]
  cases hleaf : ps.leafProofs (i * ps.leafArity) with
  | none => rfl
  | some leaf =>
    dsimp only
    rw [unwrap_run (h.leafProofs _ _ hleaf), ok_bind]
    rfl

omit h in
private theorem groupLeaf_overflow (hchecks : t.overflowChecks = true) {i : Nat} (hi : 2 ^ t.bits ≤ i * ps.leafArity) :
    groupLeaf t ps i = .error .overflow := by
  unfold groupLeaf
  rw [Target.mul_overflow hchecks hi, error_bind]

variable {segmentStart : Nat} (hbounds : ∀ n, ps.numSegments = some n → segmentStart < n)
include hbounds

private theorem groupStart_le : ps.groupStart segmentStart ≤ ps.groupEndLeafIdx (ps.groupStart segmentStart) := by
  have hia := h.internal_pos
  have hleaf : ps.groupStart segmentStart ≤ segmentStart / ps.leafArity := Nat.div_mul_le_self _ _
  unfold ProofState.groupEndLeafIdx
  cases hn : ps.numSegments with
  | none =>
    dsimp only
    omega
  | some n =>
    have hlt : segmentStart / ps.leafArity < EdgeProver.divCeil n ps.leafArity := by
      rw [EdgeProver.divCeil_eq h.arities.leaf_pos, FoldTree.lt_ceilDiv h.arities.leaf_pos]
      exact (Nat.div_mul_le_self _ _).trans_lt (hbounds n hn)
    dsimp only
    omega

omit h hbounds in
private theorem groupStart_mul_le (segmentStart : Nat) : ps.groupStart segmentStart * ps.leafArity ≤ segmentStart :=
  (Nat.mul_le_mul_right _ (Nat.div_mul_le_self _ _)).trans (Nat.div_mul_le_self _ _)

private theorem collectLeafGroup_loop (hword : segmentStart < 2 ^ t.bits)
    (hgroup : ps.groupStart segmentStart + ps.internalArity < 2 ^ t.bits) :
    collectLeafGroup t fuel ps segmentStart = (do
      withProofCapacity t
        (ps.groupEndLeafIdx (ps.groupStart segmentStart) + 1 - ps.groupStart segmentStart)
      let read ← gatherRun (groupLeaf t ps) (ps.groupStart segmentStart)
        (ps.groupEndLeafIdx (ps.groupStart segmentStart) + 1 - ps.groupStart segmentStart)
      match read with
      | none => .ok []
      | some leaves => do
        let request ← internalRequest t fuel ps 0 (leaves.map (·.1)) (ps.groupStart segmentStart * ps.leafArity)
          ((leaves.getLast?.map (·.2)).getD (ps.groupStart segmentStart * ps.leafArity)) false
        .ok [request]) := by
  have hle := groupStart_le h hbounds
  have hend := ps.groupEndLeafIdx_le (ps.groupStart segmentStart)
  have hword' := h.internalArity
  have hpos := h.internal_pos
  have hfirst : ps.groupStart segmentStart * ps.leafArity < 2 ^ t.bits :=
    (groupStart_mul_le segmentStart).trans_lt hword
  have hstart : segmentStart / ps.leafArity / ps.internalArity * ps.internalArity = ps.groupStart segmentStart := rfl
  unfold collectLeafGroup
  rw [div_of_pos h.arities.leaf_pos, ok_bind, div_of_pos hpos, ok_bind, Target.mul_of_lt (by omega), ok_bind, hstart,
    Target.add_of_lt hgroup, ok_bind, Target.sub_of_le (by omega), ok_bind, Target.mul_of_lt hfirst, ok_bind,
    groupEndLeafIdx_run h, ok_bind]
  dsimp only
  have hcapacity : ps.groupEndLeafIdx (ps.groupStart segmentStart) - ps.groupStart segmentStart + 1 =
      ps.groupEndLeafIdx (ps.groupStart segmentStart) + 1 - ps.groupStart segmentStart := by omega
  rw [Target.sub_of_le hle, ok_bind, Target.add_of_lt (by omega), hcapacity]
  rfl

private theorem collectLeafGroup_run (hword : segmentStart < 2 ^ t.bits)
    (hgroup : ps.groupStart segmentStart + ps.internalArity < 2 ^ t.bits)
    (hroom : HoldsProofs t.bits
      (ps.groupEndLeafIdx (ps.groupStart segmentStart) + 1 - ps.groupStart segmentStart))
    (hreached : ∀ i, ps.groupStart segmentStart ≤ i → i ≤ ps.groupEndLeafIdx (ps.groupStart segmentStart) →
      (∀ j, ps.groupStart segmentStart ≤ j → j < i → (ps.leafProofs (j * ps.leafArity)).isSome = true) →
      i * ps.leafArity < 2 ^ t.bits) :
    collectLeafGroup t fuel ps segmentStart = .ok (ps.collectLeafGroup (ps.groupStart segmentStart)) := by
  rw [collectLeafGroup_loop h hbounds hword hgroup, withProofCapacity_run hroom, ok_bind]
  unfold ProofState.collectLeafGroup
  dsimp only
  generalize ps.groupEndLeafIdx (ps.groupStart segmentStart) = last at *
  have hread : gatherRun (groupLeaf t ps) (ps.groupStart segmentStart) (last + 1 - ps.groupStart segmentStart) = .ok
      (gather (fun i => (ps.leafProofs (i * ps.leafArity)).map fun leaf =>
        (ProofState.unwrapProof leaf.proof, leaf.segmentEnd))
        (ps.groupStart segmentStart) (last + 1 - ps.groupStart segmentStart)) := by
    apply gatherRun_eq
    intro k hk hfilled
    apply groupLeaf_run h
    apply hreached _ (Nat.le_add_right _ _) (by omega)
    intro j hj hlt
    obtain ⟨i, rfl⟩ := Nat.exists_eq_add_of_le hj
    have hsome := hfilled i (by omega)
    rw [ne_eq, Option.map_eq_none_iff] at hsome
    exact Option.isSome_iff_ne_none.mpr hsome
  rw [hread, gather_map, ok_bind]
  cases gather (fun i => ps.leafProofs (i * ps.leafArity)) (ps.groupStart segmentStart)
      (last + 1 - ps.groupStart segmentStart) with
  | none => rfl
  | some leaves =>
    dsimp only [Option.map_some]
    rw [internalRequest_run h, ok_bind, List.map_map, List.getLast?_map, Option.map_map]
    rfl

omit hbounds in
private theorem gatherRun_groupLeaf_overflow (hchecks : t.overflowChecks = true) (hword : segmentStart < 2 ^ t.bits)
    {i : Nat} (hle : i ≤ ps.groupEndLeafIdx (ps.groupStart segmentStart))
    (hfilled : ∀ j, ps.groupStart segmentStart ≤ j → j < i → (ps.leafProofs (j * ps.leafArity)).isSome = true)
    (hlarge : 2 ^ t.bits ≤ i * ps.leafArity) :
    gatherRun (groupLeaf t ps) (ps.groupStart segmentStart)
      (ps.groupEndLeafIdx (ps.groupStart segmentStart) + 1 - ps.groupStart segmentStart) = .error .overflow := by
  have hfirst : ps.groupStart segmentStart * ps.leafArity < 2 ^ t.bits :=
    (groupStart_mul_le segmentStart).trans_lt hword
  have hexists : ∃ m, 2 ^ t.bits ≤ m * ps.leafArity := ⟨i, hlarge⟩
  have hleast := Nat.find_min' hexists hlarge
  have hspec := Nat.find_spec hexists
  have hmin (m : Nat) (hm : m < Nat.find hexists) : m * ps.leafArity < 2 ^ t.bits :=
    Nat.not_le.mp (Nat.find_min hexists hm)
  generalize Nat.find hexists = least at *
  have hafter : ps.groupStart segmentStart < least := by
    by_contra hbefore
    have := Nat.mul_le_mul_right ps.leafArity (Nat.not_lt.mp hbefore)
    omega
  obtain ⟨k, rfl⟩ := Nat.exists_eq_add_of_le hafter.le
  apply gatherRun_error (k := k) (by omega)
  · intro j hj
    rw [groupLeaf_run h (hmin _ (by omega))]
    obtain ⟨leaf, hleaf⟩ := Option.isSome_iff_exists.mp
      (hfilled (ps.groupStart segmentStart + j) (Nat.le_add_right _ _) (by omega))
    exact ⟨_, congrArg (fun slot => Except.ok (Option.map _ slot)) hleaf⟩
  · exact groupLeaf_overflow hchecks hspec

private theorem collectLeafGroup_overflow (hchecks : t.overflowChecks = true) (hword : segmentStart < 2 ^ t.bits)
    (hlarge : ¬ (ps.groupStart segmentStart + ps.internalArity < 2 ^ t.bits ∧
      HoldsProofs t.bits (ps.groupEndLeafIdx (ps.groupStart segmentStart) + 1 - ps.groupStart segmentStart) ∧
      ∀ i, ps.groupStart segmentStart ≤ i → i ≤ ps.groupEndLeafIdx (ps.groupStart segmentStart) →
        (∀ j, ps.groupStart segmentStart ≤ j → j < i → (ps.leafProofs (j * ps.leafArity)).isSome = true) →
        i * ps.leafArity < 2 ^ t.bits)) :
    ∃ fault, collectLeafGroup t fuel ps segmentStart = .error fault := by
  rcases Nat.lt_or_ge (ps.groupStart segmentStart + ps.internalArity) (2 ^ t.bits) with hgroup | hbad
  · rw [collectLeafGroup_loop h hbounds hword hgroup]
    by_cases hroom : HoldsProofs t.bits
        (ps.groupEndLeafIdx (ps.groupStart segmentStart) + 1 - ps.groupStart segmentStart)
    · have hreached : ∃ i, i ≤ ps.groupEndLeafIdx (ps.groupStart segmentStart) ∧
          (∀ j, ps.groupStart segmentStart ≤ j → j < i → (ps.leafProofs (j * ps.leafArity)).isSome = true) ∧
          2 ^ t.bits ≤ i * ps.leafArity := by
        by_contra hnone
        refine hlarge ⟨hgroup, hroom, fun i _ hle hfilled => ?_⟩
        by_contra hbad
        exact hnone ⟨i, hle, hfilled, Nat.not_lt.mp hbad⟩
      obtain ⟨i, hle, hfilled, hlarge⟩ := hreached
      refine ⟨.overflow, ?_⟩
      rw [withProofCapacity_run hroom, ok_bind, gatherRun_groupLeaf_overflow h hchecks hword hle hfilled hlarge,
        error_bind]
    · exact ⟨_, by rw [withProofCapacity_overflow hroom, error_bind]⟩
  · have hstart : segmentStart / ps.leafArity / ps.internalArity * ps.internalArity = ps.groupStart segmentStart := rfl
    have hgroupWord : ps.groupStart segmentStart < 2 ^ t.bits :=
      (Nat.le_mul_of_pos_right _ h.arities.leaf_pos).trans_lt ((groupStart_mul_le segmentStart).trans_lt hword)
    refine ⟨.overflow, ?_⟩
    unfold collectLeafGroup
    rw [div_of_pos h.arities.leaf_pos, ok_bind, div_of_pos h.internal_pos, ok_bind,
      Target.mul_of_lt hgroupWord, ok_bind,
      hstart, Target.add_overflow hchecks hbad, error_bind]

end

private theorem start_lt_of_bounds {numSegments : Option Nat} {start last : Nat}
    (hout : ¬ numSegments.any (fun n => start ≥ n || last ≥ n) = true) : ∀ n, numSegments = some n → start < n := by
  rintro n rfl
  simp only [Option.any_some, Bool.or_eq_true, decide_eq_true_eq, not_or, not_le, ge_iff_le] at hout
  exact hout.1

private theorem isSome_update_iff {κ α : Type} [DecidableEq κ] {slots : Slots κ α} {key k : κ} {value : α} :
    (Function.update slots key (some value) k).isSome = true ↔ k = key ∨ (slots k).isSome = true := by
  rcases eq_or_ne k key with rfl | hne
  · simp
  · simp [hne]

private theorem update_stored {κ α : Type} [DecidableEq κ] {slots : Slots κ α} {P : α → Prop} {key : κ} {value : α}
    (hslots : ∀ k a, slots k = some a → P a) (hvalue : P value) :
    ∀ k a, Function.update slots key (some value) k = some a → P a := by
  intro k a ha
  rcases eq_or_ne k key with rfl | hne
  · rw [Function.update_self] at ha
    exact Option.some.inj ha ▸ hvalue
  · rw [Function.update_of_ne hne] at ha
    exact hslots k a ha

theorem isSome_of_not_isNone {α : Type} {x : Option α} (h : ¬ x.isNone = true) : x.isSome = true := by
  cases x with
  | none => exact absurd rfl h
  | some a => rfl

section
variable {t : Target} {fuel : Nat} {ps : ProofState} (h : Fits t fuel ps)
include h

theorem fits_leaf {r : LeafProof} (hproof : ¬ r.state.proof.isNone = true) :
    Fits t fuel { ps with leafProofs := Function.update ps.leafProofs r.state.segmentStart (some r.state) } :=
  { h with leafProofs := update_stored h.leafProofs (isSome_of_not_isNone hproof) }

theorem fits_internal {r : InternalProof} (hproof : ¬ r.state.proof.isNone = true) (slot : InternalProofIndex) :
    Fits t fuel { ps with internalProofs := Function.update ps.internalProofs slot (some r.state) } :=
  { h with internalProofs := update_stored h.internalProofs (isSome_of_not_isNone hproof) }

theorem handleLeafResult_run {r : LeafProof} (hr : ProofResult.Decodable t.bits (.leaf r))
    (hwithin : ¬ r.state.proof.isNone = true → ¬ ps.outOfBounds (.leaf r) = true →
      ¬ ps.slotFilled (.leaf r) = true → ps.StaysWithin t.bits (.leaf r)) :
    handleLeafResult t fuel ps r = .ok (ps.handleLeafResult r) := by
  unfold handleLeafResult ProofState.handleLeafResult
  dsimp only
  split
  · rfl
  · rename_i hproof
    split
    · rfl
    · rename_i hout
      split
      · rfl
      · rename_i hnew
        obtain ⟨hgroup, hroom, hreached⟩ := hwithin hproof hout hnew
        rw [collectLeafGroup_run (fits_leaf h hproof) (start_lt_of_bounds hout) hr.1 hgroup hroom, ok_bind,
          if_neg (numSegments_ne_zero h)]
        · rfl
        · intro i hi hle hfilled
          exact hreached i hi hle fun j hj hlt => isSome_update_iff.mp (hfilled j hj hlt)

theorem handleLeafResult_overflow (hchecks : t.overflowChecks = true) {r : LeafProof}
    (hr : ProofResult.Decodable t.bits (.leaf r)) (hproof : ¬ r.state.proof.isNone = true)
    (hout : ¬ ps.outOfBounds (.leaf r) = true) (hnew : ¬ ps.slotFilled (.leaf r) = true)
    (hlarge : ¬ ps.StaysWithin t.bits (.leaf r)) : ∃ fault, handleLeafResult t fuel ps r = .error fault := by
  obtain ⟨fault, hfault⟩ := collectLeafGroup_overflow (fits_leaf h hproof) (start_lt_of_bounds hout) hchecks hr.1 (by
    rintro ⟨hgroup, hroom, hreached⟩
    refine hlarge ⟨hgroup, hroom, fun i hi hle hfilled => hreached i hi hle fun j hj hlt => ?_⟩
    exact isSome_update_iff.mpr (hfilled j hj hlt))
  refine ⟨fault, ?_⟩
  unfold handleLeafResult
  dsimp only
  rw [if_neg hproof]
  refine (if_neg hout).trans ((if_neg hnew).trans ?_)
  rw [hfault, error_bind]

private theorem groupChild_run (layer i : Nat) : groupChild ps layer i =
    .ok ((ps.internalProofs ⟨layer, i⟩).map fun child => (ProofState.unwrapProof child.proof, child)) := by
  unfold groupChild
  cases hchild : ps.internalProofs ⟨layer, i⟩ with
  | none => rfl
  | some child =>
    dsimp only
    rw [unwrap_run (h.internalProofs _ _ hchild), ok_bind]
    rfl

private theorem collectInternalGroup_run {layer idx idxEnd : Nat} (hlayer : layer + 1 < 2 ^ t.bits)
    (hle : idx / ps.internalArity * ps.internalArity ≤ idxEnd)
    (hend : idxEnd ≤ idx / ps.internalArity * ps.internalArity + ps.internalArity - 1)
    (hroom : HoldsProofs t.bits (idxEnd + 1 - idx / ps.internalArity * ps.internalArity)) (isNextLayerFinal : Bool) :
    collectInternalGroup t fuel ps layer (idx / ps.internalArity * ps.internalArity) idxEnd isNextLayerFinal =
      .ok (ps.collectInternalGroup layer idx idxEnd isNextLayerFinal) := by
  have hpos := h.internal_pos
  have hword := h.internalArity
  unfold collectInternalGroup ProofState.collectInternalGroup
  dsimp only
  generalize idx / ps.internalArity * ps.internalArity = idxStart at *
  have hread : gatherRun (groupChild ps layer) idxStart (idxEnd + 1 - idxStart) =
      .ok (gather (fun i => (ps.internalProofs ⟨layer, i⟩).map fun child =>
        (ProofState.unwrapProof child.proof, child)) idxStart (idxEnd + 1 - idxStart)) :=
    gatherRun_eq fun k _ _ => groupChild_run h layer _
  have hcapacity : idxEnd - idxStart + 1 = idxEnd + 1 - idxStart := by omega
  rw [Target.sub_of_le hle, ok_bind, Target.add_of_lt (by omega), ok_bind, hcapacity, withProofCapacity_run hroom,
    ok_bind, hread, gather_map, ok_bind]
  cases gather (fun i => ps.internalProofs ⟨layer, i⟩) idxStart (idxEnd + 1 - idxStart) with
  | none => rfl
  | some states =>
    dsimp only [Option.map_some]
    rw [Target.add_of_lt hlayer, ok_bind, internalRequest_run h, ok_bind, List.map_map, List.map_map]
    have hstates : states.map ((·.2) ∘ fun child : InternalProofState =>
        (ProofState.unwrapProof child.proof, child)) = states := List.map_id states
    rw [hstates]
    rfl

private theorem collectInternalGroup_overflow {layer idxStart idxEnd : Nat} (hle : idxStart ≤ idxEnd)
    (hend : idxEnd ≤ idxStart + ps.internalArity - 1) (hroom : ¬ HoldsProofs t.bits (idxEnd + 1 - idxStart))
    (isNextLayerFinal : Bool) :
    collectInternalGroup t fuel ps layer idxStart idxEnd isNextLayerFinal = .error .capacityOverflow := by
  have hword := h.internalArity
  have hpos := h.internal_pos
  have hcapacity : idxEnd - idxStart + 1 = idxEnd + 1 - idxStart := by omega
  unfold collectInternalGroup
  rw [Target.sub_of_le hle, ok_bind, Target.add_of_lt (by omega), ok_bind, hcapacity, withProofCapacity_overflow hroom,
    error_bind]

variable {state : InternalProofState}

private theorem layer_lt
    (hscale : ps.internalArity * ps.leafArity * ps.internalArity ^ state.layerIdx < 2 ^ t.bits) :
    state.layerIdx + 1 < 2 ^ t.bits := by
  have htwo := h.arities.two_le_internal
  have hgrows : state.layerIdx + 1 ≤ 2 ^ state.layerIdx := Nat.lt_two_pow_self
  have hbase : 2 ≤ ps.internalArity * ps.leafArity :=
    htwo.trans (Nat.le_mul_of_pos_right _ h.arities.leaf_pos)
  have hpow : 2 ^ state.layerIdx ≤ ps.internalArity ^ state.layerIdx := Nat.pow_le_pow_left htwo _
  have hmul := Nat.mul_le_mul hbase hpow
  omega

/-- The group of an index ends within the word: the index is the segment over a scale of the arity at least. -/
private theorem group_lt (hword : state.segmentStart < 2 ^ t.bits) :
    (ps.internalSlot state).idx / ps.internalArity * ps.internalArity + ps.internalArity < 2 ^ t.bits := by
  have htwo := h.arities.two_le_internal
  have hpos := h.internal_pos
  have hia := h.internalArity
  have hidx : (ps.internalSlot state).idx * ps.internalArity ≤ state.segmentStart := by
    have hslot : (ps.internalSlot state).idx =
        state.segmentStart / (ps.internalArity * ps.leafArity * ps.internalArity ^ state.layerIdx) := by
      simp only [ProofState.internalSlot, EdgeProver.segmentStartToInternalIdxWithBatch, EdgeProver.scaleBase_eq]
    have hscaled : ps.internalArity ≤ ps.internalArity * ps.leafArity * ps.internalArity ^ state.layerIdx := by
      rw [Nat.mul_assoc]
      exact Nat.le_mul_of_pos_right _ (Nat.mul_pos h.arities.leaf_pos (Nat.pow_pos hpos))
    rw [hslot]
    exact (Nat.mul_le_mul_left _ hscaled).trans (Nat.div_mul_le_self _ _)
  generalize (ps.internalSlot state).idx = idx at *
  rcases Nat.lt_or_ge idx ps.internalArity with hfirst | hlater
  · rw [Nat.div_eq_of_lt hfirst, Nat.zero_mul, Nat.zero_add]
    exact hia
  · have hstart : idx / ps.internalArity * ps.internalArity ≤ idx := Nat.div_mul_le_self _ _
    have hdouble : idx * 2 ≤ idx * ps.internalArity := Nat.mul_le_mul_left _ htwo
    omega

private theorem index_lt {n : Nat} (hstart : state.segmentStart < n) (hproofs :
      EdgeProver.numProofsAtInternalLayerForLeafCount (EdgeProver.divCeil n ps.leafArity) state.layerIdx
        ps.internalArity ≠ 0) : (ps.internalSlot state).idx <
    EdgeProver.numProofsAtInternalLayerForLeafCount (EdgeProver.divCeil n ps.leafArity) state.layerIdx
      ps.internalArity := by
  rw [numProofsAtInternalLayer_eq h.arities] at hproofs ⊢
  split at hproofs
  · exact absurd rfl hproofs
  · rename_i hone
    rw [if_neg hone, FoldTree.lt_width (treeFan_pos h.arities), FoldTree.first]
    simp only [ProofState.internalSlot, segmentStartToInternalIdx_eq]
    exact (Nat.div_mul_le_self _ _).trans_lt hstart

omit h in
/-- Below the last layer, and where no wrap follows, room is made for the group cut at the layer's end. -/
private theorem groupRoom_below {n : Nat} (hn : ps.numSegments = some n)
    (hfinal : ¬ state.layerIdx = ps.effectiveFinalLayer n) (hwrap : ¬
      (EdgeProver.numInternalLayersForLeafCount (EdgeProver.divCeil n ps.leafArity) ps.internalArity =
          state.layerIdx + 1 ∧
        EdgeProver.numInternalLayersForLeafCount (EdgeProver.divCeil n ps.leafArity) ps.internalArity = 1)) :
    ps.groupRoom state = min ((ps.internalSlot state).idx / ps.internalArity * ps.internalArity + ps.internalArity)
      (EdgeProver.numProofsAtInternalLayerForLeafCount (EdgeProver.divCeil n ps.leafArity) state.layerIdx
        ps.internalArity) - (ps.internalSlot state).idx / ps.internalArity * ps.internalArity := by
  unfold ProofState.groupRoom
  rw [hn]
  exact if_neg (not_or.mpr ⟨hfinal, hwrap⟩)

private theorem belowFinalLayer_run (hproof : state.proof.isSome = true)
    (hlayer : state.layerIdx + 1 < 2 ^ t.bits) {n : Nat}
    (hn : ps.numSegments = some n) (hstart : state.segmentStart < n)
    (hfinal : ¬ state.layerIdx = ps.effectiveFinalLayer n) (hroom : HoldsProofs t.bits (ps.groupRoom state)) :
    belowFinalLayer t fuel ps state
      ⟨EdgeProver.divCeil n ps.leafArity,
        EdgeProver.numInternalLayersForLeafCount (EdgeProver.divCeil n ps.leafArity) ps.internalArity,
        ps.effectiveFinalLayer n⟩
      ((ps.internalSlot state).idx / ps.internalArity * ps.internalArity)
      ((ps.internalSlot state).idx / ps.internalArity * ps.internalArity + ps.internalArity - 1) = .ok
    (if EdgeProver.numInternalLayersForLeafCount (EdgeProver.divCeil n ps.leafArity) ps.internalArity =
          state.layerIdx + 1 ∧
        EdgeProver.numInternalLayersForLeafCount (EdgeProver.divCeil n ps.leafArity) ps.internalArity = 1 then
      [ps.internalRequest (state.layerIdx + 1) [ProofState.unwrapProof state.proof] state.segmentStart
        state.segmentEnd true]
    else if EdgeProver.numProofsAtInternalLayerForLeafCount (EdgeProver.divCeil n ps.leafArity) state.layerIdx
        ps.internalArity = 0 then []
    else ps.collectInternalGroup state.layerIdx (ps.internalSlot state).idx
      (min ((ps.internalSlot state).idx / ps.internalArity * ps.internalArity + ps.internalArity - 1)
        (EdgeProver.numProofsAtInternalLayerForLeafCount (EdgeProver.divCeil n ps.leafArity) state.layerIdx
          ps.internalArity - 1)) (state.layerIdx + 1 == ps.effectiveFinalLayer n)) := by
  unfold belowFinalLayer
  dsimp only
  rw [Target.add_of_lt hlayer, ok_bind]
  split
  · unfold wrapRequest
    rw [Target.add_of_lt hlayer, ok_bind, unwrap_run hproof, ok_bind, internalRequest_run h, ok_bind]
  · rename_i hwrap
    rw [groupRoom_below hn hfinal hwrap] at hroom
    rw [numProofs_run h.internal_pos (leafCount_lt h (h.count n hn).2), ok_bind]
    split
    · rfl
    · rename_i hproofs
      have hidx := index_lt h hstart hproofs
      have hgroup : (ps.internalSlot state).idx / ps.internalArity * ps.internalArity ≤ (ps.internalSlot state).idx :=
        Nat.div_mul_le_self _ _
      have hpos := h.internal_pos
      rw [Target.sub_of_le (Nat.one_le_iff_ne_zero.mpr hproofs), ok_bind, collectInternalGroup_run h hlayer]
      · omega
      · exact Nat.min_le_left _ _
      · refine Target.Allocates.mono hroom (le_of_eq ?_)
        omega

private theorem belowFinalLayer_overflow (hlayer : state.layerIdx + 1 < 2 ^ t.bits) {n : Nat}
    (hn : ps.numSegments = some n)
    (hstart : state.segmentStart < n) (hfinal : ¬ state.layerIdx = ps.effectiveFinalLayer n)
    (hroom : ¬ HoldsProofs t.bits (ps.groupRoom state)) :
    belowFinalLayer t fuel ps state
      ⟨EdgeProver.divCeil n ps.leafArity,
        EdgeProver.numInternalLayersForLeafCount (EdgeProver.divCeil n ps.leafArity) ps.internalArity,
        ps.effectiveFinalLayer n⟩
      ((ps.internalSlot state).idx / ps.internalArity * ps.internalArity)
      ((ps.internalSlot state).idx / ps.internalArity * ps.internalArity + ps.internalArity - 1) =
    .error .capacityOverflow := by
  have hwrap : ¬ (EdgeProver.numInternalLayersForLeafCount (EdgeProver.divCeil n ps.leafArity) ps.internalArity =
        state.layerIdx + 1 ∧
      EdgeProver.numInternalLayersForLeafCount (EdgeProver.divCeil n ps.leafArity) ps.internalArity = 1) := by
    intro hwrap
    apply hroom
    have hnone : ps.groupRoom state = 0 := by
      unfold ProofState.groupRoom
      rw [hn]
      exact if_pos (.inr hwrap)
    exact hnone ▸ holdsProofs_zero _
  rw [groupRoom_below hn hfinal hwrap] at hroom
  have hproofs : ¬ EdgeProver.numProofsAtInternalLayerForLeafCount (EdgeProver.divCeil n ps.leafArity) state.layerIdx
      ps.internalArity = 0 := by
    intro hzero
    rw [hzero, Nat.min_zero, Nat.zero_sub] at hroom
    exact hroom (holdsProofs_zero _)
  have hidx := index_lt h hstart hproofs
  have hgroup : (ps.internalSlot state).idx / ps.internalArity * ps.internalArity ≤ (ps.internalSlot state).idx :=
    Nat.div_mul_le_self _ _
  have hpos := h.internal_pos
  unfold belowFinalLayer
  dsimp only
  rw [Target.add_of_lt hlayer, ok_bind, if_neg hwrap, numProofs_run hpos (leafCount_lt h (h.count n hn).2), ok_bind,
    if_neg hproofs, Target.sub_of_le (Nat.one_le_iff_ne_zero.mpr hproofs), ok_bind]
  apply collectInternalGroup_overflow h
  · omega
  · exact Nat.min_le_left _ _
  · refine fun hbad => hroom (Target.Allocates.mono hbad (le_of_eq ?_))
    omega

private theorem afterInternalInsert_run (hproof : state.proof.isSome = true)
    (hscale : ps.internalArity * ps.leafArity * ps.internalArity ^ state.layerIdx < 2 ^ t.bits)
    (hword : state.segmentStart < 2 ^ t.bits) (hbounds : ∀ n, ps.numSegments = some n → state.segmentStart < n)
    (hroom : HoldsProofs t.bits (ps.groupRoom state)) :
    afterInternalInsert t fuel ps state (ps.internalSlot state).idx =
      .ok (ps.afterInternalInsert state (ps.internalSlot state).idx) := by
  have hpos := h.internal_pos
  have hgroup := group_lt h hword
  have hlayer := layer_lt h hscale
  unfold afterInternalInsert ProofState.afterInternalInsert
  rw [div_of_pos hpos, ok_bind, Target.mul_of_lt (by omega), ok_bind, Target.add_of_lt hgroup, ok_bind,
    Target.sub_of_le (by omega), ok_bind]
  cases hn : ps.numSegments with
  | none =>
    have hgroup : HoldsProofs t.bits ((ps.internalSlot state).idx / ps.internalArity * ps.internalArity +
        ps.internalArity - 1 + 1 - (ps.internalSlot state).idx / ps.internalArity * ps.internalArity) := by
      unfold ProofState.groupRoom at hroom
      rw [hn] at hroom
      refine Target.Allocates.mono hroom ?_
      dsimp only
      omega
    dsimp only
    rw [collectInternalGroup_run h hlayer (by omega) (le_refl _) hgroup, ok_bind]
  | some n =>
    dsimp only
    rw [shape_run h (h.count n hn).2, ok_bind]
    dsimp only
    split
    · rfl
    · rename_i hfinal
      rw [belowFinalLayer_run h hproof hlayer hn (hbounds n hn) hfinal hroom, ok_bind]
      split
      · rfl
      · split <;> rfl

private theorem afterInternalInsert_overflow
    (hscale : ps.internalArity * ps.leafArity * ps.internalArity ^ state.layerIdx < 2 ^ t.bits)
    (hword : state.segmentStart < 2 ^ t.bits) (hbounds : ∀ n, ps.numSegments = some n → state.segmentStart < n)
    (hroom : ¬ HoldsProofs t.bits (ps.groupRoom state)) :
    afterInternalInsert t fuel ps state (ps.internalSlot state).idx = .error .capacityOverflow := by
  have hpos := h.internal_pos
  have hgroup := group_lt h hword
  have hlayer := layer_lt h hscale
  unfold afterInternalInsert
  rw [div_of_pos hpos, ok_bind, Target.mul_of_lt (by omega), ok_bind, Target.add_of_lt hgroup, ok_bind,
    Target.sub_of_le (by omega), ok_bind]
  cases hn : ps.numSegments with
  | none =>
    have hgroup : ¬ HoldsProofs t.bits ((ps.internalSlot state).idx / ps.internalArity * ps.internalArity +
        ps.internalArity - 1 + 1 - (ps.internalSlot state).idx / ps.internalArity * ps.internalArity) := by
      unfold ProofState.groupRoom at hroom
      rw [hn] at hroom
      refine fun hbad => hroom (Target.Allocates.mono hbad ?_)
      dsimp only
      omega
    dsimp only
    rw [collectInternalGroup_overflow h (by omega) (le_refl _) hgroup, error_bind]
  | some n =>
    have hfinal : ¬ state.layerIdx = ps.effectiveFinalLayer n := by
      intro hfinal
      apply hroom
      have hnone : ps.groupRoom state = 0 := by
        unfold ProofState.groupRoom
        rw [hn]
        exact if_pos (.inl hfinal)
      exact hnone ▸ holdsProofs_zero _
    dsimp only
    rw [shape_run h (h.count n hn).2, ok_bind]
    dsimp only
    rw [if_neg hfinal, belowFinalLayer_overflow h hlayer hn (hbounds n hn) hfinal hroom, error_bind]

theorem handleInternalResult_run {r : InternalProof} (hr : ProofResult.Decodable t.bits (.internal r))
    (hwithin : ¬ r.state.proof.isNone = true → ¬ ps.outOfBounds (.internal r) = true →
      ps.StaysWithin t.bits (.internal r)) :
    handleInternalResult t fuel ps r = .ok (ps.handleInternalResult r) := by
  unfold handleInternalResult ProofState.handleInternalResult
  dsimp only
  split
  · rfl
  · rename_i hproof
    split
    · rfl
    · rename_i hout
      obtain ⟨hscale, hroom⟩ := hwithin hproof hout
      have hslot : (⟨r.state.layerIdx, EdgeProver.segmentStartToInternalIdxWithBatch r.state.segmentStart
          r.state.layerIdx ps.leafArity ps.internalArity⟩ : InternalProofIndex) = ps.internalSlot r.state := rfl
      rw [segmentStartToInternalIdx_run h.arities.leaf_pos h.internal_pos hscale, ok_bind, hslot]
      split
      · rfl
      · rename_i hnew
        have hafter := afterInternalInsert_run (fits_internal h hproof (ps.internalSlot r.state))
          (isSome_of_not_isNone hproof) hscale hr.2.1 (start_lt_of_bounds hout) (hroom.resolve_left hnew)
        generalize hinserted : ({ ps with
          internalProofs := Function.update ps.internalProofs (ps.internalSlot r.state) (some r.state) } :
            ProofState) = inserted at hafter ⊢
        have hidx : inserted.internalSlot r.state = ps.internalSlot r.state := hinserted ▸ rfl
        rw [hidx] at hafter
        rw [show EdgeProver.segmentStartToInternalIdxWithBatch r.state.segmentStart r.state.layerIdx ps.leafArity
          ps.internalArity = (ps.internalSlot r.state).idx from rfl, hafter, ok_bind]

theorem handleInternalResult_overflow (hchecks : t.overflowChecks = true) {r : InternalProof}
    (hr : ProofResult.Decodable t.bits (.internal r)) (hproof : ¬ r.state.proof.isNone = true)
    (hout : ¬ ps.outOfBounds (.internal r) = true) (hlarge : ¬ ps.StaysWithin t.bits (.internal r)) :
    ∃ fault, handleInternalResult t fuel ps r = .error fault := by
  unfold handleInternalResult
  dsimp only
  rw [if_neg hproof]
  by_cases hscale : ps.internalArity * ps.leafArity * ps.internalArity ^ r.state.layerIdx < 2 ^ t.bits
  · obtain ⟨hnew, hroom⟩ := not_or.mp fun hbad => hlarge ⟨hscale, hbad⟩
    have hafter := afterInternalInsert_overflow (fits_internal h hproof (ps.internalSlot r.state)) hscale hr.2.1
      (start_lt_of_bounds hout) hroom
    refine ⟨.capacityOverflow, (if_neg hout).trans ?_⟩
    rw [segmentStartToInternalIdx_run h.arities.leaf_pos h.internal_pos hscale, ok_bind]
    refine (if_neg hnew).trans ?_
    have hidx : EdgeProver.segmentStartToInternalIdxWithBatch r.state.segmentStart r.state.layerIdx ps.leafArity
      ps.internalArity = (ps.internalSlot r.state).idx := rfl
    have hslot : (⟨r.state.layerIdx, (ps.internalSlot r.state).idx⟩ : InternalProofIndex) =
      ps.internalSlot r.state := rfl
    rw [hidx, hslot]
    generalize hinserted : ({ ps with
      internalProofs := Function.update ps.internalProofs (ps.internalSlot r.state) (some r.state) } :
        ProofState) = inserted at hafter ⊢
    have hsame : inserted.internalSlot r.state = ps.internalSlot r.state := hinserted ▸ rfl
    rw [hsame] at hafter
    rw [hafter, error_bind]
  · refine ⟨.overflow, (if_neg hout).trans ?_⟩
    rw [segmentStartToInternalIdx_overflow hchecks (Nat.not_lt.mp hscale), error_bind]

end
end Machine
end EdgeProver
