import EdgeProver.ProofState.Machine

/-! Where the tree math stays within the word, and gives the numbers of the exact arithmetic. -/
namespace EdgeProver
open Gather MachineInt

namespace Machine
section
variable {t : Target} {la ia n : Nat}

theorem divCeil_le {n d : Nat} (hd : 0 < d) : EdgeProver.divCeil n d ≤ n := by
  rw [EdgeProver.divCeil_eq hd, ceilDiv_le_iff_le_mul hd]
  exact Nat.le_mul_of_pos_left n hd

private theorem divCeil_le_pow {n d k : Nat} (hd : 2 ≤ d) (hn : n ≤ 2 ^ (k + 1)) : EdgeProver.divCeil n d ≤ 2 ^ k := by
  have hpos : 0 < d := by omega
  rw [EdgeProver.divCeil_eq hpos, ceilDiv_le_iff_le_mul hpos]
  calc n ≤ 2 ^ (k + 1) := hn
    _ = 2 * 2 ^ k := by rw [Nat.pow_succ, Nat.mul_comm]
    _ ≤ d * 2 ^ k := Nat.mul_le_mul_right _ hd

private theorem divCeil_lt {n d : Nat} (hd : 2 ≤ d) (hn : 1 < n) : EdgeProver.divCeil n d < n := by
  rw [EdgeProver.divCeil_eq (by omega)]
  exact FoldTree.ceilDiv_lt hd hn

theorem divCeil_run {d : Nat} (hd : 0 < d) (hn : n < 2 ^ t.bits) :
    divCeil t n d = .ok (EdgeProver.divCeil n d) := by
  unfold divCeil EdgeProver.divCeil
  rw [div_of_pos hd, ok_bind, rem_of_pos hd, ok_bind]
  split
  · rename_i hrest
    have hle := divCeil_le (n := n) hd
    rw [EdgeProver.divCeil, if_pos hrest] at hle
    exact Target.add_of_lt (hle.trans_lt hn)
  · rfl

private theorem layersLoop_run (hia : 2 ≤ ia) {k fuel exactFuel nodes layers : Nat} (hk : nodes ≤ 2 ^ k)
    (hnodes : nodes < 2 ^ t.bits) (hfuel : k ≤ fuel) (hexact : nodes ≤ exactFuel)
    (hlayers : layers + k < 2 ^ t.bits) :
    layersLoop t ia fuel nodes layers = .ok (EdgeProver.layersLoop ia exactFuel nodes layers) := by
  induction k generalizing nodes fuel exactFuel layers with
  | zero =>
    have hone : ¬ nodes > 1 := by simpa using hk
    cases fuel <;> cases exactFuel <;> simp only [layersLoop, EdgeProver.layersLoop, if_neg hone]
  | succ k ih =>
    cases fuel with
    | zero => omega
    | succ fuel =>
      cases exactFuel with
      | zero =>
        have hone : ¬ nodes > 1 := by omega
        simp only [layersLoop, EdgeProver.layersLoop, if_neg hone]
      | succ exactFuel =>
        unfold layersLoop EdgeProver.layersLoop
        split
        · rename_i hnode
          have hless := divCeil_lt hia hnode
          rw [divCeil_run (by omega) hnodes, ok_bind, Target.add_of_lt (by omega), ok_bind]
          exact ih (divCeil_le_pow hia hk) (hless.trans hnodes) (by omega) (by omega) (by omega)
        · rfl

theorem numInternalLayers_run (hia : 2 ≤ ia) {fuel : Nat} (hfuel : t.bits ≤ fuel) (hn : n < 2 ^ t.bits) :
    numInternalLayersForLeafCount t fuel n ia = .ok (EdgeProver.numInternalLayersForLeafCount n ia) := by
  unfold numInternalLayersForLeafCount EdgeProver.numInternalLayersForLeafCount
  split
  · rfl
  · apply layersLoop_run hia hn.le hn hfuel (le_refl n)
    rw [Nat.zero_add]
    exact Nat.lt_two_pow_self

private theorem proofsAtLayerLoop_run (hia : 0 < ia) {rounds ret : Nat} (hret : ret < 2 ^ t.bits) :
    proofsAtLayerLoop t ia rounds ret = .ok (EdgeProver.proofsAtLayerLoop ia rounds ret) := by
  induction rounds generalizing ret with
  | zero => rfl
  | succ rounds ih =>
    unfold proofsAtLayerLoop EdgeProver.proofsAtLayerLoop
    split
    · rfl
    · rw [divCeil_run hia hret, ok_bind]
      exact ih ((divCeil_le hia).trans_lt hret)

theorem proofsAtLayerLoop_le_self (hia : 0 < ia) {rounds ret : Nat} :
    EdgeProver.proofsAtLayerLoop ia rounds ret ≤ ret := by
  induction rounds generalizing ret with
  | zero => exact le_refl ret
  | succ rounds ih =>
    unfold EdgeProver.proofsAtLayerLoop
    split
    · exact Nat.zero_le ret
    · exact ih.trans (divCeil_le hia)

theorem numProofs_run (hia : 0 < ia) {layer : Nat} (hn : n < 2 ^ t.bits) :
    numProofsAtInternalLayerForLeafCount t n layer ia =
      .ok (EdgeProver.numProofsAtInternalLayerForLeafCount n layer ia) :=
  proofsAtLayerLoop_run hia hn

private theorem proofsAtLayerLoop_le (hia : 2 ≤ ia) {rounds ret k : Nat} (hret : ret ≤ 2 ^ (rounds + k)) :
    EdgeProver.proofsAtLayerLoop ia rounds ret ≤ 2 ^ k := by
  induction rounds generalizing ret with
  | zero =>
    rw [Nat.zero_add] at hret
    exact hret
  | succ rounds ih =>
    unfold EdgeProver.proofsAtLayerLoop
    split
    · exact Nat.zero_le _
    · apply ih
      apply divCeil_le_pow hia
      rwa [Nat.add_right_comm] at hret

private theorem layersLoop_le (hia : 2 ≤ ia) {k fuel nodes layers : Nat} (hk : nodes ≤ 2 ^ k) :
    EdgeProver.layersLoop ia fuel nodes layers ≤ layers + k := by
  induction fuel generalizing nodes layers k with
  | zero => exact Nat.le_add_right _ _
  | succ fuel ih =>
    unfold EdgeProver.layersLoop
    split
    · rename_i hnode
      cases k with
      | zero => omega
      | succ k =>
        have hrest : EdgeProver.layersLoop ia fuel (EdgeProver.divCeil nodes ia) (layers + 1) ≤ layers + 1 + k :=
          ih (divCeil_le_pow hia hk)
        omega
    · exact Nat.le_add_right _ _

theorem numInternalLayers_le (hia : 2 ≤ ia) {k : Nat} (hk : 1 ≤ k) (hn : n ≤ 2 ^ k) :
    EdgeProver.numInternalLayersForLeafCount n ia ≤ k := by
  unfold EdgeProver.numInternalLayersForLeafCount
  split
  · exact hk
  · have hle : EdgeProver.layersLoop ia n n 0 ≤ 0 + k := layersLoop_le hia hn
    omega

/-- The layers of one tree together hold fewer proofs than the word has values. -/
theorem sumLayers_run (hia : 2 ≤ ia) {rounds layer total : Nat} (hn : n < 2 ^ t.bits)
    (hlayers : layer + rounds ≤ t.bits) (htotal : total + 2 ^ (t.bits - layer) ≤ 2 ^ t.bits) :
    sumLayers t n ia rounds layer total = .ok (total + ((List.range' layer rounds).map fun l =>
      max (EdgeProver.numProofsAtInternalLayerForLeafCount n l ia) 1).sum) := by
  induction rounds generalizing layer total with
  | zero => simp [sumLayers]
  | succ rounds ih =>
    obtain ⟨k, hk⟩ : ∃ k, t.bits = layer + 1 + k := ⟨t.bits - (layer + 1), by omega⟩
    have hproofs : EdgeProver.numProofsAtInternalLayerForLeafCount n layer ia ≤ 2 ^ k :=
      proofsAtLayerLoop_le hia (hk ▸ hn.le)
    have hpos : 1 ≤ 2 ^ k := Nat.one_le_two_pow
    have hhalf : 2 ^ (t.bits - layer) = 2 ^ k + 2 ^ k := by
      rw [show t.bits - layer = k + 1 by omega, Nat.pow_succ, Nat.mul_two]
    have hnext : t.bits - (layer + 1) = k := by omega
    unfold sumLayers
    rw [numProofs_run (by omega) hn, ok_bind, Target.add_of_lt (by omega), ok_bind,
      ih (by omega) (by rw [hnext]; omega),
      List.range'_succ, List.map_cons, List.sum_cons, Nat.add_assoc]

private theorem scaleBase_run {rounds base : Nat} (hia : 0 < ia) (hfits : base * ia ^ rounds < 2 ^ t.bits) :
    scaleBase t ia rounds base = .ok (EdgeProver.scaleBase ia rounds base) := by
  induction rounds generalizing base with
  | zero => rfl
  | succ rounds ih =>
    have hnext : base * ia * ia ^ rounds < 2 ^ t.bits := by
      rwa [Nat.pow_succ, Nat.mul_comm (ia ^ rounds), ← Nat.mul_assoc] at hfits
    unfold scaleBase EdgeProver.scaleBase
    rw [Target.mul_of_lt ((Nat.le_mul_of_pos_right _ (Nat.pow_pos hia)).trans_lt hnext), ok_bind]
    exact ih hnext

private theorem scaleBase_overflow (hchecks : t.overflowChecks = true) {rounds base : Nat} (hbase : base < 2 ^ t.bits)
    (hlarge : 2 ^ t.bits ≤ base * ia ^ rounds) : scaleBase t ia rounds base = .error .overflow := by
  induction rounds generalizing base with
  | zero =>
    rw [Nat.pow_zero, Nat.mul_one] at hlarge
    omega
  | succ rounds ih =>
    unfold scaleBase
    rcases Nat.lt_or_ge (base * ia) (2 ^ t.bits) with hfits | hbad
    · rw [Target.mul_of_lt hfits, ok_bind]
      apply ih hfits
      rwa [Nat.pow_succ, Nat.mul_comm (ia ^ rounds), ← Nat.mul_assoc] at hlarge
    · rw [Target.mul_overflow hchecks hbad, error_bind]

theorem segmentStartToInternalIdx_run (hla : 0 < la) (hia : 0 < ia) {start layer : Nat}
    (hfits : ia * la * ia ^ layer < 2 ^ t.bits) : segmentStartToInternalIdxWithBatch t start layer la ia =
      .ok (EdgeProver.segmentStartToInternalIdxWithBatch start layer la ia) := by
  have hbase : ia * la < 2 ^ t.bits := (Nat.le_mul_of_pos_right _ (Nat.pow_pos hia)).trans_lt hfits
  have hpos : 0 < EdgeProver.scaleBase ia layer (ia * la) := by
    rw [EdgeProver.scaleBase_eq]
    exact Nat.mul_pos (Nat.mul_pos hia hla) (Nat.pow_pos hia)
  unfold segmentStartToInternalIdxWithBatch
  rw [Target.mul_of_lt hbase, ok_bind, scaleBase_run hia hfits, ok_bind, div_of_pos hpos]
  rfl

theorem segmentStartToInternalIdx_overflow (hchecks : t.overflowChecks = true) {start layer : Nat}
    (hlarge : 2 ^ t.bits ≤ ia * la * ia ^ layer) :
    segmentStartToInternalIdxWithBatch t start layer la ia = .error .overflow := by
  unfold segmentStartToInternalIdxWithBatch
  rcases Nat.lt_or_ge (ia * la) (2 ^ t.bits) with hfits | hbad
  · rw [Target.mul_of_lt hfits, ok_bind, scaleBase_overflow hchecks hfits hlarge, error_bind]
  · rw [Target.mul_overflow hchecks hbad, error_bind]

theorem segmentStartOfInternalProof_run (hla : 0 < la) (hia : 0 < ia) {layer idx : Nat}
    (hbase : ia * ia ^ layer < 2 ^ t.bits) (hfits : idx * (ia * ia ^ layer) * la < 2 ^ t.bits) :
    segmentStartOfInternalProofForLeafCount t la ia layer idx =
      .ok (EdgeProver.segmentStartOfInternalProofForLeafCount la ia layer idx) := by
  have hscaled : idx * EdgeProver.scaleBase ia layer ia < 2 ^ t.bits := by
    rw [EdgeProver.scaleBase_eq]
    exact (Nat.le_mul_of_pos_right _ hla).trans_lt hfits
  unfold segmentStartOfInternalProofForLeafCount EdgeProver.segmentStartOfInternalProofForLeafCount
  rw [scaleBase_run hia hbase, ok_bind, Target.mul_of_lt hscaled, ok_bind, Target.mul_of_lt]
  rwa [EdgeProver.scaleBase_eq]

end

/-- The machine has words for the numbers of the proof, and rounds for its layers; what is stored has its bytes. -/
structure Fits (t : Target) (fuel : Nat) (ps : ProofState) : Prop where
  bits : 2 ≤ t.bits
  fuel : t.bits ≤ fuel
  arities : Arities ps.leafArity ps.internalArity
  leafArity : ps.leafArity < 2 ^ t.bits
  internalArity : ps.internalArity < 2 ^ t.bits
  count (n : Nat) : ps.numSegments = some n → 0 < n ∧ n < 2 ^ t.bits
  leafProofs (i : Nat) (st : LeafProofState) : ps.leafProofs i = some st → st.proof.isSome = true
  internalProofs (i : InternalProofIndex) (st : InternalProofState) :
    ps.internalProofs i = some st → st.proof.isSome = true

section
variable {t : Target} {fuel n : Nat} {ps : ProofState} (h : Fits t fuel ps)
include h

theorem Fits.internal_pos : 0 < ps.internalArity := by
  have htwo := h.arities.two_le_internal
  omega

theorem leafCount_lt (hn : n < 2 ^ t.bits) : EdgeProver.divCeil n ps.leafArity < 2 ^ t.bits :=
  (divCeil_le h.arities.leaf_pos).trans_lt hn

theorem shape_run (hn : n < 2 ^ t.bits) : shape t fuel ps n =
    .ok ⟨EdgeProver.divCeil n ps.leafArity,
      EdgeProver.numInternalLayersForLeafCount (EdgeProver.divCeil n ps.leafArity) ps.internalArity,
      ps.effectiveFinalLayer n⟩ := by
  unfold shape ProofState.effectiveFinalLayer
  rw [divCeil_run h.arities.leaf_pos hn, ok_bind,
    numInternalLayers_run h.arities.two_le_internal h.fuel (leafCount_lt h hn), ok_bind, Target.sub_of_le (by omega),
    ok_bind]

private theorem finalInternalProofPresent_run : finalInternalProofPresent t fuel ps =
    .ok ps.finalInternalProofPresent := by
  unfold finalInternalProofPresent ProofState.finalInternalProofPresent
  cases hn : ps.numSegments with
  | none => rfl
  | some n =>
    dsimp only
    rw [shape_run h (h.count n hn).2, ok_bind]

theorem isReadyForFinalization_run : isReadyForFinalization t fuel ps = .ok ps.isReadyForFinalization := by
  unfold isReadyForFinalization ProofState.isReadyForFinalization
  cases ps.context.proofType with
  | stark => exact finalInternalProofPresent_run h
  | evm => rfl

theorem isSealedForResults_run : isSealedForResults t fuel ps = .ok ps.isSealedForResults := by
  unfold isSealedForResults ProofState.isSealedForResults
  rw [isReadyForFinalization_run h]
  cases ps.status.isInProgress <;> rfl

private theorem layers_le (hn : n < 2 ^ t.bits) : ps.effectiveFinalLayer n + 1 ≤ t.bits := by
  have hbits := h.bits
  have hle := numInternalLayers_le h.arities.two_le_internal (by omega) (leafCount_lt h hn).le
  unfold ProofState.effectiveFinalLayer
  omega

private theorem buildDeferralTailDispatch_run (layer : Nat) :
    buildDeferralTailDispatch t fuel ps layer = .ok (ps.buildDeferralTailDispatch layer) := by
  unfold buildDeferralTailDispatch ProofState.buildDeferralTailDispatch
  split
  · rfl
  · cases hn : ps.numSegments with
    | none => rfl
    | some n =>
      have hword := (h.count n hn).2
      have hlayers := layers_le h hword
      have hsum := @sumLayers_run t ps.internalArity _ h.arities.two_le_internal (ps.effectiveFinalLayer n + 1) 0 0
        (leafCount_lt h hword) (by omega) (by simp)
      dsimp only
      rw [shape_run h hword, ok_bind]
      dsimp only
      rw [hsum, ok_bind, Nat.zero_add, List.range_eq_range']

theorem internalRequest_run (layer : Nat) (children : List ProofBytes) (start last : Nat) (isFinal : Bool) :
    internalRequest t fuel ps layer children start last isFinal =
      .ok (ps.internalRequest layer children start last isFinal) := by
  unfold internalRequest ProofState.internalRequest
  rw [buildDeferralTailDispatch_run h]
  cases isFinal <;> rfl

end
end Machine
end EdgeProver
