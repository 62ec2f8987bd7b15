import EdgeProver.Lib.Gather
import EdgeProver.ProofState.State

/-! Result handling: the recursion tree of one proof, driven by worker results.
Each handler returns the new state with its `Result<Vec<GeneralProveRequest>>`. -/
namespace EdgeProver
open Gather

abbrev Handled := ProofState × Except String (List GeneralProveRequest)

namespace ProofState

/-- The stored proof bytes the code clones with `unwrap`; a result without them is
rejected before it is stored. -/
def unwrapProof (proof : Option ProofBytes) : ProofBytes := proof.getD []

def buildDeferralTailDispatch (ps : ProofState) (finalLayerIdx : Nat) : Option DeferralTailDispatch :=
  if ps.deferralCircuitCount = 0 then none
  else
    match ps.numSegments with
    | none => none
    | some numSegments =>
      let numLeafProofs := divCeil numSegments ps.leafArity
      let effectiveFinalLayer := ps.effectiveFinalLayer numSegments
      let totalInternalProofs := ((List.range (effectiveFinalLayer + 1)).map fun layer =>
        max (numProofsAtInternalLayerForLeafCount numLeafProofs layer ps.internalArity) 1).sum
      some {
        layerMetadata := {
          internalRecursiveLayer := .ofNat (max finalLayerIdx 1)
          internalNodeIdx := .ofNat (totalInternalProofs - 1)
          proofsType := .vm }
        finalMerklePathBytes := ps.deferralFinalMerklePathBytes.getD [] }

def buildEvmProveRequest (ps : ProofState) (state : InternalProofState) : GeneralProveRequest :=
  .evmProve {
    context := ps.context
    internalProofBytes := state.proof.getD []
    deferralMerkleProofsBytes := state.deferralMerkleProofsBytes
    proofHasDeferral := ps.deferralCircuitCount > 0 }

/-- The request for internal node `layerIdx` over the given children. The deferral
payload rides on the final proof only. -/
def internalRequest (ps : ProofState) (layerIdx : Nat) (childProofs : List ProofBytes)
    (segmentStart segmentEnd : Nat) (isFinalProof : Bool) : GeneralProveRequest :=
  .internalProve {
    context := ps.context
    childProofs := childProofs
    layerIdx := layerIdx
    segmentStart := segmentStart
    segmentEnd := segmentEnd
    isFinalProof := isFinalProof
    deferralTail := if isFinalProof then ps.buildDeferralTailDispatch layerIdx else none
    deferralMerkleProofsBytes :=
      if isFinalProof then ps.deferralDepth0MerkleProofsBytes else none }

def leafRequest (ps : ProofState) (appProofs : List ProofBytes) (segmentStart segmentEnd : Nat) :
    GeneralProveRequest :=
  .leafProve {
    context := ps.context
    appProofs := appProofs
    segmentStart := segmentStart
    segmentEnd := segmentEnd }

def appBytes (ps : ProofState) (i : Nat) : Option ProofBytes := (ps.appProofs i).bind (·.proof)

def flushPendingLeafBatches (ps : ProofState) : List GeneralProveRequest :=
  match ps.numSegments with
  | none => []
  | some numSegments =>
    let batchSize := ps.leafArity
    let numFullBatches := numSegments / batchSize
    let tailBatchSize := numSegments % batchSize
    if tailBatchSize > 0 then
      let batchStart := numFullBatches * batchSize
      let batchEnd := numSegments - 1
      if (ps.leafProofs batchStart).isSome then []
      else
        match gather ps.appBytes batchStart (batchEnd + 1 - batchStart) with
        | none => []
        | some appProofs =>
          if appProofs.isEmpty then [] else [ps.leafRequest appProofs batchStart batchEnd]
    else []

def tailChild (ps : ProofState) (layerIdx idx : Nat) : Option (ProofBytes × Nat) :=
  if layerIdx = 0 then
    (ps.leafProofs (idx * ps.leafArity)).map fun leaf => (unwrapProof leaf.proof, leaf.segmentEnd)
  else
    (ps.internalProofs ⟨layerIdx - 1, idx⟩).map fun p => (unwrapProof p.proof, p.segmentEnd)

/-- One round of the layer loop of `trigger_tail_proofs`. -/
def triggerTailProof (ps : ProofState) (numLeafProofs effectiveFinalLayer layerIdx : Nat) :
    Option GeneralProveRequest :=
  let numProofs :=
    if layerIdx = 0 then numLeafProofs
    else numProofsAtInternalLayerForLeafCount numLeafProofs (layerIdx - 1) ps.internalArity
  let numTailProofs := numProofs % ps.internalArity
  if numTailProofs > 0 then
    let idxStart := numProofs - numTailProofs
    let tailIdx := numProofs / ps.internalArity
    if (ps.internalProofs ⟨layerIdx, tailIdx⟩).isSome then none
    else
      let segmentStart :=
        if layerIdx = 0 then idxStart * ps.leafArity
        else segmentStartOfInternalProofForLeafCount ps.leafArity ps.internalArity (layerIdx - 1) idxStart
      match gather (ps.tailChild layerIdx) idxStart numTailProofs with
      | none => none
      | some children =>
        let actualSegmentEnd := (children.getLast?.map (·.2)).getD segmentStart
        some (ps.internalRequest layerIdx (children.map (·.1)) segmentStart actualSegmentEnd
          (layerIdx == effectiveFinalLayer))
  else none

def triggerTailProofs (ps : ProofState) (numSegments : Nat) : List GeneralProveRequest :=
  let numLeafProofs := divCeil numSegments ps.leafArity
  let numInternalLayers := numInternalLayersForLeafCount numLeafProofs ps.internalArity
  let effectiveFinalLayer := ps.effectiveFinalLayer numSegments
  (List.range numInternalLayers).filterMap (ps.triggerTailProof numLeafProofs effectiveFinalLayer)

def handleErrorResult (ps : ProofState) (result : ErrorResult) : ProofState :=
  { ps with
    lastErrorResult := some result
    status := .failing s!"step '{result.step}' failed: {result.error}" }

def handleExecuteE2Result (ps : ProofState) (result : ExecuteE2Result) : Handled :=
  if ps.executeE2State.isSome then (ps, .ok [])
  else
    let numSegments := result.state.numSegments
    if numSegments = 0 then
      ({ ps with status := .failing "ExecuteE2 returned 0 segments" }, .ok [])
    else
      let ps := { ps with numSegments := some numSegments, executeE2State := some result.state }
      (ps, .ok (ps.flushPendingLeafBatches ++ ps.triggerTailProofs numSegments))

/-- Keep the first merkle payload that an app result ships. -/
def keepFirst (buffered shipped : Option Bytes) : Option Bytes :=
  match shipped with
  | some bytes => if buffered.isSome then buffered else some bytes
  | none => buffered

/-- Last segment of the batch from `batchStart`, cut at the last segment once it is known. -/
def actualBatchEnd (ps : ProofState) (batchStart : Nat) : Nat :=
  let batchEnd := batchStart + ps.leafArity - 1
  match ps.numSegments with
  | some numSegments => min batchEnd (numSegments - 1)
  | none => batchEnd

/-- The last part of `handle_app_result`: the leaf request, once the batch's app proofs are in. -/
def collectLeafBatch (ps : ProofState) (batchStart : Nat) : List GeneralProveRequest :=
  let actualBatchEnd := ps.actualBatchEnd batchStart
  if batchStart > actualBatchEnd then []
  else
    match gather ps.appBytes batchStart (actualBatchEnd + 1 - batchStart) with
    | none => []
    | some appProofs => [ps.leafRequest appProofs batchStart actualBatchEnd]

def handleAppResult (ps : ProofState) (result : AppProof) : Handled :=
  let segmentIdx := result.state.segmentIdx
  if result.state.proof.isNone then
    ({ ps with status := .failing s!"AppProof for segment {segmentIdx} missing proof data" }, .ok [])
  else if ps.numSegments.any (fun numSegments => segmentIdx ≥ numSegments) then (ps, .ok [])
  else
    let old := ps.appProofs segmentIdx
    let ps := { ps with appProofs := Function.update ps.appProofs segmentIdx (some result.state) }
    if old.isSome then (ps, .ok [])
    else
      let ps := { ps with
        deferralFinalMerklePathBytes :=
          keepFirst ps.deferralFinalMerklePathBytes result.state.finalMerklePathBytes
        deferralDepth0MerkleProofsBytes :=
          keepFirst ps.deferralDepth0MerkleProofsBytes result.state.deferralMerkleProofsBytes }
      if ps.numSegments = some 0 then (ps, .ok [])
      else (ps, .ok (ps.collectLeafBatch (segmentIdx / ps.leafArity * ps.leafArity)))

/-- Last leaf of the group from `groupStartLeafIdx`, cut at the last leaf once it is known. -/
def groupEndLeafIdx (ps : ProofState) (groupStartLeafIdx : Nat) : Nat :=
  let groupEndLeafIdx := groupStartLeafIdx + ps.internalArity - 1
  match ps.numSegments with
  | some numSegments => min groupEndLeafIdx (divCeil numSegments ps.leafArity - 1)
  | none => groupEndLeafIdx

/-- The last part of `handle_leaf_result`: the layer-0 request, once the group's leaves are in. -/
def collectLeafGroup (ps : ProofState) (groupStartLeafIdx : Nat) : List GeneralProveRequest :=
  let groupSegmentStart := groupStartLeafIdx * ps.leafArity
  match gather (fun i => ps.leafProofs (i * ps.leafArity)) groupStartLeafIdx
      (ps.groupEndLeafIdx groupStartLeafIdx + 1 - groupStartLeafIdx) with
  | none => []
  | some leaves =>
    let actualSegmentEnd := (leaves.getLast?.map (·.segmentEnd)).getD groupSegmentStart
    [ps.internalRequest 0 (leaves.map fun leaf => unwrapProof leaf.proof)
      groupSegmentStart actualSegmentEnd false]

def handleLeafResult (ps : ProofState) (result : LeafProof) : Handled :=
  let segmentStart := result.state.segmentStart
  let segmentEnd := result.state.segmentEnd
  if result.state.proof.isNone then
    ({ ps with
       status := .failing s!"LeafProof for segments [{segmentStart}-{segmentEnd}] missing proof data" },
     .ok [])
  else if ps.numSegments.any (fun numSegments => segmentStart ≥ numSegments || segmentEnd ≥ numSegments) then
    (ps, .ok [])
  else
    let old := ps.leafProofs segmentStart
    let ps := { ps with leafProofs := Function.update ps.leafProofs segmentStart (some result.state) }
    if old.isSome then (ps, .ok [])
    else if ps.numSegments = some 0 then (ps, .ok [])
    else
      let leafIdx := segmentStart / ps.leafArity
      (ps, .ok (ps.collectLeafGroup (leafIdx / ps.internalArity * ps.internalArity)))

/-- `usize::MAX` folded with `min`; no segment index exceeds it, so the seed drops out. -/
def minSegmentStart : List InternalProofState → Nat
  | [] => 2 ^ 64 - 1
  | p :: ps => ps.foldl (fun m q => min m q.segmentStart) p.segmentStart

def maxSegmentEnd (states : List InternalProofState) : Nat :=
  states.foldl (fun m q => max m q.segmentEnd) 0

/-- The last part of `handle_internal_result`: the parent's request, once its children
`idx / arity * arity ..= idxEnd` are in. -/
def collectInternalGroup (ps : ProofState) (layerIdx idx idxEnd : Nat) (isNextLayerFinal : Bool) :
    List GeneralProveRequest :=
  let idxStart := idx / ps.internalArity * ps.internalArity
  match gather (fun i => ps.internalProofs ⟨layerIdx, i⟩) idxStart (idxEnd + 1 - idxStart) with
  | none => []
  | some states =>
    [ps.internalRequest (layerIdx + 1) (states.map fun p => unwrapProof p.proof)
      (minSegmentStart states) (maxSegmentEnd states) isNextLayerFinal]

/-- What the final internal proof leads to: the EVM step of an Evm proof. -/
def finalInternalFollowUp (ps : ProofState) (state : InternalProofState) :
    Except String (List GeneralProveRequest) :=
  if ps.context.proofType = .evm then
    if !state.readyForEvm then
      .error (s!"Evm proof {ps.context.proofUuid} reached the final internal layer without a " ++
        "ready-for-evm (post-merge) proof; cannot dispatch the EVM step")
    else .ok [ps.buildEvmProveRequest state]
  else .ok []

/-- The part of `handle_internal_result` after the insert: what a new proof `idx` of its layer
leads to. -/
def afterInternalInsert (ps : ProofState) (state : InternalProofState) (idx : Nat) :
    Except String (List GeneralProveRequest) :=
  let layerIdx := state.layerIdx
  let idxEnd := idx / ps.internalArity * ps.internalArity + ps.internalArity - 1
  match ps.numSegments with
  | none => .ok (ps.collectInternalGroup layerIdx idx idxEnd false)
  | some numSegments =>
    let numLeafProofs := divCeil numSegments ps.leafArity
    let numInternalLayers := numInternalLayersForLeafCount numLeafProofs ps.internalArity
    let effectiveFinalLayer := ps.effectiveFinalLayer numSegments
    if layerIdx = effectiveFinalLayer then ps.finalInternalFollowUp state
    else if numInternalLayers = layerIdx + 1 ∧ numInternalLayers = 1 then
      .ok [ps.internalRequest (layerIdx + 1) [unwrapProof state.proof] state.segmentStart
        state.segmentEnd true]
    else
      let isNextLayerFinal := layerIdx + 1 == effectiveFinalLayer
      let numProofsAtLayer :=
        numProofsAtInternalLayerForLeafCount numLeafProofs layerIdx ps.internalArity
      if numProofsAtLayer = 0 then .ok []
      else
        .ok (ps.collectInternalGroup layerIdx idx (min idxEnd (numProofsAtLayer - 1)) isNextLayerFinal)

def handleInternalResult (ps : ProofState) (result : InternalProof) : Handled :=
  let layerIdx := result.state.layerIdx
  let segmentStart := result.state.segmentStart
  let segmentEnd := result.state.segmentEnd
  if result.state.proof.isNone then
    ({ ps with status := .failing s!"InternalProof for layer {layerIdx} missing proof data" }, .ok [])
  else if ps.numSegments.any (fun numSegments => segmentStart ≥ numSegments || segmentEnd ≥ numSegments) then
    (ps, .ok [])
  else
    let idx := segmentStartToInternalIdxWithBatch segmentStart layerIdx ps.leafArity ps.internalArity
    let old := ps.internalProofs ⟨layerIdx, idx⟩
    let ps := { ps with
      internalProofs := Function.update ps.internalProofs ⟨layerIdx, idx⟩ (some result.state) }
    if old.isSome then (ps, .ok [])
    else (ps, ps.afterInternalInsert result.state idx)

def handleHalo2Result (ps : ProofState) (result : EvmProof) : Handled :=
  let proofUuid := ps.context.proofUuid
  if ps.context.proofType ≠ .evm then
    ({ ps with status := .failing (s!"received Evm result for {proofUuid} but proof_type is " ++
        ps.context.proofType.debug) }, .ok [])
  else if result.state.proof.isNone then
    ({ ps with status := .failing s!"Evm result for {proofUuid} missing proof bytes" }, .ok [])
  else if ps.evmProof.isSome then (ps, .ok [])
  else ({ ps with evmProof := some result.state }, .ok [])

/-- The latency bookkeeping after a final artifact is left out. -/
def handleProofResult (ps : ProofState) (result : ProofResult) : Handled :=
  if ps.isSealedForResults then (ps, .ok [])
  else
    match result with
    | .error result => (ps.handleErrorResult result, .ok [])
    | .executeE2 result =>
      if result.state.cost > ps.costLimit then
        ({ ps with
           status := .failing s!"ExecuteE2 cost {result.state.cost} exceeds cost limit {ps.costLimit}" },
         .ok [])
      else ps.handleExecuteE2Result result
    | .app result => ps.handleAppResult result
    | .leaf result => ps.handleLeafResult result
    | .internal result => ps.handleInternalResult result
    | .evm result => ps.handleHalo2Result result

section
variable {ps : ProofState} (h : ps.isSealedForResults = false)
include h

theorem handleProofResult_app (r : AppProof) : ps.handleProofResult (.app r) = ps.handleAppResult r := by
  rw [handleProofResult, h]
  rfl

theorem handleProofResult_leaf (r : LeafProof) : ps.handleProofResult (.leaf r) = ps.handleLeafResult r := by
  rw [handleProofResult, h]
  rfl

theorem handleProofResult_internal (r : InternalProof) :
    ps.handleProofResult (.internal r) = ps.handleInternalResult r := by
  rw [handleProofResult, h]
  rfl

theorem handleProofResult_evm (r : EvmProof) : ps.handleProofResult (.evm r) = ps.handleHalo2Result r := by
  rw [handleProofResult, h]
  rfl

theorem handleProofResult_executeE2 {r : ExecuteE2Result} (hc : r.state.cost ≤ ps.costLimit) :
    ps.handleProofResult (.executeE2 r) = ps.handleExecuteE2Result r := by
  rw [handleProofResult, h]
  exact if_neg (Nat.not_lt.mpr hc)

theorem handleProofResult_cost {r : ExecuteE2Result} (hc : ps.costLimit < r.state.cost) :
    ps.handleProofResult (.executeE2 r) = ({ ps with
      status := .failing s!"ExecuteE2 cost {r.state.cost} exceeds cost limit {ps.costLimit}" }, .ok []) := by
  rw [handleProofResult, h]
  exact if_pos hc

end

inductive ProofResultEnvelopeOutcome where
  | late (shouldLogNotice : Bool) (status : ProofStatus)
  | processed (followUpRequests : List GeneralProveRequest) (sealedForResults : Bool)

def handleProofResultWithEnvelopeOutcome (ps : ProofState) (now : Time)
    (envelope : MessageEnvelope ProofResult) :
    ProofState × Except String ProofResultEnvelopeOutcome :=
  if ps.isSealedForResults then
    ({ ps with lateResultNoticeEmitted := true }, .ok (.late (!ps.lateResultNoticeEmitted) ps.status))
  else
    match ProofState.handleProofResult { ps with lastUpdated := now } envelope.message with
    | (ps, .error e) => (ps, .error e)
    | (ps, .ok requests) => (ps, .ok (.processed requests ps.isSealedForResults))

def handleProofResultWithEnvelope (ps : ProofState) (now : Time) (envelope : MessageEnvelope ProofResult) : Handled :=
  match ps.handleProofResultWithEnvelopeOutcome now envelope with
  | (ps, .ok (.processed followUpRequests _)) => (ps, .ok followUpRequests)
  | (ps, .ok (.late ..)) => (ps, .ok [])
  | (ps, .error e) => (ps, .error e)

end ProofState
end EdgeProver
