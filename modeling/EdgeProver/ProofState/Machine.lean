import EdgeProver.Lib.MachineInt
import EdgeProver.ProofState.ResultHandler

/-! The tree math and the result handlers on the words of a machine. `fuel` bounds the rounds of the
`while nodes > 1` loop, the only one that no counter ends. -/
namespace EdgeProver
open Gather MachineInt

namespace Machine
section
variable (t : Target)

def divCeil (n d : Nat) : Run Nat := do
  let quotient ← div n d
  let remainder ← rem n d
  if remainder > 0 then t.add quotient 1 else .ok quotient

def layersLoop (internalArity : Nat) : Nat → Nat → Nat → Run Nat
  | 0, nodes, layers => if nodes > 1 then .error .outOfFuel else .ok layers
  | fuel + 1, nodes, layers =>
    if nodes > 1 then do
      let nodes ← divCeil t nodes internalArity
      let layers ← t.add layers 1
      layersLoop internalArity fuel nodes layers
    else .ok layers

def numInternalLayersForLeafCount (fuel numLeafProofs internalArity : Nat) : Run Nat :=
  if numLeafProofs ≤ 1 then .ok 1
  else layersLoop t internalArity fuel numLeafProofs 0

def proofsAtLayerLoop (internalArity : Nat) : Nat → Nat → Run Nat
  | 0, ret => .ok ret
  | rounds + 1, ret =>
    if ret = 1 then .ok 0
    else do
      let ret ← divCeil t ret internalArity
      proofsAtLayerLoop internalArity rounds ret

def numProofsAtInternalLayerForLeafCount (numLeafProofs layerIdx internalArity : Nat) : Run Nat :=
  proofsAtLayerLoop t internalArity (layerIdx + 1) numLeafProofs

def scaleBase (internalArity : Nat) : Nat → Nat → Run Nat
  | 0, base => .ok base
  | rounds + 1, base => do
    let base ← t.mul base internalArity
    scaleBase internalArity rounds base

def segmentStartOfInternalProofForLeafCount (leafArity internalArity layerIdx idx : Nat) : Run Nat := do
  let base ← scaleBase t internalArity layerIdx internalArity
  let start ← t.mul idx base
  t.mul start leafArity

def segmentStartToInternalIdxWithBatch (segmentStart layerIdx leafArity internalArity : Nat) : Run Nat := do
  let base ← t.mul internalArity leafArity
  let base ← scaleBase t internalArity layerIdx base
  div segmentStart base

/-- The three numbers that the handlers work out of the segment count. -/
structure Shape where
  numLeafProofs : Nat
  numInternalLayers : Nat
  effectiveFinalLayer : Nat

def shape (fuel : Nat) (ps : ProofState) (numSegments : Nat) : Run Shape := do
  let numLeafProofs ← divCeil t numSegments ps.leafArity
  let numInternalLayers ← numInternalLayersForLeafCount t fuel numLeafProofs ps.internalArity
  let effectiveFinalLayer ← t.sub (max numInternalLayers 2) 1
  .ok ⟨numLeafProofs, numInternalLayers, effectiveFinalLayer⟩

def finalInternalProofPresent (fuel : Nat) (ps : ProofState) : Run Bool :=
  match ps.numSegments with
  | some numSegments => do
    let shape ← shape t fuel ps numSegments
    .ok (ps.internalProofs ⟨shape.effectiveFinalLayer, 0⟩).isSome
  | none => .ok false

def isReadyForFinalization (fuel : Nat) (ps : ProofState) : Run Bool :=
  match ps.context.proofType with
  | .stark => finalInternalProofPresent t fuel ps
  | .evm => .ok (ps.evmProof.bind (·.proof)).isSome

def isSealedForResults (fuel : Nat) (ps : ProofState) : Run Bool :=
  if !ps.status.isInProgress then .ok true else isReadyForFinalization t fuel ps

/-- `(0..=effective_final_layer).map(..).sum()`, `rounds` layers from `layer` on. -/
def sumLayers (numLeafProofs internalArity : Nat) : Nat → Nat → Nat → Run Nat
  | 0, _, total => .ok total
  | rounds + 1, layer, total => do
    let proofs ← numProofsAtInternalLayerForLeafCount t numLeafProofs layer internalArity
    let total ← t.add total (max proofs 1)
    sumLayers numLeafProofs internalArity rounds (layer + 1) total

def buildDeferralTailDispatch (fuel : Nat) (ps : ProofState) (finalLayerIdx : Nat) :
    Run (Option DeferralTailDispatch) :=
  if ps.deferralCircuitCount = 0 then .ok none
  else
    match ps.numSegments with
    | none => .ok none
    | some numSegments => do
      let shape ← shape t fuel ps numSegments
      let totalInternalProofs ←
        sumLayers t shape.numLeafProofs ps.internalArity (shape.effectiveFinalLayer + 1) 0 0
      .ok (some {
        layerMetadata := {
          internalRecursiveLayer := .ofNat (max finalLayerIdx 1)
          internalNodeIdx := .ofNat (totalInternalProofs - 1)
          proofsType := .vm }
        finalMerklePathBytes := ps.deferralFinalMerklePathBytes.getD [] })

def internalRequest (fuel : Nat) (ps : ProofState) (layerIdx : Nat) (childProofs : List ProofBytes)
    (segmentStart segmentEnd : Nat) (isFinalProof : Bool) : Run GeneralProveRequest := do
  let deferralTail ← if isFinalProof then buildDeferralTailDispatch t fuel ps layerIdx else .ok none
  .ok (.internalProve {
    context := ps.context
    childProofs := childProofs
    layerIdx := layerIdx
    segmentStart := segmentStart
    segmentEnd := segmentEnd
    isFinalProof := isFinalProof
    deferralTail := deferralTail
    deferralMerkleProofsBytes :=
      if isFinalProof then ps.deferralDepth0MerkleProofsBytes else none })

/-- `Vec::with_capacity` for the bytes of this many proofs: a vector of bytes is three words. -/
def withProofCapacity (capacity : Nat) : Run Unit := t.withCapacity (3 * (t.bits / 8)) capacity

def flushPendingLeafBatches (ps : ProofState) : Run (List GeneralProveRequest) :=
  match ps.numSegments with
  | none => .ok []
  | some numSegments => do
    let batchSize := ps.leafArity
    let numFullBatches ← div numSegments batchSize
    let tailBatchSize ← rem numSegments batchSize
    if tailBatchSize > 0 then do
      let batchStart ← t.mul numFullBatches batchSize
      let batchEnd ← t.sub numSegments 1
      if (ps.leafProofs batchStart).isSome then .ok []
      else do
        withProofCapacity t tailBatchSize
        match gather ps.appBytes batchStart (batchEnd + 1 - batchStart) with
        | none => .ok []
        | some appProofs =>
          .ok (if appProofs.isEmpty then [] else [ps.leafRequest appProofs batchStart batchEnd])
    else .ok []

def tailChild (ps : ProofState) (layerIdx idx : Nat) : Run (Option (ProofBytes × Nat)) :=
  if layerIdx = 0 then do
    let leafSegmentStart ← t.mul idx ps.leafArity
    match ps.leafProofs leafSegmentStart with
    | some leafProof => do
      let proof ← unwrap leafProof.proof
      .ok (some (proof, leafProof.segmentEnd))
    | none => .ok none
  else do
    let childLayer ← t.sub layerIdx 1
    match ps.internalProofs ⟨childLayer, idx⟩ with
    | some internalProof => do
      let proof ← unwrap internalProof.proof
      .ok (some (proof, internalProof.segmentEnd))
    | none => .ok none

def tailSegmentStart (ps : ProofState) (layerIdx idxStart : Nat) : Run Nat :=
  if layerIdx = 0 then t.mul idxStart ps.leafArity
  else do
    let childLayer ← t.sub layerIdx 1
    segmentStartOfInternalProofForLeafCount t ps.leafArity ps.internalArity childLayer idxStart

def proofsBelow (ps : ProofState) (numLeafProofs layerIdx : Nat) : Run Nat :=
  if layerIdx = 0 then .ok numLeafProofs
  else do
    let childLayer ← t.sub layerIdx 1
    numProofsAtInternalLayerForLeafCount t numLeafProofs childLayer ps.internalArity

def triggerTailProof (fuel : Nat) (ps : ProofState) (numLeafProofs effectiveFinalLayer layerIdx : Nat) :
    Run (Option GeneralProveRequest) := do
  let numProofs ← proofsBelow t ps numLeafProofs layerIdx
  let numTailProofs ← rem numProofs ps.internalArity
  if numTailProofs > 0 then do
    let idxStart ← t.sub numProofs numTailProofs
    let tailIdx ← div numProofs ps.internalArity
    if (ps.internalProofs ⟨layerIdx, tailIdx⟩).isSome then .ok none
    else do
      withProofCapacity t numTailProofs
      let segmentStart ← tailSegmentStart t ps layerIdx idxStart
      let read ← gatherRun (fun i => do
        let idx ← t.add idxStart i
        tailChild t ps layerIdx idx) 0 numTailProofs
      match read with
      | none => .ok none
      | some children => do
        let actualSegmentEnd := (children.getLast?.map (·.2)).getD segmentStart
        let request ← internalRequest t fuel ps layerIdx (children.map (·.1)) segmentStart actualSegmentEnd
          (layerIdx == effectiveFinalLayer)
        .ok (some request)
  else .ok none

def triggerTailProofs (fuel : Nat) (ps : ProofState) (numSegments : Nat) : Run (List GeneralProveRequest) := do
  let shape ← shape t fuel ps numSegments
  collectRun (triggerTailProof t fuel ps shape.numLeafProofs shape.effectiveFinalLayer) 0 shape.numInternalLayers

def handleExecuteE2Result (fuel : Nat) (ps : ProofState) (result : ExecuteE2Result) : Run Handled :=
  if ps.executeE2State.isSome then .ok (ps, .ok [])
  else
    let numSegments := result.state.numSegments
    if numSegments = 0 then
      .ok ({ ps with status := .failing "ExecuteE2 returned 0 segments" }, .ok [])
    else do
      let ps := { ps with numSegments := some numSegments, executeE2State := some result.state }
      let flushed ← flushPendingLeafBatches t ps
      let triggered ← triggerTailProofs t fuel ps numSegments
      .ok (ps, .ok (flushed ++ triggered))

/-- `num_segments - 1` caps the end of a batch once the count is known; `none` if the count is zero. -/
def actualBatchEnd (ps : ProofState) (batchEnd : Nat) : Run (Option Nat) :=
  match ps.numSegments with
  | some numSegments =>
    if numSegments = 0 then .ok none
    else do
      let last ← t.sub numSegments 1
      .ok (some (min batchEnd last))
  | none => .ok (some batchEnd)

def collectLeafBatch (ps : ProofState) (segmentIdx : Nat) : Run (List GeneralProveRequest) := do
  let batchSize := ps.leafArity
  let batchIdx ← div segmentIdx batchSize
  let batchStart ← t.mul batchIdx batchSize
  let afterBatch ← t.add batchStart batchSize
  let batchEnd ← t.sub afterBatch 1
  match ← actualBatchEnd t ps batchEnd with
  | none => .ok []
  | some actualBatchEnd =>
    if batchStart > actualBatchEnd then .ok []
    else do
      let distance ← t.sub actualBatchEnd batchStart
      let capacity ← t.add distance 1
      withProofCapacity t capacity
      match gather ps.appBytes batchStart (actualBatchEnd + 1 - batchStart) with
      | none => .ok []
      | some appProofs => .ok [ps.leafRequest appProofs batchStart actualBatchEnd]

def handleAppResult (ps : ProofState) (result : AppProof) : Run Handled :=
  let segmentIdx := result.state.segmentIdx
  if result.state.proof.isNone then
    .ok ({ ps with status := .failing s!"AppProof for segment {segmentIdx} missing proof data" }, .ok [])
  else if ps.numSegments.any (fun numSegments => segmentIdx ≥ numSegments) then .ok (ps, .ok [])
  else
    let old := ps.appProofs segmentIdx
    let ps := { ps with appProofs := Function.update ps.appProofs segmentIdx (some result.state) }
    if old.isSome then .ok (ps, .ok [])
    else do
      let ps := { ps with
        deferralFinalMerklePathBytes :=
          ProofState.keepFirst ps.deferralFinalMerklePathBytes result.state.finalMerklePathBytes
        deferralDepth0MerkleProofsBytes :=
          ProofState.keepFirst ps.deferralDepth0MerkleProofsBytes result.state.deferralMerkleProofsBytes }
      let requests ← collectLeafBatch t ps segmentIdx
      .ok (ps, .ok requests)

def groupLeaf (ps : ProofState) (i : Nat) : Run (Option (ProofBytes × Nat)) := do
  let expectedSegmentStart ← t.mul i ps.leafArity
  match ps.leafProofs expectedSegmentStart with
  | some leafState => do
    let proof ← unwrap leafState.proof
    .ok (some (proof, leafState.segmentEnd))
  | none => .ok none

/-- The last leaf of a group, cut at the last leaf once the count is known; `none` if the count is zero. -/
def groupEndLeafIdx (ps : ProofState) (groupEndLeafIdx : Nat) : Run (Option Nat) :=
  match ps.numSegments with
  | some numSegments =>
    if numSegments = 0 then .ok none
    else do
      let numLeafProofs ← divCeil t numSegments ps.leafArity
      let last ← t.sub numLeafProofs 1
      .ok (some (min groupEndLeafIdx last))
  | none => .ok (some groupEndLeafIdx)

def collectLeafGroup (fuel : Nat) (ps : ProofState) (leafSegmentStart : Nat) : Run (List GeneralProveRequest) := do
  let leafIdx ← div leafSegmentStart ps.leafArity
  let groupIdx ← div leafIdx ps.internalArity
  let groupStartLeafIdx ← t.mul groupIdx ps.internalArity
  let afterGroup ← t.add groupStartLeafIdx ps.internalArity
  let groupEnd ← t.sub afterGroup 1
  let groupSegmentStart ← t.mul groupStartLeafIdx ps.leafArity
  match ← groupEndLeafIdx t ps groupEnd with
  | none => .ok []
  | some groupEnd => do
    let distance ← t.sub groupEnd groupStartLeafIdx
    let capacity ← t.add distance 1
    withProofCapacity t capacity
    let read ← gatherRun (groupLeaf t ps) groupStartLeafIdx (groupEnd + 1 - groupStartLeafIdx)
    match read with
    | none => .ok []
    | some leaves => do
      let actualSegmentEnd := (leaves.getLast?.map (·.2)).getD groupSegmentStart
      let request ← internalRequest t fuel ps 0 (leaves.map (·.1)) groupSegmentStart actualSegmentEnd false
      .ok [request]

def handleLeafResult (fuel : Nat) (ps : ProofState) (result : LeafProof) : Run Handled :=
  let segmentStart := result.state.segmentStart
  let segmentEnd := result.state.segmentEnd
  if result.state.proof.isNone then
    .ok ({ ps with
       status := .failing s!"LeafProof for segments [{segmentStart}-{segmentEnd}] missing proof data" }, .ok [])
  else if ps.numSegments.any (fun numSegments => segmentStart ≥ numSegments || segmentEnd ≥ numSegments) then
    .ok (ps, .ok [])
  else
    let old := ps.leafProofs segmentStart
    let ps := { ps with leafProofs := Function.update ps.leafProofs segmentStart (some result.state) }
    if old.isSome then .ok (ps, .ok [])
    else do
      let requests ← collectLeafGroup t fuel ps segmentStart
      .ok (ps, .ok requests)

def groupChild (ps : ProofState) (layerIdx i : Nat) : Run (Option (ProofBytes × InternalProofState)) :=
  match ps.internalProofs ⟨layerIdx, i⟩ with
  | some child => do
    let proof ← unwrap child.proof
    .ok (some (proof, child))
  | none => .ok none

def collectInternalGroup (fuel : Nat) (ps : ProofState) (layerIdx idxStart idxEnd : Nat) (isNextLayerFinal : Bool) :
    Run (List GeneralProveRequest) := do
  let distance ← t.sub idxEnd idxStart
  let capacity ← t.add distance 1
  withProofCapacity t capacity
  let read ← gatherRun (groupChild ps layerIdx) idxStart (idxEnd + 1 - idxStart)
  match read with
  | none => .ok []
  | some children => do
    let states := children.map (·.2)
    let nextLayer ← t.add layerIdx 1
    let request ← internalRequest t fuel ps nextLayer (children.map (·.1)) (ProofState.minSegmentStart states)
      (ProofState.maxSegmentEnd states) isNextLayerFinal
    .ok [request]

/-- The extra recursive layer over the only internal proof. -/
def wrapRequest (fuel : Nat) (ps : ProofState) (state : InternalProofState) (layerIdx : Nat) :
    Run (List GeneralProveRequest) := do
  let nextLayer ← t.add layerIdx 1
  let proof ← unwrap state.proof
  let request ← internalRequest t fuel ps nextLayer [proof] state.segmentStart state.segmentEnd true
  .ok [request]

/-- The part after the final-layer check, with the segment count known. -/
def belowFinalLayer (fuel : Nat) (ps : ProofState) (state : InternalProofState) (shape : Shape)
    (idxStart idxEnd : Nat) :
    Run (List GeneralProveRequest) := do
  let layerIdx := state.layerIdx
  let nextLayer ← t.add layerIdx 1
  if shape.numInternalLayers = nextLayer ∧ shape.numInternalLayers = 1 then wrapRequest t fuel ps state layerIdx
  else do
    let isNextLayerFinal := nextLayer == shape.effectiveFinalLayer
    let numProofsAtLayer ←
      numProofsAtInternalLayerForLeafCount t shape.numLeafProofs layerIdx ps.internalArity
    if numProofsAtLayer = 0 then .ok []
    else do
      let last ← t.sub numProofsAtLayer 1
      collectInternalGroup t fuel ps layerIdx idxStart (min idxEnd last) isNextLayerFinal

def afterInternalInsert (fuel : Nat) (ps : ProofState) (state : InternalProofState) (idx : Nat) :
    Run (Except String (List GeneralProveRequest)) := do
  let groupIdx ← div idx ps.internalArity
  let idxStart ← t.mul groupIdx ps.internalArity
  let afterGroup ← t.add idxStart ps.internalArity
  let idxEnd ← t.sub afterGroup 1
  match ps.numSegments with
  | none => do
    let requests ← collectInternalGroup t fuel ps state.layerIdx idxStart idxEnd false
    .ok (.ok requests)
  | some numSegments => do
    let shape ← shape t fuel ps numSegments
    if state.layerIdx = shape.effectiveFinalLayer then .ok (ps.finalInternalFollowUp state)
    else do
      let requests ← belowFinalLayer t fuel ps state shape idxStart idxEnd
      .ok (.ok requests)

def handleInternalResult (fuel : Nat) (ps : ProofState) (result : InternalProof) : Run Handled :=
  let layerIdx := result.state.layerIdx
  let segmentStart := result.state.segmentStart
  let segmentEnd := result.state.segmentEnd
  if result.state.proof.isNone then
    .ok ({ ps with status := .failing s!"InternalProof for layer {layerIdx} missing proof data" }, .ok [])
  else if ps.numSegments.any (fun numSegments => segmentStart ≥ numSegments || segmentEnd ≥ numSegments) then
    .ok (ps, .ok [])
  else do
    let idx ← segmentStartToInternalIdxWithBatch t segmentStart layerIdx ps.leafArity ps.internalArity
    let old := ps.internalProofs ⟨layerIdx, idx⟩
    let ps := { ps with
      internalProofs := Function.update ps.internalProofs ⟨layerIdx, idx⟩ (some result.state) }
    if old.isSome then .ok (ps, .ok [])
    else do
      let answer ← afterInternalInsert t fuel ps result.state idx
      .ok (ps, answer)

/-- The check after a handler that has not failed; what it decides, the latency bookkeeping, is left out. -/
def checkReadiness (fuel : Nat) (handled : Handled) : Run Handled :=
  match handled.2 with
  | .error _ => .ok handled
  | .ok _ => do
    let _ready ← isReadyForFinalization t fuel handled.1
    .ok handled

def handleProofResult (fuel : Nat) (ps : ProofState) (result : ProofResult) : Run Handled := do
  if ← isSealedForResults t fuel ps then .ok (ps, .ok [])
  else
    match result with
    | .error result => checkReadiness t fuel (ps.handleErrorResult result, .ok [])
    | .executeE2 result =>
      if result.state.cost > ps.costLimit then
        .ok ({ ps with
           status := .failing s!"ExecuteE2 cost {result.state.cost} exceeds cost limit {ps.costLimit}" }, .ok [])
      else do
        let handled ← handleExecuteE2Result t fuel ps result
        checkReadiness t fuel handled
    | .app result => do
      let handled ← handleAppResult t ps result
      checkReadiness t fuel handled
    | .leaf result => do
      let handled ← handleLeafResult t fuel ps result
      checkReadiness t fuel handled
    | .internal result => do
      let handled ← handleInternalResult t fuel ps result
      checkReadiness t fuel handled
    | .evm result => checkReadiness t fuel (ps.handleHalo2Result result)

def handleProofResultWithEnvelopeOutcome (fuel : Nat) (ps : ProofState) (now : Time)
    (envelope : MessageEnvelope ProofResult) :
    Run (ProofState × Except String ProofState.ProofResultEnvelopeOutcome) := do
  if ← isSealedForResults t fuel ps then
    .ok ({ ps with lateResultNoticeEmitted := true }, .ok (.late (!ps.lateResultNoticeEmitted) ps.status))
  else do
    match ← handleProofResult t fuel { ps with lastUpdated := now } envelope.message with
    | (ps, .error e) => .ok (ps, .error e)
    | (ps, .ok requests) => do
      let sealedForResults ← isSealedForResults t fuel ps
      .ok (ps, .ok (.processed requests sealedForResults))

def handleAll (fuel : Nat) (ps : ProofState) : List ProofResult → Run ProofState
  | [] => .ok ps
  | result :: results => do
    let handled ← handleProofResult t fuel ps result
    handleAll fuel handled.1 results

end
end Machine
end EdgeProver
