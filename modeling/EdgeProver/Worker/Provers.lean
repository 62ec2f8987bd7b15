import EdgeProver.Config
import EdgeProver.Lib.Outcome
import EdgeProver.Worker.Reporting

/-! The recursion provers of a worker: leaf, internal, root and halo2, over an SDK that aggregates. -/
namespace EdgeProver
open Outcome

/-- `Proof<SC>` with the user public values of the terminal segment, where it covers that segment. -/
structure ProofWithPublicValue (P U : Type) where
  proof : P
  userPublicValues : Option U
  deriving DecidableEq, Repr

/-- What a root proof is made from; `M` are the merkle proofs of the deferral memory. -/
structure VmStarkProof (P U M : Type) where
  inner : P
  userPvsProof : U
  deferralMerkleProofs : Option M
  deriving DecidableEq, Repr

inductive VerifierCircuitType where
  | leaf
  | internalForLeaf
  | internalRecursive
  deriving DecidableEq, Repr

inductive ChildVkKind where
  | app
  | standard
  | recursiveSelf
  deriving DecidableEq, Repr

inductive ProofsType where
  | vm
  | deferral
  | mix
  | combined
  deriving DecidableEq, Repr

/-- How a prover ends when it returns no proof. -/
inductive Raised where
  | failed (e : String)
  | panicked (message : String)
  deriving DecidableEq, Repr

/-- What a worker has from the SDK: `P` are stark proofs, `U` the proofs of the user public values, `R` root proofs and
`E` EVM proofs. -/
structure RecursionSdk (P U M R E : Type) where
  maxNumChildrenLeaf : Nat
  maxNumChildrenInternal : Nat
  aggProveNoDef : VerifierCircuitType → List P → ChildVkKind → Except Raised P
  aggProve : VerifierCircuitType → List P → ChildVkKind → ProofsType → Except Raised P
  encodeProof : ProofWithPublicValue P U → Except String ProofBytes
  decodeProof : ProofBytes → Except String (ProofWithPublicValue P U)
  encodeMerkleProofs : M → Except String Bytes
  decodeMerkleProofs : Bytes → Except String M
  runDeferralTailMerge : ProofContext → ProofWithPublicValue P U → DeferralTailDispatch →
    Except String (ProofWithPublicValue P U × M)
  /-- `RootProver::prove`, which wraps again while the trace of the root does not fit, so many times at most. -/
  rootProve : VmStarkProof P U M → Nat → (VmStarkProof P U M → Except Raised (VmStarkProof P U M)) → Except Raised R
  encodeRootProof : R → Except String ProofBytes
  decodeRootProof : ProofBytes → Except String R
  proveForEvm : R → Except Raised E
  encodeEvmProof : E → Except String ProofBytes

/-- What goes wrong outside the provers of a worker. -/
structure PoolFaults where
  /-- Per kind, what `submit_to_workers` returns in place of a result. -/
  leaf : Option String
  internal : Option String
  root : Option String
  halo2 : Option String
  /-- The blocking thread of a merge panicked. -/
  mergePanic : Option String
  /-- The worker has no EVM artifacts. -/
  evmMissing : Bool
  /-- The snapshot of the leaf jobs under way, this one among them. -/
  activeLeafJobs : String

def PoolFaults.none : PoolFaults := ⟨.none, .none, .none, .none, .none, false, "none"⟩

structure LeafProverJob (P U : Type) where
  context : ProofContext
  appProofs : List (ProofWithPublicValue P U)
  segmentStart : Nat
  segmentEnd : Nat

structure InternalProverJob (P U : Type) where
  context : ProofContext
  childProofs : List (ProofWithPublicValue P U)
  layerIdx : Nat
  segmentStart : Nat
  segmentEnd : Nat
  isFinalProof : Bool
  /-- This proof has a deferral tail. -/
  proofHasDeferral : Bool

structure RootProverJob (P U M : Type) where
  context : ProofContext
  finalInternalProof : ProofWithPublicValue P U
  deferralMerkleProofs : Option M
  proofHasDeferral : Bool

structure Halo2ProverJob (R : Type) where
  context : ProofContext
  rootProof : R

section
variable {P U M R E : Type}

def LeafProverJob.validate (job : LeafProverJob P U) (maxNumChildren : Nat) : Except String Unit := do
  bail job.appProofs.isEmpty "Cannot aggregate empty app_proofs list"
  bail (job.segmentStart > job.segmentEnd)
    s!"Invalid segment range: start {job.segmentStart} > end {job.segmentEnd}"
  let expectedCount := job.segmentEnd - job.segmentStart + 1
  bail (job.appProofs.length != expectedCount)
    (s!"Proof count {job.appProofs.length} does not match segment range [{job.segmentStart}, {job.segmentEnd}] " ++
      s!"(expected {expectedCount})")
  bail (job.appProofs.length > maxNumChildren)
    s!"Too many app proofs: {job.appProofs.length} exceeds MAX_NUM_CHILDREN_LEAF={maxNumChildren}"

namespace RecursionSdk
variable (sdk : RecursionSdk P U M R E)

/-- The app proofs of a leaf under one proof, with the public values of the last. -/
def aggregateLeaf (appProofs : List (ProofWithPublicValue P U)) : Except Raised (ProofWithPublicValue P U) := do
  let userPublicValues := appProofs.getLast?.bind (·.userPublicValues)
  let leafProof ← sdk.aggProveNoDef .leaf (appProofs.map (·.proof)) .app
  return ⟨leafProof, userPublicValues⟩

def proveLeafImplWithProver (job : LeafProverJob P U) : Except Raised (List ProofResult) := do
  (job.validate sdk.maxNumChildrenLeaf).mapError .failed
  let leafProofTyped ← sdk.aggregateLeaf job.appProofs
  let bytes ← (sdk.encodeProof leafProofTyped).mapError .failed
  return [.leaf ⟨job.context, ⟨some bytes, job.segmentStart, job.segmentEnd⟩⟩]

end RecursionSdk

/-- `Ok` and `Err` of a prover, under the prefix of its kind; a panic unwinds further. -/
def ProverResult.ofImpl (failure : String) : Except Raised (List ProofResult) → Except String ProverResult
  | .ok results => .ok (.success results)
  | .error (.failed e) => .ok (.error s!"{failure}: {e}")
  | .error (.panicked message) => .error message

def ProverResult.handlePanicResult : Except String ProverResult → ProverResult
  | .ok result => result
  | .error message => .error s!"Prover panicked: {message}"

def submitToWorkers {O : Type} (fault : Option String) (result : O) : Except String O :=
  match fault with
  | some e => .error e
  | none => .ok result

namespace RecursionSdk
variable (sdk : RecursionSdk P U M R E) (faults : PoolFaults)

/-- `LeafKind::run`. -/
def runLeaf (job : LeafProverJob P U) : ProverResult :=
  match ProverResult.handlePanicResult (ProverResult.ofImpl "Leaf prove failed" (sdk.proveLeafImplWithProver job)) with
  | .error err => .error (err ++ s!" [active_leaf_jobs={faults.activeLeafJobs}]")
  | .success results => .success results

def submitLeafJob (job : LeafProverJob P U) : ProverAnswer := submitToWorkers faults.leaf (sdk.runLeaf faults job)

end RecursionSdk

def InternalProverJob.validate (job : InternalProverJob P U) (maxNumChildren : Nat) : Except String Unit := do
  bail job.childProofs.isEmpty "Cannot aggregate empty child_proofs list"
  bail (job.segmentStart > job.segmentEnd)
    s!"Invalid segment range: start {job.segmentStart} > end {job.segmentEnd}"
  bail (job.childProofs.length > maxNumChildren)
    s!"Too many child proofs: {job.childProofs.length} exceeds MAX_NUM_CHILDREN_INTERNAL={maxNumChildren}"

namespace RecursionSdk
variable (sdk : RecursionSdk P U M R E) (faults : PoolFaults)

/-- The aggregation of a layer: its circuit, and how it verifies the children. -/
def aggInternal (layerIdx : Nat) (proofs : List P) : Except Raised P :=
  match layerIdx with
  | 0 => sdk.aggProveNoDef .internalForLeaf proofs .standard
  | 1 => sdk.aggProveNoDef .internalRecursive proofs .standard
  | _ + 2 => sdk.aggProveNoDef .internalRecursive proofs .recursiveSelf

/-- The children of an internal proof under one proof, with the last public values among theirs. -/
def aggregateInternal (layerIdx : Nat) (childProofs : List (ProofWithPublicValue P U)) :
    Except Raised (ProofWithPublicValue P U) := do
  let userPublicValues := childProofs.reverse.findSome? (·.userPublicValues)
  let internalProof ← sdk.aggInternal layerIdx (childProofs.map (·.proof))
  return ⟨internalProof, userPublicValues⟩

/-- One more layer over a final proof. -/
def wrapFinal (layerIdx : Nat) (internalProof : ProofWithPublicValue P U) :
    Except Raised (ProofWithPublicValue P U) := do
  if !decide (layerIdx ≥ 1) then
    throw (.panicked "Internal for leaf should not be final proof!!")
  let wrapped ← sdk.aggProveNoDef .internalRecursive [internalProof.proof] .recursiveSelf
  return ⟨wrapped, internalProof.userPublicValues⟩

/-- The wrap that a final proof gets here, unless the tail merge will wrap it. -/
def finalProofOf (job : InternalProverJob P U) (internalProof : ProofWithPublicValue P U) :
    Except Raised (ProofWithPublicValue P U) :=
  let skipWrapForDeferral := job.isFinalProof && job.proofHasDeferral
  if job.isFinalProof && !skipWrapForDeferral then sdk.wrapFinal job.layerIdx internalProof else .ok internalProof

def proveInternalImplWithProver (job : InternalProverJob P U) : Except Raised (List ProofResult) := do
  (job.validate sdk.maxNumChildrenInternal).mapError .failed
  let internalProof ← sdk.aggregateInternal job.layerIdx job.childProofs
  let finalProof ← sdk.finalProofOf job internalProof
  let bytes ← (sdk.encodeProof finalProof).mapError .failed
  return [.internal ⟨job.context, ⟨some bytes, job.layerIdx, job.segmentStart, job.segmentEnd, none, false⟩⟩]

/-- `InternalKind::run`, and `on_panic`. -/
def runInternal (job : InternalProverJob P U) : ProverResult :=
  ProverResult.handlePanicResult (ProverResult.ofImpl "Internal prove failed" (sdk.proveInternalImplWithProver job))

def submitInternalJob (job : InternalProverJob P U) : ProverAnswer :=
  submitToWorkers faults.internal (sdk.runInternal job)

/-- One more wrap by the recursive prover, as `prove_mixed` left the proof or as the plain wrap did. -/
def wrapVmStarkProof (proofHasDeferral : Bool) (proof : VmStarkProof P U M) : Except Raised (VmStarkProof P U M) := do
  let inner ← sdk.aggProve .internalRecursive [proof.inner] .recursiveSelf (if proofHasDeferral then .combined else .vm)
  return { proof with inner := inner }

def maxRootTracegenRetries : Nat := 8

def rootOf (job : RootProverJob P U M) : Except Raised R :=
  match job.finalInternalProof.userPublicValues with
  | none =>
    .error (.failed ("final internal proof is missing user_public_values; " ++
      "cannot reconstruct VmStarkProof for root prove"))
  | some userPvsProof =>
    sdk.rootProve ⟨job.finalInternalProof.proof, userPvsProof, job.deferralMerkleProofs⟩ maxRootTracegenRetries
      (sdk.wrapVmStarkProof job.proofHasDeferral)

def proveRootImplWithProver (job : RootProverJob P U M) : Except Raised (Option ProofBytes) := do
  let rootProofInner ← sdk.rootOf job
  let bytes ← (sdk.encodeRootProof rootProofInner).mapError .failed
  return some bytes

/-- `RootKind::run`, and `on_panic`. -/
def runRoot (job : RootProverJob P U M) : Except String (Option ProofBytes) :=
  match sdk.proveRootImplWithProver job with
  | .ok state => .ok state
  | .error (.failed e) => .error e
  | .error (.panicked message) => .error s!"Prover panicked: {message}"

def submitRootJob (job : RootProverJob P U M) : Except String (Option ProofBytes) := do
  (← submitToWorkers faults.root (sdk.runRoot job))

def halo2Of (rootProof : R) : Except Raised E :=
  match sdk.proveForEvm rootProof with
  | .error (.failed e) => .error (.failed s!"EVM proof conversion failed: {e}")
  | outcome => outcome

def proveHalo2ImplWithProver (job : Halo2ProverJob R) : Except Raised (List ProofResult) := do
  let typed ← sdk.halo2Of job.rootProof
  let bytes ← (sdk.encodeEvmProof typed).mapError .failed
  return [.evm ⟨job.context, ⟨some bytes⟩⟩]

/-- `Halo2Kind::run`, and `on_panic`. -/
def runHalo2 (job : Halo2ProverJob R) : ProverResult :=
  ProverResult.handlePanicResult (ProverResult.ofImpl "Halo2 prove failed" (sdk.proveHalo2ImplWithProver job))

def submitHalo2Job (job : Halo2ProverJob R) : ProverAnswer := submitToWorkers faults.halo2 (sdk.runHalo2 job)

end RecursionSdk

/-- A decoded proof of either kind. The source's types keep the two apart. -/
inductive DecodedProof (P U R : Type) where
  | stark (proof : ProofWithPublicValue P U)
  | root (proof : R)

def DecodedProof.asStark : DecodedProof P U R → Except String (ProofWithPublicValue P U)
  | .stark proof => .ok proof
  | .root _ => .error "a root proof"

namespace RecursionSdk
variable (sdk : RecursionSdk P U M R E) (faults : PoolFaults)

def evmTools : EvmTools (DecodedProof P U R) M where
  decodeProof bytes := (sdk.decodeProof bytes).map .stark
  encodeProof decoded := do sdk.encodeProof (← decoded.asStark)
  decodeMerkleProofs := sdk.decodeMerkleProofs
  encodeMerkleProofs := sdk.encodeMerkleProofs
  runDeferralTailMerge context decoded tail := do
    let merged ← sdk.runDeferralTailMerge context (← decoded.asStark) tail
    return (.stark merged.1, merged.2)
  mergePanic := faults.mergePanic
  evmReady := !faults.evmMissing
  rootProve context decoded merkleProofs proofHasDeferral := do
    sdk.submitRootJob faults ⟨context, ← decoded.asStark, merkleProofs, proofHasDeferral⟩
  decodeRootProof bytes := (sdk.decodeRootProof bytes).map .root
  halo2Prove context decoded :=
    match decoded with
    | .root rootProof => sdk.submitHalo2Job faults ⟨context, rootProof⟩
    | .stark _ => .error "a stark proof"

/-- What `handle_recursion_prove` spawns for a request, or the text it refuses the request with. -/
def recursionTask (net : Network) : GeneralProveRequest → Except String TaskEnd
  | .leafProve req => do
    let appProofs ← (req.appProofs.mapM sdk.decodeProof).mapError fun e => s!"Invalid app proofs: {e}"
    let job : LeafProverJob P U := ⟨req.context, appProofs, req.segmentStart, req.segmentEnd⟩
    return leafTask net req.context.proofUuid (sdk.submitLeafJob faults job)
  | .internalProve req => do
    let childProofs ← (req.childProofs.mapM sdk.decodeProof).mapError fun e => s!"Invalid child proofs: {e}"
    let job : InternalProverJob P U := ⟨req.context, childProofs, req.layerIdx, req.segmentStart, req.segmentEnd,
      req.isFinalProof, req.deferralTail.isSome⟩
    return internalTask net (sdk.evmTools faults) req (sdk.submitInternalJob faults job)
  | .evmProve req => return driveEvmProveFromRequest net (sdk.evmTools faults) req

end RecursionSdk

private theorem handlePanicResult_success {failure : String} {outcome : Except Raised (List ProofResult)}
    {results : List ProofResult}
    (h : ProverResult.handlePanicResult (ProverResult.ofImpl failure outcome) = .success results) :
    outcome = .ok results := by
  cases outcome with
  | ok results' => exact congrArg _ (ProverResult.success.inj h)
  | error raised => cases raised <;> cases h

private theorem submitToWorkers_ok {O : Type} {fault : Option String} {result out : O}
    (h : submitToWorkers fault result = .ok out) :
    result = out := by
  cases fault with
  | none => exact Except.ok.inj h
  | some e => cases h

private theorem produced_postOutcome {net : Network} {proofUuid : String} {outcome : Except String ProofResult}
    {r : ProofResult}
    (h : r ∈ (postOutcome net proofUuid outcome).produced) : outcome = .ok r := by
  cases outcome with
  | ok result => rw [List.mem_singleton.mp h]
  | error message => exact absurd h List.not_mem_nil

namespace RecursionSdk
variable {sdk : RecursionSdk P U M R E} {faults : PoolFaults} {net : Network} {t : TaskEnd} {r : ProofResult}

private theorem submitLeafJob_success {job : LeafProverJob P U} {results : List ProofResult}
    (h : sdk.submitLeafJob faults job = .ok (.success results)) : sdk.proveLeafImplWithProver job = .ok results := by
  have hrun : sdk.runLeaf faults job = .success results := submitToWorkers_ok h
  rw [runLeaf] at hrun
  split at hrun
  · cases hrun
  · next results' hraw =>
    cases hrun
    exact handlePanicResult_success hraw

private theorem submitInternalJob_success {job : InternalProverJob P U} {results : List ProofResult}
    (h : sdk.submitInternalJob faults job = .ok (.success results)) :
    sdk.proveInternalImplWithProver job = .ok results :=
  handlePanicResult_success (submitToWorkers_ok h)

private theorem submitHalo2Job_success {job : Halo2ProverJob R} {results : List ProofResult}
    (h : sdk.submitHalo2Job faults job = .ok (.success results)) : sdk.proveHalo2ImplWithProver job = .ok results :=
  handlePanicResult_success (submitToWorkers_ok h)

private theorem submitRootJob_ok {job : RootProverJob P U M} {proof : Option ProofBytes}
    (h : sdk.submitRootJob faults job = .ok proof) : sdk.proveRootImplWithProver job = .ok proof := by
  obtain ⟨run, hrun, hproof⟩ := bind_ok_iff.mp h
  obtain rfl := submitToWorkers_ok hrun
  rw [runRoot] at hproof
  split at hproof
  · next hstate =>
    cases hproof
    exact hstate
  · cases hproof
  · cases hproof

/-- Decoding gives back what was encoded, of every kind of proof that travels. -/
structure RoundTrips (sdk : RecursionSdk P U M R E) : Prop where
  proof : ∀ p bytes, sdk.encodeProof p = .ok bytes → sdk.decodeProof bytes = .ok p
  merkle : ∀ m bytes, sdk.encodeMerkleProofs m = .ok bytes → sdk.decodeMerkleProofs bytes = .ok m
  root : ∀ root bytes, sdk.encodeRootProof root = .ok bytes → sdk.decodeRootProof bytes = .ok root

/-- The end of the stark proof, over the layers: the merge of a proof with a deferral tail, the wrap of any other. -/
def finishInternal (sdk : RecursionSdk P U M R E) (context : ProofContext) (layerIdx : Nat)
    (tail : Option DeferralTailDispatch) (internalProof : ProofWithPublicValue P U) :
    Except Raised (ProofWithPublicValue P U × Option M) :=
  match tail with
  | none => (sdk.wrapFinal layerIdx internalProof).map fun wrapped => (wrapped, none)
  | some tail => ((sdk.runDeferralTailMerge context internalProof tail).mapError .failed).map fun merged =>
      (merged.1, some merged.2)

private theorem leafTask_produced {proofUuid : String} {answer : ProverAnswer}
    (h : r ∈ (leafTask net proofUuid answer).produced) :
    ∃ results, answer = .ok (.success results) ∧ r ∈ results := by
  unfold leafTask at h
  split at h
  · exact ⟨_, rfl, h⟩
  · exact absurd h List.not_mem_nil
  · exact absurd h List.not_mem_nil

/-- A leaf that a task produced aggregates the app proofs of its request. -/
theorem leaf_produced {req : LeafProveRequest} (h : sdk.recursionTask faults net (.leafProve req) = .ok t)
    (hr : r ∈ t.produced) : ∃ appProofs leaf bytes, req.appProofs.mapM sdk.decodeProof = .ok appProofs ∧
      sdk.aggregateLeaf appProofs = .ok leaf ∧ sdk.encodeProof leaf = .ok bytes ∧
      r = .leaf ⟨req.context, ⟨some bytes, req.segmentStart, req.segmentEnd⟩⟩ := by
  obtain ⟨appProofs, hdecode, h⟩ := bind_ok_iff.mp h
  obtain rfl := Except.ok.inj h
  obtain ⟨results, hanswer, hr⟩ := leafTask_produced hr
  obtain ⟨-, -, himpl⟩ := bind_ok_iff.mp (submitLeafJob_success hanswer)
  obtain ⟨leaf, hleaf, himpl⟩ := bind_ok_iff.mp himpl
  obtain ⟨bytes, hbytes, himpl⟩ := bind_ok_iff.mp himpl
  obtain rfl := Except.ok.inj himpl
  exact ⟨appProofs, leaf, bytes, mapError_ok_iff.mp hdecode, hleaf, mapError_ok_iff.mp hbytes, List.mem_singleton.mp hr⟩

private theorem proveInternal_ok {job : InternalProverJob P U} {results : List ProofResult}
    (h : sdk.proveInternalImplWithProver job = .ok results) : ∃ internalProof finalProof bytes,
      sdk.aggregateInternal job.layerIdx job.childProofs = .ok internalProof ∧
      sdk.finalProofOf job internalProof = .ok finalProof ∧ sdk.encodeProof finalProof = .ok bytes ∧ results =
        [.internal ⟨job.context, ⟨some bytes, job.layerIdx, job.segmentStart, job.segmentEnd, none, false⟩⟩] := by
  obtain ⟨-, -, h⟩ := bind_ok_iff.mp h
  obtain ⟨internalProof, hinternal, h⟩ := bind_ok_iff.mp h
  obtain ⟨finalProof, hfinal, h⟩ := bind_ok_iff.mp h
  obtain ⟨bytes, hbytes, h⟩ := bind_ok_iff.mp h
  exact ⟨internalProof, finalProof, bytes, hinternal, hfinal, mapError_ok_iff.mp hbytes, (Except.ok.inj h).symm⟩

structure Finished (sdk : RecursionSdk P U M R E) (req : InternalProveRequest)
    (internalProof : ProofWithPublicValue P U)
    (state : InternalProofState) : Prop where
  proof : ∃ final merkle bytes, sdk.finishInternal req.context req.layerIdx req.deferralTail internalProof =
    .ok (final, merkle) ∧
    sdk.encodeProof final = .ok bytes ∧ state.proof = some bytes ∧
    (∀ m, merkle = some m → ∃ merkleBytes, sdk.encodeMerkleProofs m = .ok merkleBytes ∧
      state.deferralMerkleProofsBytes = some merkleBytes)
  /-- Without a merge the depth-0 proofs travel on, if the EVM step will need them. -/
  depth0 : req.deferralTail = none → state.deferralMerkleProofsBytes =
    if req.context.proofType = .evm then req.deferralMerkleProofsBytes else none
  layer : state.layerIdx = req.layerIdx
  covers : state.segmentStart = req.segmentStart ∧ state.segmentEnd = req.segmentEnd
  ready : state.readyForEvm = (req.context.proofType == .evm)

def MergedTo (sdk : RecursionSdk P U M R E) (context : ProofContext) (internalBytes : ProofBytes)
    (tail : DeferralTailDispatch) (out : ProofBytes × Bytes) : Prop :=
  ∃ internalProof merged, sdk.decodeProof internalBytes = .ok internalProof ∧
    sdk.runDeferralTailMerge context internalProof tail = .ok merged ∧ sdk.encodeProof merged.1 = .ok out.1 ∧
    sdk.encodeMerkleProofs merged.2 = .ok out.2

private theorem mergedTo_of_ok {context : ProofContext} {internalBytes : ProofBytes} {tail : DeferralTailDispatch}
    {decoded : DecodedProof P U R} {merged : DecodedProof P U R × M} {out : ProofBytes × Bytes}
    (hdecode : (sdk.evmTools faults).decodeProof internalBytes = .ok decoded)
    (hmerge : (sdk.evmTools faults).runDeferralTailMerge context decoded tail = .ok merged)
    (hproof : (sdk.evmTools faults).encodeProof merged.1 = .ok out.1)
    (hmerkle : (sdk.evmTools faults).encodeMerkleProofs merged.2 = .ok out.2) :
    sdk.MergedTo context internalBytes tail out := by
  obtain ⟨internalProof, hinternal, rfl⟩ := map_ok_iff.mp hdecode
  obtain ⟨_, hstark, hmerge⟩ := bind_ok_iff.mp hmerge
  obtain rfl := Except.ok.inj hstark
  obtain ⟨merged', hmerged, hmerge⟩ := bind_ok_iff.mp hmerge
  obtain rfl := Except.ok.inj hmerge
  exact ⟨internalProof, merged', hinternal, hmerged, hproof, hmerkle⟩

private theorem prepare_ok {proofUuid : String} {context : ProofContext} {internalBytes : ProofBytes}
    {tail : DeferralTailDispatch} {depth0 : Option Bytes} {out : ProofBytes × Option Bytes}
    (h : (sdk.evmTools faults).prepare proofUuid context (some internalBytes) (some tail) depth0 = .ok out) :
    ∃ merkleBytes, sdk.MergedTo context internalBytes tail (out.1, merkleBytes) ∧ out.2 = some merkleBytes := by
  obtain ⟨decoded, hdecode, h⟩ := bind_ok_iff.mp h
  obtain ⟨merged, hmerge, h⟩ := bind_ok_iff.mp h
  obtain ⟨bytes, hbytes, h⟩ := bind_ok_iff.mp h
  obtain ⟨merkleBytes, hmerkle, h⟩ := bind_ok_iff.mp h
  obtain rfl := Except.ok.inj h
  rw [mapError_ok_iff] at hdecode hmerge hbytes hmerkle
  exact ⟨merkleBytes, mergedTo_of_ok hdecode hmerge hbytes hmerkle, rfl⟩

private theorem mergeStark_ok {proofUuid : String} {context : ProofContext} {internalBytes : ProofBytes}
    {tail : DeferralTailDispatch} {out : ProofBytes × Bytes}
    (h : (sdk.evmTools faults).mergeStark proofUuid context (some internalBytes) tail = .ok out) :
    sdk.MergedTo context internalBytes tail out := by
  obtain ⟨decoded, hdecode, h⟩ := bind_ok_iff.mp h
  obtain ⟨merged, hmerge, h⟩ := bind_ok_iff.mp h
  obtain ⟨bytes, hbytes, h⟩ := bind_ok_iff.mp h
  obtain ⟨merkleBytes, hmerkle, h⟩ := bind_ok_iff.mp h
  obtain rfl := Except.ok.inj h
  rw [mapError_ok_iff] at hdecode hbytes hmerkle
  exact mergedTo_of_ok hdecode hmerge hbytes hmerkle

theorem MergedTo.finish (hcodec : sdk.RoundTrips) {req : InternalProveRequest} {tail : DeferralTailDispatch}
    (htail : req.deferralTail = some tail) {internalProof : ProofWithPublicValue P U} {internalBytes : ProofBytes}
    (hencode : sdk.encodeProof internalProof = .ok internalBytes) {out : ProofBytes × Bytes}
    (h : sdk.MergedTo req.context internalBytes tail out) : ∃ final merkle,
      sdk.finishInternal req.context req.layerIdx req.deferralTail internalProof = .ok (final, some merkle) ∧
      sdk.encodeProof final = .ok out.1 ∧ sdk.encodeMerkleProofs merkle = .ok out.2 := by
  obtain ⟨decoded, merged, hdecode, hmerge, hproof, hmerkle⟩ := h
  obtain rfl : internalProof = decoded := Except.ok.inj ((hcodec.proof _ _ hencode).symm.trans hdecode)
  refine ⟨merged.1, merged.2, ?_, hproof, hmerkle⟩
  simp only [finishInternal, htail, hmerge, Except.mapError, Except.map]

/-- The wrap keeps the public values. -/
theorem wrapFinal_ok {layerIdx : Nat} {internalProof wrapped : ProofWithPublicValue P U}
    (h : sdk.wrapFinal layerIdx internalProof = .ok wrapped) :
    wrapped.userPublicValues = internalProof.userPublicValues := by
  rw [wrapFinal] at h
  split at h
  · cases h
  · obtain ⟨proof, -, h⟩ := bind_ok_iff.mp h
    rw [← Except.ok.inj h]

private theorem evmPrep_ok {proofUuid : String} {context : ProofContext} {raw out : InternalProof}
    {tail : Option DeferralTailDispatch} {depth0 : Option Bytes}
    (h : (sdk.evmTools faults).evmPrep proofUuid context [.internal raw] tail depth0 = .ok out) :
    ∃ finished, (sdk.evmTools faults).prepare proofUuid context raw.state.proof tail depth0 = .ok finished ∧
      out.state = { raw.state with
        proof := some finished.1, deferralMerkleProofsBytes := finished.2, readyForEvm := true } := by
  simp only [EvmTools.evmPrep, findInternal] at h
  split at h
  · cases h
  · split at h
    · cases h
    · next finished hprepare =>
      obtain rfl := Except.ok.inj h
      exact ⟨_, hprepare, rfl⟩

private theorem starkDeferralMerge_ok {proofUuid : String} {context : ProofContext} {raw out : InternalProof}
    {tail : DeferralTailDispatch}
    (h : (sdk.evmTools faults).starkDeferralMerge proofUuid context [.internal raw] (some tail) = .ok out) :
    ∃ merged, (sdk.evmTools faults).mergeStark proofUuid context raw.state.proof tail = .ok merged ∧
      out.state = { raw.state with proof := some merged.1, deferralMerkleProofsBytes := some merged.2 } := by
  simp only [EvmTools.starkDeferralMerge, findInternal] at h
  split at h
  · cases h
  · next merged hmerged =>
    obtain rfl := Except.ok.inj h
    split at hmerged
    · cases hmerged
    · exact ⟨_, hmerged, rfl⟩

/-- What follows a final internal proof: the merge or the preparation of the EVM step, where there is one. -/
private theorem finished_wrapped {req : InternalProveRequest} {internalProof finalProof : ProofWithPublicValue P U}
    {bytes : ProofBytes} (htail : req.deferralTail = none)
    (hwrap : sdk.wrapFinal req.layerIdx internalProof = .ok finalProof)
    (hbytes : sdk.encodeProof finalProof = .ok bytes) :
    sdk.Finished req internalProof ⟨some bytes, req.layerIdx, req.segmentStart, req.segmentEnd,
      if req.context.proofType = .evm then req.deferralMerkleProofsBytes else none, req.context.proofType == .evm⟩ := by
  have hfinish : sdk.finishInternal req.context req.layerIdx req.deferralTail internalProof =
      .ok (finalProof, none) := by
    rw [htail]
    show (sdk.wrapFinal req.layerIdx internalProof).map _ = _
    rw [hwrap]
    rfl
  exact ⟨⟨finalProof, none, bytes, hfinish, hbytes, rfl, fun m hm => absurd hm (Option.some_ne_none m).symm⟩,
    fun _ => rfl, rfl, ⟨rfl, rfl⟩, rfl⟩

private theorem finished_merged (hcodec : sdk.RoundTrips) {req : InternalProveRequest}
    {internalProof : ProofWithPublicValue P U} {bytes : ProofBytes} {tail : DeferralTailDispatch}
    {out : ProofBytes × Bytes} (htail : req.deferralTail = some tail)
    (hbytes : sdk.encodeProof internalProof = .ok bytes) (hmerged : sdk.MergedTo req.context bytes tail out) :
    sdk.Finished req internalProof ⟨some out.1, req.layerIdx, req.segmentStart, req.segmentEnd, some out.2,
      req.context.proofType == .evm⟩ := by
  obtain ⟨final, merkle, hfinish, hfinalBytes, hmerkleBytes⟩ := hmerged.finish hcodec htail hbytes
  refine ⟨⟨final, some merkle, out.1, hfinish, hfinalBytes, rfl, fun m hm => ?_⟩, ?_, rfl, ⟨rfl, rfl⟩, rfl⟩
  · obtain rfl := Option.some.inj hm
    exact ⟨out.2, hmerkleBytes, rfl⟩
  · rw [htail]
    exact fun hnone => absurd hnone (Option.some_ne_none tail)

private theorem finished_of_final (hcodec : sdk.RoundTrips) {req : InternalProveRequest}
    (hfinal : req.isFinalProof = true)
    {internalProof finalProof : ProofWithPublicValue P U} {bytes : ProofBytes}
    (hstep : if req.deferralTail.isSome then internalProof = finalProof
      else sdk.wrapFinal req.layerIdx internalProof = .ok finalProof)
    (hbytes : sdk.encodeProof finalProof = .ok bytes) {raw : InternalProof}
    (hraw : raw.state = ⟨some bytes, req.layerIdx, req.segmentStart, req.segmentEnd, none, false⟩)
    (hr : r ∈ (internalTask net (sdk.evmTools faults) req (.ok (.success [.internal raw]))).produced) :
    ∃ result, r = .internal result ∧ sdk.Finished req internalProof result.state := by
  have hproof : raw.state.proof = some bytes := by rw [hraw]
  cases htype : req.context.proofType with
  | evm =>
    have hroute : (internalTask net (sdk.evmTools faults) req (.ok (.success [.internal raw]))) =
        driveEvmPrepAndPost net (sdk.evmTools faults) req [.internal raw] := by
      simp [internalTask, InternalProveRequest.starkDeferralFinal, InternalProveRequest.evmHandoff, hfinal, htype]
    rw [hroute] at hr
    obtain ⟨result, hprep, rfl⟩ := map_ok_iff.mp (produced_postOutcome hr)
    obtain ⟨finished, hprepare, hstate⟩ := evmPrep_ok hprep
    rw [hproof] at hprepare
    refine ⟨result, rfl, ?_⟩
    rw [hstate, hraw]
    cases htail : req.deferralTail with
    | none =>
      rw [htail] at hprepare hstep
      obtain rfl := Except.ok.inj hprepare
      simpa [htype] using finished_wrapped htail hstep hbytes
    | some tail =>
      rw [htail] at hprepare hstep
      obtain rfl : internalProof = finalProof := hstep
      obtain ⟨merkleBytes, hmerged, hmerkle⟩ := prepare_ok hprepare
      simpa [htype, hmerkle] using finished_merged hcodec htail hbytes hmerged
  | stark =>
    have hready : (ProofType.stark == ProofType.evm) = false := rfl
    cases htail : req.deferralTail with
    | none =>
      have hroute : (internalTask net (sdk.evmTools faults) req (.ok (.success [.internal raw]))).produced =
          [.internal raw] := by
        simp [internalTask, InternalProveRequest.starkDeferralFinal, InternalProveRequest.evmHandoff, htype, htail]
      rw [hroute] at hr
      rw [htail] at hstep
      refine ⟨raw, List.mem_singleton.mp hr, ?_⟩
      rw [hraw]
      simpa [htype, hready] using finished_wrapped htail hstep hbytes
    | some tail =>
      have hroute : (internalTask net (sdk.evmTools faults) req (.ok (.success [.internal raw]))) =
          driveStarkDeferralMergeAndPost net (sdk.evmTools faults) req [.internal raw] := by
        simp [internalTask, InternalProveRequest.starkDeferralFinal, hfinal, htype, htail]
      rw [hroute] at hr
      rw [htail] at hstep
      obtain rfl : internalProof = finalProof := hstep
      obtain ⟨result, hmerge, rfl⟩ := map_ok_iff.mp (produced_postOutcome hr)
      rw [htail] at hmerge
      obtain ⟨merged, hmerged, hstate⟩ := starkDeferralMerge_ok hmerge
      rw [hproof] at hmerged
      refine ⟨result, rfl, ?_⟩
      rw [hstate, hraw]
      simpa [htype, hready] using finished_merged hcodec htail hbytes (mergeStark_ok hmerged)

/-- An internal proof that a task produced: the aggregate of the children, finished if it is final. -/
theorem internal_produced (hcodec : sdk.RoundTrips) {req : InternalProveRequest}
    (h : sdk.recursionTask faults net (.internalProve req) = .ok t) (hr : r ∈ t.produced) :
    ∃ childProofs internalProof result, req.childProofs.mapM sdk.decodeProof = .ok childProofs ∧
      sdk.aggregateInternal req.layerIdx childProofs = .ok internalProof ∧ r = .internal result ∧
      if req.isFinalProof then sdk.Finished req internalProof result.state
      else ∃ bytes, sdk.encodeProof internalProof = .ok bytes ∧ result.state =
        ⟨some bytes, req.layerIdx, req.segmentStart, req.segmentEnd, none, false⟩ := by
  obtain ⟨childProofs, hdecode, h⟩ := bind_ok_iff.mp h
  obtain rfl := Except.ok.inj h
  obtain ⟨results, hanswer, hr⟩ : ∃ results, sdk.submitInternalJob faults ⟨req.context, childProofs, req.layerIdx,
      req.segmentStart, req.segmentEnd, req.isFinalProof, req.deferralTail.isSome⟩ = .ok (.success results) ∧
      r ∈ (internalTask net (sdk.evmTools faults) req (.ok (.success results))).produced := by
    revert hr
    cases hanswer : sdk.submitInternalJob faults ⟨req.context, childProofs, req.layerIdx, req.segmentStart,
        req.segmentEnd, req.isFinalProof, req.deferralTail.isSome⟩ with
    | error e => exact fun hr => absurd hr List.not_mem_nil
    | ok answer =>
      cases answer with
      | error e => exact fun hr => absurd hr List.not_mem_nil
      | success results => exact fun hr => ⟨results, rfl, hr⟩
  obtain ⟨internalProof, finalProof, bytes, hinternal, hfinal, hbytes, rfl⟩ :=
    proveInternal_ok (submitInternalJob_success hanswer)
  cases hf : req.isFinalProof with
  | true =>
    have hstep : if req.deferralTail.isSome then internalProof = finalProof
        else sdk.wrapFinal req.layerIdx internalProof = .ok finalProof := by
      rw [finalProofOf, hf] at hfinal
      cases htail : req.deferralTail with
      | none =>
        rw [htail] at hfinal
        exact hfinal
      | some tail =>
        rw [htail] at hfinal
        exact Except.ok.inj hfinal
    obtain ⟨result, rfl, hfinished⟩ := finished_of_final hcodec hf hstep hbytes rfl hr
    exact ⟨childProofs, internalProof, result, mapError_ok_iff.mp hdecode, hinternal, rfl, hfinished⟩
  | false =>
    have hroute : (internalTask net (sdk.evmTools faults) req (.ok (.success [.internal ⟨req.context,
        ⟨some bytes, req.layerIdx, req.segmentStart, req.segmentEnd, none, false⟩⟩]))).produced =
          [.internal ⟨req.context, ⟨some bytes, req.layerIdx, req.segmentStart, req.segmentEnd, none, false⟩⟩] := by
      simp [internalTask, InternalProveRequest.starkDeferralFinal, InternalProveRequest.evmHandoff, hf]
    rw [hroute] at hr
    rw [finalProofOf, hf] at hfinal
    obtain rfl : internalProof = finalProof := Except.ok.inj hfinal
    exact ⟨childProofs, internalProof, _, mapError_ok_iff.mp hdecode, hinternal, List.mem_singleton.mp hr, bytes,
      hbytes, rfl⟩

def evmOf (sdk : RecursionSdk P U M R E) (job : RootProverJob P U M) : Except Raised E := do
  sdk.halo2Of (← sdk.rootOf job)

private theorem runEvmProve_ok {proofUuid : String} {context : ProofContext} {final : ProofWithPublicValue P U}
    {merkle : Option M} {proofHasDeferral : Bool} {out : EvmProof}
    (h : (sdk.evmTools faults).runEvmProve proofUuid context (.stark final) merkle proofHasDeferral = .ok out) :
    ∃ rootBytes root results,
      sdk.proveRootImplWithProver ⟨context, final, merkle, proofHasDeferral⟩ = .ok (some rootBytes) ∧
      sdk.decodeRootProof rootBytes = .ok root ∧ sdk.proveHalo2ImplWithProver ⟨context, root⟩ = .ok results ∧
      findEvm results = some out := by
  rw [EvmTools.runEvmProve] at h
  split at h
  · cases h
  · obtain ⟨rootState, hroot, h⟩ := bind_ok_iff.mp h
    obtain ⟨_, hstark, hroot⟩ := bind_ok_iff.mp (mapError_ok_iff.mp hroot)
    obtain rfl := Except.ok.inj hstark
    split at h
    · cases h
    · next rootBytes _ =>
      obtain ⟨decoded, hdecode, h⟩ := bind_ok_iff.mp h
      obtain ⟨root, hdecoded, rfl⟩ := map_ok_iff.mp (mapError_ok_iff.mp hdecode)
      split at h
      · next results hanswer =>
        split at h
        · next evmProof hevm =>
          obtain rfl := Except.ok.inj h
          exact ⟨rootBytes, root, results, submitRootJob_ok hroot, hdecoded, submitHalo2Job_success hanswer, hevm⟩
        · cases h
      · cases h
      · cases h

/-- An EVM proof that a task produced. -/
theorem evm_produced (hcodec : sdk.RoundTrips) {req : EvmProveRequest}
    (h : sdk.recursionTask faults net (.evmProve req) = .ok t) (hr : r ∈ t.produced) :
    ∃ final merkle evm bytes, sdk.decodeProof req.internalProofBytes = .ok final ∧
      req.deferralMerkleProofsBytes.mapM sdk.decodeMerkleProofs = .ok merkle ∧
      sdk.evmOf ⟨req.context, final, merkle, req.proofHasDeferral⟩ = .ok evm ∧ sdk.encodeEvmProof evm = .ok bytes ∧
      r = .evm ⟨req.context, ⟨some bytes⟩⟩ := by
  obtain rfl := Except.ok.inj h
  obtain ⟨evmProof, hevm, rfl⟩ := map_ok_iff.mp (produced_postOutcome hr)
  obtain ⟨decoded, hdecode, hevm⟩ := bind_ok_iff.mp hevm
  obtain ⟨merkle, hmerkle, hevm⟩ := bind_ok_iff.mp hevm
  obtain ⟨final, hfinal, rfl⟩ := map_ok_iff.mp (mapError_ok_iff.mp hdecode)
  obtain ⟨rootBytes, root, results, hroot, hdecodeRoot, hhalo2, hfind⟩ := runEvmProve_ok hevm
  obtain ⟨rootProof, hrootOf, hroot⟩ := bind_ok_iff.mp hroot
  obtain ⟨rootBytes', hencodeRoot, hroot⟩ := bind_ok_iff.mp hroot
  obtain rfl : rootBytes' = rootBytes := Option.some.inj (Except.ok.inj hroot)
  obtain rfl : rootProof = root :=
    Except.ok.inj ((hcodec.root _ _ (mapError_ok_iff.mp hencodeRoot)).symm.trans hdecodeRoot)
  obtain ⟨evm, hevmOf, hhalo2⟩ := bind_ok_iff.mp hhalo2
  obtain ⟨bytes, hbytes, hhalo2⟩ := bind_ok_iff.mp hhalo2
  obtain rfl := Except.ok.inj hhalo2
  refine ⟨final, merkle, evm, bytes, hfinal, mapError_ok_iff.mp hmerkle, bind_ok_iff.mpr ⟨rootProof, hrootOf, hevmOf⟩,
    mapError_ok_iff.mp hbytes, ?_⟩
  exact congrArg ProofResult.evm (Option.some.inj hfind).symm

end RecursionSdk

end

namespace RecursionSdk

/-- The circuit and the kind of its children, as the head of an aggregate. -/
def sampleTag : VerifierCircuitType → ChildVkKind → UInt8
  | .leaf, _ => 1
  | .internalForLeaf, _ => 2
  | .internalRecursive, .recursiveSelf => 4
  | .internalRecursive, _ => 3

/-- An aggregate is the tag of its circuit before its children. -/
def sample : RecursionSdk Bytes UInt8 Unit Bytes Bytes where
  maxNumChildrenLeaf := 4
  maxNumChildrenInternal := 3
  aggProveNoDef circuit proofs kind := .ok (sampleTag circuit kind :: proofs.flatten)
  aggProve circuit proofs kind _ := .ok (sampleTag circuit kind :: proofs.flatten)
  encodeProof
    | ⟨proof, none⟩ => .ok (0 :: proof)
    | ⟨proof, some values⟩ => .ok (1 :: values :: proof)
  decodeProof
    | 0 :: proof => .ok ⟨proof, none⟩
    | 1 :: values :: proof => .ok ⟨proof, some values⟩
    | _ => .error "failed to bincode-decode wire payload"
  encodeMerkleProofs _ := .ok []
  decodeMerkleProofs _ := .ok ()
  runDeferralTailMerge _ finalInternalProof tail :=
    .ok (⟨finalInternalProof.proof ++ tail.finalMerklePathBytes, finalInternalProof.userPublicValues⟩, ())
  rootProve proof _ _ := .ok (5 :: proof.inner)
  encodeRootProof root := .ok root
  decodeRootProof bytes := .ok bytes
  proveForEvm root := .ok (6 :: root)
  encodeEvmProof evm := .ok evm

theorem roundTrips_sample : sample.RoundTrips where
  proof p bytes h := by
    obtain ⟨proof, userPublicValues⟩ := p
    cases userPublicValues <;> cases h <;> rfl
  merkle _ _ _ := rfl
  root _ _ h := congrArg _ (Except.ok.inj h).symm

end RecursionSdk
end EdgeProver
