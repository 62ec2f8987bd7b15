import EdgeProver.Protocol

/-! What a worker's task for an accepted request posts to the manager, for whatever its provers answer
and whatever becomes of its posts. -/
namespace EdgeProver

inductive ProverResult where
  | success (results : List ProofResult)
  | error (message : String)
  deriving DecidableEq

/-- What submitting a job to the prover pool comes to. -/
abbrev ProverAnswer := Except String ProverResult

/-- A post to `/proof_result` with its answer. -/
inductive Posted where
  | result (result : ProofResult) (answer : Except String Unit)
  | error (result : ProofResult) (answer : Except String Unit)

/-- The answer to each post of a task, by its number. -/
abbrev Network := Nat → Except String Unit

def submitSingleResult (net : Network) (result : ProofResult) (log : List Posted) : Except String Unit × List Posted :=
  let answer := net log.length
  (answer, log ++ [.result result answer])

/-- The first post that fails ends it. -/
def submitResult (net : Network) : List ProofResult → List Posted → Except String Unit × List Posted
  | [], log => (.ok (), log)
  | result :: results, log =>
    match submitSingleResult net result log with
    | (.ok _, log) => submitResult net results log
    | (.error e, log) => (.error e, log)

def errorResult (proofUuid message : String) : ProofResult :=
  .error ⟨⟨proofUuid, ⟨"", 0⟩, [], .stark⟩, "unknown", message⟩

def submitError (net : Network) (proofUuid message : String) (log : List Posted) :
    Except String Unit × List Posted :=
  let answer := net log.length
  (answer, log ++ [.error (errorResult proofUuid message) answer])

structure TaskEnd where
  produced : List ProofResult
  log : List Posted

/-- The sender task of `handle_sharded_app_prove`, which only logs a post that fails. -/
def streamResults (net : Network) : List ProofResult → List Posted → List Posted
  | [], log => log
  | result :: results, log => streamResults net results (submitSingleResult net result log).2

/-- What the provers do with the app job: the results they stream, their answer, and how many of the
results are posted when it comes. -/
structure ProveAppRun where
  streamed : List ProofResult
  answer : ProverAnswer
  before : Nat

def shardedAppTask (net : Network) (proofUuid : String) (run : ProveAppRun) : TaskEnd :=
  let log := streamResults net (run.streamed.take run.before) []
  let log :=
    match run.answer with
    | .ok (.success _) => log
    | .ok (.error e) => (submitError net proofUuid e log).2
    | .error e => (submitError net proofUuid e log).2
  ⟨run.streamed, streamResults net (run.streamed.drop run.before) log⟩

/-- The results are submitted, a failure of the prover or of the pool is reported. -/
def leafTask (net : Network) (proofUuid : String) (answer : ProverAnswer) : TaskEnd :=
  match answer with
  | .ok (.success results) => ⟨results, (submitResult net results []).2⟩
  | .ok (.error e) => ⟨[], (submitError net proofUuid e []).2⟩
  | .error e => ⟨[], (submitError net proofUuid e []).2⟩

/-- The codecs, the tail merge and the EVM provers of a worker; `P` are decoded proofs and `M` merkle proofs. -/
structure EvmTools (P M : Type) where
  decodeProof : ProofBytes → Except String P
  encodeProof : P → Except String ProofBytes
  decodeMerkleProofs : Bytes → Except String M
  encodeMerkleProofs : M → Except String Bytes
  runDeferralTailMerge : ProofContext → P → DeferralTailDispatch → Except String (P × M)
  /-- The blocking thread of a merge panicked. -/
  mergePanic : Option String
  evmReady : Bool
  /-- The root prover, whose state may lack the proof. -/
  rootProve : ProofContext → P → Option M → Bool → Except String (Option ProofBytes)
  /-- `decode_root_proof` and the halo2 prover. -/
  decodeRootProof : ProofBytes → Except String P
  halo2Prove : ProofContext → P → ProverAnswer

section
variable {P M : Type}

def findInternal : List ProofResult → Option InternalProof
  | [] => none
  | .internal internalProof :: _ => some internalProof
  | _ :: results => findInternal results

def findEvm : List ProofResult → Option EvmProof
  | [] => none
  | .evm evmProof :: _ => some evmProof
  | _ :: results => findEvm results

namespace EvmTools
variable (tools : EvmTools P M) (proofUuid : String) (context : ProofContext)

/-- What `drive_evm_prep_and_post` runs on its blocking thread. -/
def prepare (internalBytes : Option ProofBytes) (deferralTail : Option DeferralTailDispatch)
    (depth0MerkleBytes : Option Bytes) : Except String (ProofBytes × Option Bytes) :=
  match internalBytes with
  | none => .error s!"evm prep: final internal proof for {proofUuid} has no proof bytes"
  | some internalBytes =>
    match deferralTail with
    | none => .ok (internalBytes, depth0MerkleBytes)
    | some tail => do
      let finalInternalProof ← (tools.decodeProof internalBytes).mapError
        fun e => s!"evm prep: failed to decode final internal proof for {proofUuid}: {e}"
      let merged ← (tools.runDeferralTailMerge context finalInternalProof tail).mapError
        fun e => s!"evm prep: deferral tail merge failed for {proofUuid}: {e}"
      let mergedBytes ← (tools.encodeProof merged.1).mapError
        fun e => s!"evm prep: failed to encode merged proof for {proofUuid}: {e}"
      let merkleBytes ← (tools.encodeMerkleProofs merged.2).mapError
        fun e => s!"evm prep: failed to encode merkle proofs for {proofUuid}: {e}"
      return (mergedBytes, some merkleBytes)

/-- The ready-for-evm message of `drive_evm_prep_and_post`, or the error it reports. -/
def evmPrep (results : List ProofResult) (deferralTail : Option DeferralTailDispatch)
    (depth0MerkleBytes : Option Bytes) : Except String InternalProof :=
  match findInternal results with
  | none => .error s!"evm prep: expected an Internal result for {proofUuid}, found none"
  | some finalInternal =>
    match tools.mergePanic with
    | some e => .error s!"evm prep: tail-merge task failed for {proofUuid}: {e}"
    | none =>
      match tools.prepare proofUuid context finalInternal.state.proof deferralTail depth0MerkleBytes with
      | .error message => .error message
      | .ok (finishedProofBytes, merkleBytes) =>
        .ok { finalInternal with
          state := { finalInternal.state with
            proof := some finishedProofBytes
            deferralMerkleProofsBytes := merkleBytes
            readyForEvm := true } }

/-- What `drive_stark_deferral_merge_and_post` runs on its blocking thread. -/
def mergeStark (internalBytes : Option ProofBytes) (tail : DeferralTailDispatch) :
    Except String (ProofBytes × Bytes) :=
  match internalBytes with
  | none => .error s!"stark deferral merge: final internal proof for {proofUuid} has no proof bytes"
  | some internalBytes => do
    let finalInternalProof ← (tools.decodeProof internalBytes).mapError
      fun e => s!"stark deferral merge: failed to decode final internal proof for {proofUuid}: {e}"
    let merged ← tools.runDeferralTailMerge context finalInternalProof tail
    let mergedBytes ← (tools.encodeProof merged.1).mapError
      fun e => s!"stark deferral merge: failed to encode merged proof for {proofUuid}: {e}"
    let merkleBytes ← (tools.encodeMerkleProofs merged.2).mapError
      fun e => s!"stark deferral merge: failed to encode merkle proofs for {proofUuid}: {e}"
    return (mergedBytes, merkleBytes)

/-- The merged proof of `drive_stark_deferral_merge_and_post`, or the error it reports. -/
def starkDeferralMerge (results : List ProofResult) (deferralTail : Option DeferralTailDispatch) :
    Except String InternalProof :=
  match findInternal results with
  | none => .error s!"stark deferral merge: expected an Internal result for {proofUuid}, found none"
  | some finalInternal =>
    match deferralTail with
    | none => .error s!"stark deferral merge: missing deferral tail dispatch for {proofUuid}"
    | some tail =>
      let merged : Except String (ProofBytes × Bytes) :=
        match tools.mergePanic with
        | some e => .error s!"stark deferral merge: tail-merge task failed for {proofUuid}: {e}"
        | none => tools.mergeStark proofUuid context finalInternal.state.proof tail
      match merged with
      | .error e => .error s!"stark deferral merge failed for {proofUuid}: {e}"
      | .ok (mergedProofBytes, merkleBytes) =>
        .ok { finalInternal with
          state := { finalInternal.state with
            proof := some mergedProofBytes
            deferralMerkleProofsBytes := some merkleBytes } }

/-- Root, then halo2. -/
def runEvmProve (finalInternalProof : P) (merkleProofs : Option M) (proofHasDeferral : Bool) :
    Except String EvmProof := do
  if !tools.evmReady then
    throw ("EVM prove requested but worker has no EVM artifacts (evm-prove build without halo2_pk_path); " ++
      s!"aborting proof {proofUuid}")
  let rootState ← (tools.rootProve context finalInternalProof merkleProofs proofHasDeferral).mapError
    fun e => s!"Root prove failed for {proofUuid}: {e}"
  match rootState with
  | none => throw s!"EVM prove: root result for {proofUuid} has no proof bytes"
  | some rootProofBytes =>
    let rootProof ← (tools.decodeRootProof rootProofBytes).mapError
      fun e => s!"EVM prove: failed to decode root proof for {proofUuid}: {e}"
    match tools.halo2Prove context rootProof with
    | .ok (.success results) =>
      match findEvm results with
      | some evmProof => return evmProof
      | none => throw s!"EVM prove: halo2 stage for {proofUuid} produced no Evm proof"
    | .ok (.error e) => throw s!"Halo2 prove failed for {proofUuid}: {e}"
    | .error e => throw s!"Failed to submit halo2 job for {proofUuid}: {e}"

/-- What `drive_evm_prove_from_request` submits, or the error it reports. -/
def evmProveFromRequest (req : EvmProveRequest) : Except String EvmProof := do
  let finalInternalProof ← (tools.decodeProof req.internalProofBytes).mapError
    fun e => s!"EvmProve: failed to decode handed-off internal proof for {proofUuid}: {e}"
  let merkleProofs ← (req.deferralMerkleProofsBytes.mapM tools.decodeMerkleProofs).mapError
    fun e => s!"EvmProve: failed to decode deferral merkle proofs for {proofUuid}: {e}"
  tools.runEvmProve proofUuid req.context finalInternalProof merkleProofs req.proofHasDeferral

end EvmTools

/-- Submit the one result that was worked out, or report why there is none. -/
def postOutcome (net : Network) (proofUuid : String) (outcome : Except String ProofResult) : TaskEnd :=
  match outcome with
  | .ok result => ⟨[result], (submitResult net [result] []).2⟩
  | .error message => ⟨[], (submitError net proofUuid message []).2⟩

def driveEvmPrepAndPost (net : Network) (tools : EvmTools P M) (req : InternalProveRequest)
    (results : List ProofResult) : TaskEnd :=
  postOutcome net req.context.proofUuid
    (.internal <$> tools.evmPrep req.context.proofUuid req.context results req.deferralTail
      req.deferralMerkleProofsBytes)

def driveStarkDeferralMergeAndPost (net : Network) (tools : EvmTools P M) (req : InternalProveRequest)
    (results : List ProofResult) : TaskEnd :=
  postOutcome net req.context.proofUuid
    (.internal <$> tools.starkDeferralMerge req.context.proofUuid req.context results req.deferralTail)

def driveEvmProveFromRequest (net : Network) (tools : EvmTools P M) (req : EvmProveRequest) : TaskEnd :=
  postOutcome net req.context.proofUuid (.evm <$> tools.evmProveFromRequest req.context.proofUuid req)

def InternalProveRequest.starkDeferralFinal (req : InternalProveRequest) : Bool :=
  req.isFinalProof && req.context.proofType == .stark && req.deferralTail.isSome

def InternalProveRequest.evmHandoff (req : InternalProveRequest) : Bool :=
  req.isFinalProof && req.context.proofType == .evm

def internalTask (net : Network) (tools : EvmTools P M) (req : InternalProveRequest)
    (answer : ProverAnswer) : TaskEnd :=
  match answer with
  | .ok (.success results) =>
    if req.starkDeferralFinal then driveStarkDeferralMergeAndPost net tools req results
    else if req.evmHandoff then driveEvmPrepAndPost net tools req results
    else ⟨results, (submitResult net results []).2⟩
  | .ok (.error e) => ⟨[], (submitError net req.context.proofUuid e []).2⟩
  | .error e => ⟨[], (submitError net req.context.proofUuid e []).2⟩

inductive WorkerRequest where
  | shardedAppProve (proofUuid : String)
  | recursionProve (request : GeneralProveRequest)

/-- What the provers of a worker do for a request. -/
structure ProverRun (P M : Type) where
  app : ProveAppRun
  /-- Of the leaf or the internal prover. -/
  answer : ProverAnswer
  tools : EvmTools P M

def workerTask (net : Network) (run : ProverRun P M) : WorkerRequest → TaskEnd
  | .shardedAppProve proofUuid => shardedAppTask net proofUuid run.app
  | .recursionProve (.leafProve req) => leafTask net req.context.proofUuid run.answer
  | .recursionProve (.internalProve req) => internalTask net run.tools req run.answer
  | .recursionProve (.evmProve req) => driveEvmProveFromRequest net run.tools req

def WorkerRequest.proofUuid : WorkerRequest → String
  | .shardedAppProve proofUuid => proofUuid
  | .recursionProve (.leafProve req) => req.context.proofUuid
  | .recursionProve (.internalProve req) => req.context.proofUuid
  | .recursionProve (.evmProve req) => req.context.proofUuid

def failureOf {α : Type} : Except String α → Option String
  | .ok _ => none
  | .error e => some e

def answerFailure : ProverAnswer → Option String
  | .ok (.success _) => none
  | .ok (.error e) => some e
  | .error e => some e

/-- Why the provers, or what the task does with their results, failed. -/
def ProverRun.failure (run : ProverRun P M) : WorkerRequest → Option String
  | .shardedAppProve _ => answerFailure run.app.answer
  | .recursionProve (.leafProve _) => answerFailure run.answer
  | .recursionProve (.internalProve req) =>
    match run.answer with
    | .ok (.success results) =>
      if req.starkDeferralFinal then
        failureOf (run.tools.starkDeferralMerge req.context.proofUuid req.context results req.deferralTail)
      else if req.evmHandoff then
        failureOf (run.tools.evmPrep req.context.proofUuid req.context results req.deferralTail
          req.deferralMerkleProofsBytes)
      else none
    | answer => answerFailure answer
  | .recursionProve (.evmProve req) => failureOf (run.tools.evmProveFromRequest req.context.proofUuid req)

namespace Posted

def ackedResult : Posted → Option ProofResult
  | .result posted (.ok _) => some posted
  | _ => none

def postedResult : Posted → Option ProofResult
  | .result posted _ => some posted
  | .error _ _ => none

def reportedError : Posted → Option ProofResult
  | .result _ _ => none
  | .error posted _ => some posted

def dropped : Posted → Bool
  | .result _ (.error _) => true
  | _ => false

end Posted

namespace TaskEnd

def acked (out : TaskEnd) : List ProofResult := out.log.filterMap Posted.ackedResult

def errors (out : TaskEnd) : List ProofResult := out.log.filterMap Posted.reportedError

def dropped (out : TaskEnd) : Bool := out.log.any Posted.dropped

end TaskEnd

private theorem acked_add_dropped (log : List Posted) :
    (log.filterMap Posted.ackedResult).length + log.countP Posted.dropped = (log.filterMap Posted.postedResult).length ∧
      (log.any Posted.dropped = false → log.filterMap Posted.ackedResult = log.filterMap Posted.postedResult) := by
  induction log with
  | nil => exact ⟨rfl, fun _ => rfl⟩
  | cons post log ih =>
    obtain ⟨hlength, hsame⟩ := ih
    cases post with
    | error result answer =>
      simp only [List.filterMap_cons, Posted.ackedResult, Posted.postedResult, List.countP_cons, Posted.dropped,
        Bool.false_eq_true, if_false, Nat.add_zero, List.any_cons, Bool.false_or]
      exact ⟨hlength, hsame⟩
    | result result answer =>
      cases answer with
      | error e =>
        refine ⟨?_, by simp [Posted.dropped]⟩
        simp only [List.filterMap_cons, Posted.ackedResult, Posted.postedResult, List.countP_cons, Posted.dropped,
          if_true, List.length_cons]
        omega
      | ok answer =>
        refine ⟨?_, fun hkept => ?_⟩
        · simp only [List.filterMap_cons, Posted.ackedResult, Posted.postedResult, List.countP_cons, Posted.dropped,
            Bool.false_eq_true, if_false, List.length_cons]
          omega
        · simp only [List.filterMap_cons, Posted.ackedResult, Posted.postedResult]
          rw [hsame (by simpa [Posted.dropped] using hkept)]

/-- Where a failed post is all that keeps results back, the manager has them all exactly when none failed. -/
private theorem acked_iff {out : TaskEnd} (hposted : out.log.filterMap Posted.postedResult <+: out.produced)
    (hall : out.dropped = false → out.log.filterMap Posted.postedResult = out.produced) :
    out.acked = out.produced ↔ out.dropped = false := by
  obtain ⟨hlength, hsame⟩ := acked_add_dropped out.log
  constructor
  · intro hacked
    by_contra hdropped
    have hpos : 0 < out.log.countP Posted.dropped := by
      rw [List.countP_pos_iff]
      simpa [TaskEnd.dropped] using hdropped
    have hle := hposted.length_le
    rw [TaskEnd.acked] at hacked
    rw [hacked] at hlength
    omega
  · intro hkept
    exact (hsame hkept).trans (hall hkept)

private theorem streamResults_log (net : Network) (results : List ProofResult) (log : List Posted) :
    ∃ posts, streamResults net results log = log ++ posts ∧ posts.filterMap Posted.postedResult = results ∧
      posts.filterMap Posted.reportedError = [] := by
  induction results generalizing log with
  | nil => exact ⟨[], (List.append_nil log).symm, rfl, rfl⟩
  | cons result results ih =>
    obtain ⟨posts, hlog, hposted, herrors⟩ := ih (submitSingleResult net result log).2
    refine ⟨.result result (net log.length) :: posts, ?_, ?_, ?_⟩
    · rw [streamResults, hlog, submitSingleResult, List.append_assoc, List.singleton_append]
    · exact congrArg (result :: ·) hposted
    · rw [List.filterMap_cons_none rfl, herrors]

private theorem submitResult_log (net : Network) (results : List ProofResult) (log : List Posted) :
    ∃ posts, (submitResult net results log).2 = log ++ posts ∧ posts.filterMap Posted.postedResult <+: results ∧
      (posts.any Posted.dropped = false → posts.filterMap Posted.postedResult = results) ∧
      posts.filterMap Posted.reportedError = [] := by
  induction results generalizing log with
  | nil => exact ⟨[], (List.append_nil log).symm, List.prefix_refl _, fun _ => rfl, rfl⟩
  | cons result results ih =>
    cases hanswer : net log.length with
    | error e =>
      refine ⟨[.result result (.error e)], ?_, ?_, by simp [Posted.dropped], rfl⟩
      · simp only [submitResult, submitSingleResult, hanswer]
      · exact List.prefix_append [result] results
    | ok answer =>
      obtain ⟨posts, hlog, hposted, hall, herrors⟩ := ih (log ++ [.result result (.ok answer)])
      refine ⟨.result result (.ok answer) :: posts, ?_, ?_, fun hkept => ?_, ?_⟩
      · simp only [submitResult, submitSingleResult, hanswer, hlog, List.append_assoc, List.singleton_append]
      · exact (List.prefix_cons_inj result).mpr hposted
      · exact congrArg (result :: ·) (hall (by simpa [Posted.dropped] using hkept))
      · rw [List.filterMap_cons_none rfl, herrors]

/-- What a task may come to: its results are posted until one post fails, and its failure is reported. -/
private structure Accounts (proofUuid : String) (failure : Option String) (out : TaskEnd) : Prop where
  acked : out.acked = out.produced ↔ out.dropped = false
  errors : out.errors = failure.toList.map (errorResult proofUuid)

private theorem accounts_submitted (net : Network) (proofUuid : String) (results : List ProofResult) :
    Accounts proofUuid none ⟨results, (submitResult net results []).2⟩ := by
  obtain ⟨posts, hlog, hposted, hall, herrors⟩ := submitResult_log net results []
  rw [List.nil_append] at hlog
  rw [hlog]
  exact ⟨acked_iff hposted hall, herrors⟩

private theorem accounts_failed (net : Network) (proofUuid message : String) :
    Accounts proofUuid (some message) ⟨[], (submitError net proofUuid message []).2⟩ :=
  ⟨iff_of_true rfl rfl, rfl⟩

private theorem accounts_postOutcome (net : Network) (proofUuid : String) (outcome : Except String ProofResult) :
    Accounts proofUuid (failureOf outcome) (postOutcome net proofUuid outcome) := by
  cases outcome with
  | ok result => exact accounts_submitted net proofUuid [result]
  | error message => exact accounts_failed net proofUuid message

private theorem failureOf_map {α β : Type} (f : α → β) (outcome : Except String α) :
    failureOf (f <$> outcome) = failureOf outcome := by
  cases outcome <;> rfl

private theorem accounts_shardedApp (net : Network) (proofUuid : String) (run : ProveAppRun) :
    Accounts proofUuid (answerFailure run.answer) (shardedAppTask net proofUuid run) := by
  obtain ⟨first, hfirst, hposted, herrors⟩ := streamResults_log net (run.streamed.take run.before) []
  rw [List.nil_append] at hfirst
  -- Between the two stretches of the stream stands the report of the failure, if there is one.
  have hreport : ∃ report : List Posted, report.filterMap Posted.postedResult = [] ∧
      report.filterMap Posted.reportedError = (answerFailure run.answer).toList.map (errorResult proofUuid) ∧
      (shardedAppTask net proofUuid run).log =
        streamResults net (run.streamed.drop run.before) (first ++ report) := by
    simp only [shardedAppTask, hfirst]
    cases run.answer with
    | error e => exact ⟨[_], rfl, rfl, rfl⟩
    | ok result =>
      cases result with
      | success results => exact ⟨[], rfl, rfl, by rw [List.append_nil]⟩
      | error e => exact ⟨[_], rfl, rfl, rfl⟩
  obtain ⟨report, hnone, hreported, hlog⟩ := hreport
  obtain ⟨second, hsecond, hposted', herrors'⟩ :=
    streamResults_log net (run.streamed.drop run.before) (first ++ report)
  have hall : (shardedAppTask net proofUuid run).log.filterMap Posted.postedResult = run.streamed := by
    rw [hlog, hsecond, List.filterMap_append, List.filterMap_append, hposted, hnone, hposted', List.append_nil,
      List.take_append_drop]
  refine ⟨acked_iff ?_ fun _ => hall, ?_⟩
  · rw [hall]
    exact List.prefix_refl _
  · rw [TaskEnd.errors, hlog, hsecond, List.filterMap_append, List.filterMap_append, herrors, hreported, herrors',
      List.nil_append, List.append_nil]

/-- When the task of an accepted request ends, the manager acknowledged every result it produced unless
the post of one failed, and an Error was reported, or its report attempted, exactly for a failure of the
provers or of what the task does with their results. -/
theorem workerTask_reports (net : Network) (run : ProverRun P M) (request : WorkerRequest) :
    ((workerTask net run request).acked = (workerTask net run request).produced ↔
        (workerTask net run request).dropped = false) ∧
      (workerTask net run request).errors = (run.failure request).toList.map (errorResult request.proofUuid) := by
  suffices Accounts request.proofUuid (run.failure request) (workerTask net run request) from ⟨this.acked, this.errors⟩
  cases request with
  | shardedAppProve proofUuid => exact accounts_shardedApp net proofUuid run.app
  | recursionProve request =>
    cases request with
    | leafProve req =>
      simp only [workerTask, leafTask, ProverRun.failure]
      cases run.answer with
      | error e => exact accounts_failed net _ e
      | ok result =>
        cases result with
        | success results => exact accounts_submitted net _ results
        | error e => exact accounts_failed net _ e
    | internalProve req =>
      simp only [workerTask, internalTask, ProverRun.failure]
      cases run.answer with
      | error e => exact accounts_failed net _ e
      | ok result =>
        cases result with
        | error e => exact accounts_failed net _ e
        | success results =>
          simp only
          split
          · rw [← failureOf_map ProofResult.internal]
            exact accounts_postOutcome net _ _
          · split
            · rw [← failureOf_map ProofResult.internal]
              exact accounts_postOutcome net _ _
            · exact accounts_submitted net _ results
    | evmProve req =>
      simp only [workerTask, ProverRun.failure]
      rw [← failureOf_map ProofResult.evm]
      exact accounts_postOutcome net _ _

end

def sampleTools : EvmTools Unit Unit where
  decodeProof _ := .ok ()
  encodeProof _ := .ok []
  decodeMerkleProofs _ := .ok ()
  encodeMerkleProofs _ := .ok []
  runDeferralTailMerge _ _ _ := .error "no deferral artifacts"
  mergePanic := none
  evmReady := false
  rootProve _ _ _ _ := .ok none
  decodeRootProof _ := .ok ()
  halo2Prove _ _ := .ok (.success [])

/-- Three results are streamed, and the app prove succeeds. -/
def sampleProverRun : ProverRun Unit Unit where
  app := {
    streamed := [.executeE2 ⟨⟨"proof", ⟨"program", 1⟩, [], .stark⟩, ⟨2, [], 10⟩⟩,
      .app ⟨⟨"proof", ⟨"program", 1⟩, [], .stark⟩, ⟨some [], 0, none, none⟩⟩,
      .app ⟨⟨"proof", ⟨"program", 1⟩, [], .stark⟩, ⟨some [], 1, none, none⟩⟩]
    answer := .ok (.success [])
    before := 3 }
  answer := .ok (.success [])
  tools := sampleTools

def sampleNetwork : Network := fun number => if number = 1 then .error "connection reset" else .ok ()

/-- The first segment is lost, and no Error is reported. -/
theorem lost_silently :
    ¬ ((workerTask sampleNetwork sampleProverRun (.shardedAppProve "proof")).acked =
        (workerTask sampleNetwork sampleProverRun (.shardedAppProve "proof")).produced ∨
      (workerTask sampleNetwork sampleProverRun (.shardedAppProve "proof")).errors ≠ []) := by
  decide

end EdgeProver
