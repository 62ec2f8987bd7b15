import EdgeProver.Lib.TaskPool
import EdgeProver.Manager.State
import EdgeProver.Tree.Run

/-! The manager's handlers and background tasks on one proof, cut into the steps that each hold a lock
or await a request. -/
namespace EdgeProver

def ProofResult.context : ProofResult → ProofContext
  | .executeE2 r => r.context
  | .app r => r.context
  | .leaf r => r.context
  | .internal r => r.context
  | .evm r => r.context
  | .error r => r.context

/-- What `start_proof` still needs once the proof is admitted. -/
structure StartRequest where
  inputAlreadyUploaded : Bool
  /-- The app-eligible workers, in the order they are contacted. -/
  appWorkers : List Nat
  deriving DecidableEq

inductive Op where
  /- `proof_result`. -/
  | process (workerId : Nat) (envelope : MessageEnvelope ProofResult)
  | setNumSegments (numSegments : Nat)
  | workerCompleted (workerId : Nat) (result : ProofResult)
  | workerDrained (workerId : Nat) (result : ProofResult)
  | finalizeUnlessFailing
  | evict
  | enqueue (request : GeneralProveRequest)
  /- `try_finalize_failing_proof` and `finalize_proof`. -/
  | checkFailing
  | checkDrained (ttlExpired : Bool)
  | transition
  | removeStaged
  | persist
  | removeProof
  /- `send_work_with_retry`. -/
  | send (work : AssignedWork) (retries : Nat)
  | releaseWorker (workerId : Nat)
  | dispatchFailed (reason : String)
  /- `cancel_proof` and the watchdog. -/
  | cancel
  | timeoutCheck (now : Time)
  /- `start_proof` after the admission. -/
  | takeStaged (req : StartRequest)
  | upload (req : StartRequest) (staged : StagedInputs)
  | fanout (req : StartRequest) (staged : StagedInputs)
  | recordDeferral (count : Nat)
  | restage (inputs : List (Nat × Bytes))
  | kickoff (appWorkers remaining : List Nat) (failures : List (Nat × String))
  | abort (message : String)
  | markFailing (message : String)

/-- What the environment decides for a step: clock, outcome of the requests it sends and of the
persistence, whether a `try_lock` succeeds, the metadata of a new envelope. -/
structure Choice where
  now : Time
  pushed : Bool
  sent : Bool
  persisted : Except String Unit
  unlocked : Bool
  timestamp : Nat
  messageId : String
  error : String
  /-- Which of the kickoffs under way is next. -/
  kickoff : Nat

/-- What a step hands to workers: recursion work placed by the scheduler, and app-prove kickoffs. -/
structure Handed where
  works : List AssignedWork
  kickoffs : List Nat

abbrev OpOutcome := TaskPool.Outcome Manager Op Handed

def finalizeProof : List Op := [.removeStaged, .persist, .removeProof]

def maxRetries : Nat := 3

def AssignedWork.isDeferralTail (work : AssignedWork) : Bool :=
  match work.envelope.message with
  | .internalProve req => req.deferralTail.isSome
  | _ => false

def goOn (m : Manager) (next : List Op) : OpOutcome := ⟨m, next, [], ⟨[], []⟩⟩

/-- A step that hands out `works`, each sent by a task of its own. -/
def handOut (m : Manager) (works : List AssignedWork) : OpOutcome :=
  ⟨m, [], works.map fun work => [.send work 0], ⟨works, []⟩⟩

/-- What `proof_result` does after it handled the result under the proof's lock. -/
def afterProcess (workerId : Nat) (result : ProofResult) :
    Except String ProofState.ProofResultEnvelopeOutcome → List Op
  | .error _ => []
  | .ok (.late _ status) =>
    (if status.isFailing then [.workerDrained workerId result, .checkFailing] else []) ++ [.evict]
  | .ok (.processed requests sealedForResults) =>
    (match result with
      | .executeE2 e2 => [.setNumSegments e2.state.numSegments]
      | _ => []) ++
    (if sealedForResults then [.finalizeUnlessFailing] else [.workerCompleted workerId result]) ++
    [.checkFailing, .evict] ++ requests.map .enqueue

/-- One state and one input per circuit, at contiguous indices. -/
def StagedInputs.deferralComplete (staged : StagedInputs) : Bool :=
  let count := staged.deferralStates.length
  (List.range count).all (fun i =>
      (staged.deferralStates.lookup i).isSome && (staged.deferralInputs.lookup i).isSome) &&
    staged.deferralInputs.length == count

def abortProof (message : String) : List Op := [.abort message, .removeProof, .removeStaged]

/-- The kickoffs, once every worker has its input. -/
def startKickoff (req : StartRequest) : Op := .kickoff req.appWorkers req.appWorkers []

def afterUpload (req : StartRequest) (staged : StagedInputs) : List Op :=
  if staged.deferralStates.length > 0 then [.fanout req staged] else [startKickoff req]

/-- The checks of `start_proof` on what was staged. -/
def checkStaged (proofUuid : String) (req : StartRequest) (staged : StagedInputs) : List Op :=
  if !staged.deferralComplete then
    abortProof (s!"incomplete deferral upload for proof {proofUuid}: need one DeferralState and " ++
      "one DeferralInput per circuit at contiguous indices 0..N (got state idx " ++
      s!"{staged.deferralStates.map Prod.fst}, input idx {staged.deferralInputs.map Prod.fst})")
  else if req.inputAlreadyUploaded && decide (staged.deferralStates.length > 0) then
    abortProof ("input_already_uploaded=true is incompatible with deferral: stage the deferral " ++
      "artifacts (and the input) on the manager instead")
  else if req.inputAlreadyUploaded then afterUpload req staged
  else if staged.main.isSome then [.upload req staged]
  else
    abortProof (s!"no input staged for proof {proofUuid}: POST the bincode StdIn to " ++
      s!"/upload_input/{proofUuid} before /start_proof (or set " ++
      "input_already_uploaded=true to pre-upload directly to workers)")

/-- What `start_proof` does once every kickoff was answered. -/
def afterKickoff (appWorkers : List Nat) (failures : List (Nat × String)) : List Op :=
  if failures.isEmpty then []
  else
    let messages := appWorkers.filterMap fun id => failures.lookup id
    [.markFailing (s!"{failures.length} of {appWorkers.length} workers failed to accept work: " ++
        "; ".intercalate messages)] ++
      (appWorkers.filter fun id => (failures.lookup id).isSome).map .releaseWorker ++ [.checkFailing]

/-- One attempt of `send_work_with_retry`: the retained deferral inputs are pushed first, and the work is
sent only if that went well. -/
def Manager.delivers (m : Manager) (c : Choice) (work : AssignedWork) : Bool :=
  (!work.isDeferralTail || m.staged.isNone || c.pushed) && c.sent

def Choice.nextKickoff (c : Choice) (remaining : List Nat) : Option Nat := remaining[c.kickoff % remaining.length]?

def Op.exec (proofUuid : String) (c : Choice) (m : Manager) : Op → OpOutcome
  | .process workerId envelope =>
    if envelope.message.context.proofUuid ≠ proofUuid then goOn m []
    else
      match m.proof with
      | none => goOn m []
      | some ps =>
        let handled := ps.handleProofResultWithEnvelopeOutcome c.now envelope
        goOn { m with proof := some handled.1 } (afterProcess workerId envelope.message handled.2)
  | .setNumSegments numSegments =>
    let called := m.setNumSegments proofUuid numSegments
    handOut called.2 called.1
  | .workerCompleted workerId result =>
    let called := m.workerCompleted proofUuid workerId result
    match called.1 with
    | .ok work => handOut called.2 work.toList
    | .error _ => goOn called.2 []
  | .workerDrained workerId result => goOn (m.workerDrained proofUuid workerId result).2 []
  | .finalizeUnlessFailing => goOn m (if m.isFailing then [] else finalizeProof)
  | .evict =>
    match m.proof with
    | none => goOn m []
    | some ps => if c.unlocked && ps.shouldEvict c.now then goOn { m with proof := none } [] else goOn m []
  | .enqueue request =>
    let called := m.enqueueOrAssign proofUuid ⟨c.timestamp, c.messageId, request⟩ request.step
    handOut called.2 called.1.toList
  | .checkFailing =>
    match m.proof with
    | none => goOn m []
    | some ps => goOn m (if ps.status.isFailing then [.checkDrained (ps.ttlExpired c.now)] else [])
  | .checkDrained ttlExpired =>
    goOn m (if !m.isFullyDrained && !ttlExpired then [] else .transition :: finalizeProof)
  | .transition => goOn (m.updateProof (·.transitionFailingToFailed)) []
  | .removeStaged => goOn { m with staged := none } []
  | .persist => goOn (m.updateProof (·.finalize c.now c.persisted)) []
  | .removeProof => goOn { m with scheduler := none } []
  | .send work retries =>
    if m.delivers c work then goOn m (if work.isDeferralTail then [.removeStaged] else [])
    else if retries + 1 ≥ maxRetries then
      goOn m [.releaseWorker work.workerId,
        .dispatchFailed (s!"Failed to dispatch {work.step.asStr} to worker {work.workerId} after " ++
          s!"{maxRetries} retries"), .checkFailing]
    else goOn m [.send work (retries + 1)]
  | .releaseWorker workerId => goOn (m.releaseWorker workerId) []
  | .dispatchFailed reason => goOn (m.updateProof (·.dispatchFailed reason)) []
  | .cancel => goOn (m.updateProof (·.cancel)) [.removeProof, .removeStaged]
  | .timeoutCheck now =>
    match m.proof with
    | none => goOn m []
    | some ps => if ps.isTimedOut now then goOn (m.updateProof (·.markTimedOut)) [.checkFailing] else goOn m []
  | .takeStaged req => goOn { m with staged := none } (checkStaged proofUuid req (m.staged.getD .empty))
  | .upload req staged =>
    if c.sent then goOn m (afterUpload req staged)
    else goOn m [.abort s!"Failed to upload input to workers: {c.error}", .removeProof]
  | .fanout req staged =>
    if c.sent then
      goOn m [.recordDeferral staged.deferralStates.length, .restage staged.deferralInputs, startKickoff req]
    else goOn m (abortProof s!"Failed to fan out deferral states: {c.error}")
  | .recordDeferral count => goOn (m.updateProof ({ · with deferralCircuitCount := count })) []
  | .restage inputs => goOn { m with staged := some { StagedInputs.empty with deferralInputs := inputs } } []
  | .kickoff appWorkers remaining failures =>
    match c.nextKickoff remaining with
    | none => goOn m (afterKickoff appWorkers failures)
    | some id =>
      let failures := if c.sent then failures else (id, c.error) :: failures
      ⟨m, [.kickoff appWorkers (remaining.erase id) failures], [], ⟨[], [id]⟩⟩
  | .abort message => goOn (m.updateProof (·.abort message)) []
  | .markFailing message => goOn (m.updateProof (·.markFailing message)) []

abbrev World := TaskPool.Pool Manager Op
abbrev WorldLabel := TaskPool.Label Choice Op
abbrev WorldStep (proofUuid : String) := TaskPool.Step (Op.exec proofUuid)
abbrev WorldRun (proofUuid : String) := TaskPool.Run (Op.exec proofUuid)

/-- One request to `proof_result`. -/
def resultTask (workerId : Nat) (envelope : MessageEnvelope ProofResult) : List Op := [.process workerId envelope]

/-- One request to `cancel_proof`. -/
def cancelTask : List Op := [.cancel]

/-- The watchdog's visit to the proof in the pass that began at `now`. -/
def watchdogTask (now : Time) : List Op := [.checkFailing, .timeoutCheck now]

/-- The rest of `start_proof` once the proof is admitted. -/
def startTask (req : StartRequest) : List Op := [.takeStaged req]

/-- The workers that own a shard. -/
def appEligibleWorkers (fleet : List (Nat × RegisteredWorker)) : List Nat :=
  (fleet.filter (·.2.workerRole.runsStarkProving)).map (·.1)

/-- A proof as `start_proof` admits it, with the rest of `start_proof` to come. -/
def World.admitted (p : TreeParams) (fleet : List (Nat × RegisteredWorker)) (leafPackThreshold maxLeafProvers : Nat)
    (staged : Option StagedInputs) (inputAlreadyUploaded : Bool) : World where
  state := {
    proof := some { p.initial with numWorkers := (appEligibleWorkers fleet).length, deferralCircuitCount := 0 }
    scheduler := some (.initProof fleet leafPackThreshold maxLeafProvers)
    staged := staged }
  tasks := [startTask ⟨inputAlreadyUploaded, appEligibleWorkers fleet⟩]

end EdgeProver
