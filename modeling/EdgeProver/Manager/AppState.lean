import EdgeProver.Config
import EdgeProver.Manager.Effects
import EdgeProver.ProofState.Persistence

/-! The manager's stores over all proof uuids, with the admission of `start_proof`, the uploads of inputs, the
eviction and the watchdog's passes. -/
namespace EdgeProver

def Manager.empty : Manager := ⟨none, none, none⟩

/-- `proof_states`, the scheduler store and `staged_inputs`, by proof uuid. -/
structure AppState where
  slices : String → Manager
  uuids : List String
  slices_of_not_mem : ∀ proofUuid, proofUuid ∉ uuids → slices proofUuid = .empty
  /-- `start_proof_gate` is held. -/
  gate : Bool

namespace AppState

def empty : AppState := ⟨fun _ => .empty, [], fun _ _ => rfl, false⟩

def put (d : AppState) (proofUuid : String) (m : Manager) : AppState where
  slices := Function.update d.slices proofUuid m
  uuids := d.uuids.insert proofUuid
  slices_of_not_mem := by
    intro other hother
    rw [List.mem_insert_iff, not_or] at hother
    rw [Function.update_of_ne hother.1, d.slices_of_not_mem other hother.2]
  gate := d.gate

@[simp] theorem put_gate (d : AppState) (proofUuid : String) (m : Manager) : (d.put proofUuid m).gate = d.gate := rfl

@[simp] theorem put_slices (d : AppState) (proofUuid : String) (m : Manager) :
    (d.put proofUuid m).slices = Function.update d.slices proofUuid m := rfl

def hasAnyProofs (d : AppState) : Bool := d.uuids.any fun proofUuid => (d.slices proofUuid).scheduler.isSome

end AppState

/-- What `start_proof` admits: the validated request, with the workers found ready. -/
structure ProofRequest where
  context : ProofContext
  valid : validateManagerProofUuid context.proofUuid = .ok ()
  timeoutSecs : Option Nat
  leafPackThreshold : Option Nat
  inputAlreadyUploaded : Bool
  workers : List (Nat × RegisteredWorker)

inductive AppOp where
  | step (proofUuid : String) (op : Op)
  /- `upload_input`. -/
  | stage (proofUuid : String) (staged : StagedInputs)
  /- `start_proof` up to the end of the admission. -/
  | startProof (req : ProofRequest)
  | checkBusy (req : ProofRequest)
  | checkDuplicate (req : ProofRequest)
  | insertProof (req : ProofRequest)
  | initProof (req : ProofRequest)
  /- `evict_stale_proofs`. -/
  | evictPass (now : Time) (remaining found : List String)
  | evictRemove (proofUuid : String)
  /- `scan_and_timeout_proofs`. -/
  | watchdog
  | sweep (now : Time)
  | sweepPass (now : Time) (remaining found : List String)
  | sweepRemove (proofUuid : String)

inductive Rejection where
  | deploymentBusy
  | proofAlreadyExists
  deriving DecidableEq, Repr

abbrev AppOutcome := TaskPool.Outcome AppState AppOp (Option Rejection)

def orphanedStagedInputTtlSecs : Int := 300

/-- A proof whose termination nothing has begun: failing, or in progress without its final artifact. -/
def ProofState.isLive (ps : ProofState) : Bool :=
  ps.status.isFailing || ps.status.isInProgress && !ps.isReadyForFinalization

def ProofRequest.proofState (req : ProofRequest) (config : ManagerConfig) (now : Time) : ProofState :=
  .new now req.context (2 ^ 64 - 1) (appEligibleWorkers req.workers).length config.proof.leafArity
    config.proof.internalArity (req.timeoutSecs.getD config.proof.timeoutSecs)

/-- The sweep takes an entry without a proof whose upload is older than the TTL. -/
def Manager.isOrphaned (m : Manager) (now : Time) : Bool :=
  m.proof.isNone && m.staged.any fun staged =>
    staged.stagedAt.any fun t => decide (t < now - orphanedStagedInputTtlSecs * 1000000000)

def proceed (d : AppState) (next : List AppOp) : AppOutcome := ⟨d, next, [], none⟩

def AppOp.exec (config : ManagerConfig) (c : Choice) (d : AppState) : AppOp → AppOutcome
  | .step _ .evict => proceed d [.evictPass c.now d.uuids []]
  | .step proofUuid op =>
    let out := op.exec proofUuid c (d.slices proofUuid)
    ⟨d.put proofUuid out.state, out.next.map (.step proofUuid), out.spawned.map (·.map (.step proofUuid)), none⟩
  | .stage proofUuid staged =>
    proceed (d.put proofUuid { d.slices proofUuid with staged := some { staged with stagedAt := some c.now } }) []
  | .startProof req =>
    -- the gate is held until the call is rejected or `init_proof` is done
    if d.gate then proceed d [.startProof req] else proceed { d with gate := true } [.checkBusy req]
  | .checkBusy req =>
    if d.hasAnyProofs then ⟨{ d with gate := false }, [], [], some .deploymentBusy⟩
    else proceed d [.checkDuplicate req]
  | .checkDuplicate req =>
    if (d.slices req.context.proofUuid).proof.isSome then ⟨{ d with gate := false }, [], [], some .proofAlreadyExists⟩
    else proceed d [.insertProof req]
  | .insertProof req =>
    let proofUuid := req.context.proofUuid
    proceed (d.put proofUuid { d.slices proofUuid with proof := some (req.proofState config c.now) }) [.initProof req]
  | .initProof req =>
    let proofUuid := req.context.proofUuid
    proceed { d.put proofUuid { d.slices proofUuid with
        scheduler := some (.initProof req.workers (req.leafPackThreshold.getD config.proof.leafPackThreshold)
          config.provers.maxLeafProvers) } with
      gate := false } [.step proofUuid (.takeStaged ⟨req.inputAlreadyUploaded, appEligibleWorkers req.workers⟩)]
  | .evictPass _ [] found => proceed d (found.map .evictRemove)
  | .evictPass now (proofUuid :: remaining) found =>
    let stale := c.unlocked && (d.slices proofUuid).proof.any (·.shouldEvict now)
    proceed d [.evictPass now remaining (if stale then found ++ [proofUuid] else found)]
  | .evictRemove proofUuid => proceed (d.put proofUuid { d.slices proofUuid with proof := none }) []
  | .watchdog =>
    let candidates := d.uuids.filter fun proofUuid => (d.slices proofUuid).proof.isSome
    proceed d ((candidates.flatMap fun proofUuid => (watchdogTask c.now).map (.step proofUuid)) ++ [.sweep c.now])
  | .sweep now => proceed d [.sweepPass now d.uuids []]
  | .sweepPass _ [] found => proceed d (found.map .sweepRemove)
  | .sweepPass now (proofUuid :: remaining) found =>
    proceed d [.sweepPass now remaining (if (d.slices proofUuid).isOrphaned now then found ++ [proofUuid] else found)]
  | .sweepRemove proofUuid => proceed (d.put proofUuid { d.slices proofUuid with staged := none }) []

abbrev App := TaskPool.Pool AppState AppOp
abbrev AppLabel := TaskPool.Label Choice AppOp
abbrev AppStep (config : ManagerConfig) := TaskPool.Step (AppOp.exec config)
abbrev AppRun (config : ManagerConfig) := TaskPool.Run (AppOp.exec config)

/-- What arrives from outside: an upload, a start request, a result, a cancellation, the watchdog's tick. -/
def isArrival : List AppOp → Bool
  | [.stage _ _] | [.startProof _] | [.step _ (.process _ _)] | [.step _ .cancel] | [.watchdog] => true
  | _ => false

def App.start : App := ⟨.empty, []⟩

end EdgeProver
