import EdgeProver.ProofState.ResultHandler
import EdgeProver.Scheduler.State

/-! What the manager keeps for one proof uuid: its entries in `proof_states`, in the scheduler store and
in `staged_inputs`. -/
namespace EdgeProver

/-- Inputs staged on the manager; the two maps list their entries in index order. -/
structure StagedInputs where
  main : Option Bytes
  deferralStates : List (Nat × Bytes)
  deferralInputs : List (Nat × Bytes)
  /-- `none` for the inputs that `start_proof` stages again. -/
  stagedAt : Option Time
  deriving DecidableEq

def StagedInputs.empty : StagedInputs := ⟨none, [], [], none⟩

structure Manager where
  proof : Option ProofState
  scheduler : Option EdgeProofState
  staged : Option StagedInputs

namespace Manager

-- Without an entry in the scheduler store every call is a no-op. Fetching the entry and acting under its lock are one
-- step here; `HeldManager` takes the two apart.
def setNumSegments (m : Manager) (proofUuid : String) (numSegments : Nat) : List AssignedWork × Manager :=
  match m.scheduler with
  | none => ([], m)
  | some st =>
    let called := st.setNumSegments proofUuid numSegments
    (called.1, { m with scheduler := some called.2 })

def enqueueOrAssign (m : Manager) (proofUuid : String) (envelope : MessageEnvelope GeneralProveRequest)
    (step : Step) : Option AssignedWork × Manager :=
  match m.scheduler with
  | none => (none, m)
  | some st =>
    let called := st.assignOrQueue proofUuid envelope step
    (called.1, { m with scheduler := some called.2 })

def workerCompleted (m : Manager) (proofUuid : String) (workerId : Nat) (result : ProofResult) :
    Except String (Option AssignedWork) × Manager :=
  match m.scheduler with
  | none => (.ok none, m)
  | some st =>
    match st.completeWork proofUuid workerId result with
    | .error e => (.error e, m)
    | .ok (work, st) => (.ok work, { m with scheduler := some st })

def workerDrained (m : Manager) (proofUuid : String) (workerId : Nat) (result : ProofResult) :
    Except String Unit × Manager :=
  match m.scheduler with
  | none => (.ok (), m)
  | some st =>
    match st.applyCompletion proofUuid workerId result with
    | .error e => (.error e, m)
    | .ok (_, st) => (.ok (), { m with scheduler := some st })

def releaseWorker (m : Manager) (workerId : Nat) : Manager :=
  { m with scheduler := m.scheduler.map (·.releaseWorker workerId) }

/-- An unknown proof counts as drained. -/
def isFullyDrained (m : Manager) : Bool :=
  match m.scheduler with
  | none => true
  | some st => st.isFullyDrained

def updateProof (m : Manager) (f : ProofState → ProofState) : Manager := { m with proof := m.proof.map f }

def isFailing (m : Manager) : Bool :=
  match m.proof with
  | none => false
  | some ps => ps.status.isFailing

end Manager

def failingDrainTtl : Int := 60 * 1000000000

namespace ProofState

/-- `cancel_proof` under the proof's lock. -/
def cancel (ps : ProofState) : ProofState :=
  if ps.status.isInProgress && !ps.isReadyForFinalization then { ps with status := .canceled } else ps

/-- `send_work_with_retry` out of retries, under the proof's lock. -/
def dispatchFailed (reason : String) (ps : ProofState) : ProofState :=
  if ps.status.isInProgress then { ps with status := .failing reason } else ps

/-- `finalize_proof` under the proof's lock; `persisted` is how writing the final artifact went. -/
def finalize (now : Time) (persisted : Except String Unit) (ps : ProofState) : ProofState :=
  let sealing := ps.status.isInProgress && ps.isReadyForFinalization
  let ps :=
    if sealing then
      { ps with
        status :=
          match persisted with
          | .ok _ => .completed
          | .error e => .failed s!"persist final proof: {e}"
        lastUpdated := now }
    else ps
  ps.compactCompletedState

/-- `abort_proof_with_failure` under the proof's lock. -/
def abort (message : String) (ps : ProofState) : ProofState := { ps with status := .failed message }

def ttlExpired (now : Time) (ps : ProofState) : Bool :=
  ps.status.isFailing && decide (now - ps.lastUpdated > failingDrainTtl)

end ProofState
end EdgeProver
