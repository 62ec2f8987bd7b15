import Mathlib.Logic.Function.Basic
import EdgeProver.Protocol
import EdgeProver.Recursion

/-! `ProofState` and its status transitions. -/
namespace EdgeProver

/-- A `HashMap` seen through `get`, `contains_key` and `insert`. -/
abbrev Slots (κ α : Type) := κ → Option α

structure InternalProofIndex where
  layerIdx : Nat
  idx : Nat
  deriving DecidableEq, Repr

inductive ProofStatus where
  | inProgress
  | completed
  | failing (reason : String)
  | failed (reason : String)
  | canceled
  deriving DecidableEq, Repr

def ProofStatus.isInProgress : ProofStatus → Bool
  | .inProgress => true
  | _ => false

def ProofStatus.isFailing : ProofStatus → Bool
  | .failing _ => true
  | _ => false

structure ProofState where
  context : ProofContext
  status : ProofStatus
  costLimit : Nat
  numWorkers : Nat
  numSegments : Option Nat
  leafArity : Nat
  internalArity : Nat
  timeoutSecs : Nat
  executeE2State : Option ExecuteE2State
  proofStartTime : Time
  appProofs : Slots Nat AppProofState
  leafProofs : Slots Nat LeafProofState
  internalProofs : Slots InternalProofIndex InternalProofState
  evmProof : Option EvmProofState
  lastUpdated : Time
  lastErrorResult : Option ErrorResult
  lateResultNoticeEmitted : Bool
  deferralCircuitCount : Nat
  deferralFinalMerklePathBytes : Option Bytes
  deferralDepth0MerkleProofsBytes : Option Bytes
  persistedFinalProofPath : Option String

namespace ProofState

def new (now : Time) (context : ProofContext) (costLimit numWorkers leafArity internalArity
    timeoutSecs : Nat) : ProofState where
  context := context
  status := .inProgress
  costLimit := costLimit
  numWorkers := numWorkers
  numSegments := none
  leafArity := leafArity
  internalArity := internalArity
  timeoutSecs := timeoutSecs
  executeE2State := none
  proofStartTime := now
  appProofs := fun _ => none
  leafProofs := fun _ => none
  internalProofs := fun _ => none
  evmProof := none
  lastUpdated := now
  lastErrorResult := none
  lateResultNoticeEmitted := false
  deferralCircuitCount := 0
  deferralFinalMerklePathBytes := none
  deferralDepth0MerkleProofsBytes := none
  persistedFinalProofPath := none

/-- `num_internal_layers.max(2) - 1`, computed from the segment count. -/
def effectiveFinalLayer (ps : ProofState) (numSegments : Nat) : Nat :=
  max (numInternalLayersForLeafCount (divCeil numSegments ps.leafArity) ps.internalArity) 2 - 1

def finalInternalProofPresent (ps : ProofState) : Bool :=
  match ps.numSegments with
  | some numSegments => (ps.internalProofs ⟨ps.effectiveFinalLayer numSegments, 0⟩).isSome
  | none => false

def finalInternalState (ps : ProofState) : Option InternalProofState :=
  match ps.numSegments with
  | some numSegments => ps.internalProofs ⟨ps.effectiveFinalLayer numSegments, 0⟩
  | none => none

def isReadyForFinalization (ps : ProofState) : Bool :=
  match ps.context.proofType with
  | .stark => ps.finalInternalProofPresent
  | .evm => (ps.evmProof.bind (·.proof)).isSome

def isSealedForResults (ps : ProofState) : Bool :=
  !ps.status.isInProgress || ps.isReadyForFinalization

/-- `chrono::Duration::num_seconds`, which rounds toward zero. -/
def numSeconds (d : Int) : Int := d.tdiv 1000000000

def isTimedOut (ps : ProofState) (now : Time) : Bool :=
  if ps.isSealedForResults then false
  else
    let elapsed := numSeconds (now - ps.proofStartTime)
    decide (elapsed > 0) && decide (elapsed.toNat > ps.timeoutSecs)

/-- Enter `Failing`, keeping the error that `mark_timed_out` and `mark_failing` record. -/
def fail (ps : ProofState) (step reason : String) : ProofState :=
  { ps with
    lastErrorResult := some { context := ps.context, step := step, error := reason }
    status := .failing reason }

def markTimedOut (ps : ProofState) : ProofState :=
  if ps.isSealedForResults then ps
  else ps.fail "timeout" s!"timed out after {ps.timeoutSecs}s"

def markFailing (ps : ProofState) (reason : String) : ProofState :=
  if ps.isSealedForResults then ps
  else ps.fail "failing" reason

def transitionFailingToFailed (ps : ProofState) : ProofState :=
  match ps.status with
  | .failing reason => { ps with status := .failed reason }
  | _ => ps

def compactCompletedState (ps : ProofState) : ProofState :=
  match ps.status with
  | .completed | .failed _ | .canceled =>
    { ps with
      appProofs := fun i => (ps.appProofs i).map ({ · with proof := none })
      leafProofs := fun i => (ps.leafProofs i).map ({ · with proof := none })
      internalProofs := fun i => (ps.internalProofs i).map ({ · with proof := none })
      executeE2State := ps.executeE2State.map ({ · with segments := [] }) }
  | _ => ps

/-- One hour and one minute of `Time`. -/
def hours (n : Nat) : Int := n * 3600 * 1000000000
def minutes (n : Nat) : Int := n * 60 * 1000000000

def shouldEvict (ps : ProofState) (now : Time) : Bool :=
  let age := now - ps.lastUpdated
  match ps.status with
  | .inProgress => !ps.isReadyForFinalization && decide (age > hours 10)
  | .failing _ => false
  | .completed | .failed _ | .canceled => decide (age > minutes 5)

@[simp] theorem isInProgress_iff {st : ProofStatus} : st.isInProgress = true ↔ st = .inProgress := by
  cases st <;> simp [ProofStatus.isInProgress]

theorem not_sealed_iff {ps : ProofState} :
    ps.isSealedForResults = false ↔ ps.status = .inProgress ∧ ps.isReadyForFinalization = false := by
  simp only [isSealedForResults, Bool.or_eq_false_iff, Bool.not_eq_false', isInProgress_iff]

theorem sealed_of_status {ps : ProofState} (h : ps.status ≠ .inProgress) :
    ps.isSealedForResults = true := by
  by_contra hn
  exact h (not_sealed_iff.mp (by simpa using hn)).1

theorem markFailing_sealed {ps : ProofState} (h : ps.isSealedForResults = true) (reason : String) :
    ps.markFailing reason = ps := if_pos h

theorem isTimedOut_sealed {ps : ProofState} (h : ps.isSealedForResults = true) (now : Time) :
    ps.isTimedOut now = false := if_pos h

end ProofState
end EdgeProver
