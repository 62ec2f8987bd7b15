import EdgeProver.Lib.Replace
import EdgeProver.Worker.Reporting
import EdgeProver.Worker.SnapshotSchedule

/-! A parallel app job: the executor thread, the coordinator that proves segments beside it and the consumers on other
app workers, around one bounded channel of segments. -/
namespace EdgeProver
open Replace

inductive SegmentFailure where
  | fastForward (report : String)
  | starkProve (report : String)
  | finalMemory
  | topTree
  | deferralPath (report : String)
  | depth0 (report : String)
  | encode (report : String)

/-- What the interpreter, the prover and the codecs answer while one segment is proved; `P` are proofs and `M` memory
images. -/
structure SegmentTools (σ P M : Type) where
  executeFromState : σ → Nat → Except String σ
  prove : σ → Segment → Except String (P × Option M)
  memoryTopTree : Bool
  terminalDeferralPathBytes : M → Except String Bytes
  terminalDepth0DeferralProofsBytes : ProgramRef → M → Except String (Option Bytes)
  /-- `encode_proof`, with the user public values of the memory of a terminal segment. -/
  encodeProof : P → Option M → Except String ProofBytes

def ShardedAppProverJob.isDeferralJob (job : ShardedAppProverJob) : Bool := !job.deferralStatePaths.isEmpty

section
variable {σ P M : Type} (job : ShardedAppProverJob) (tools : SegmentTools σ P M) (data : ProveData σ)

/-- The state of the VM at the start of the segment. -/
def fastForward : Except SegmentFailure σ :=
  let numIns := data.segment.instretStart - data.snapshot.instret
  if numIns > 0 then (tools.executeFromState data.snapshot.vmState numIns).mapError .fastForward
  else .ok data.snapshot.vmState

/-- What the terminal segment adds: its memory, from which the user public values come, the deferral path of a deferral
job and the depth-0 deferral proofs of any other. -/
def terminalParts (finalMemory : Option M) : Except SegmentFailure (Option M × Option Bytes × Option Bytes) :=
  if data.isFinal then
    match finalMemory with
    | none => .error .finalMemory
    | some memory =>
      if !tools.memoryTopTree then .error .topTree
      else if job.isDeferralJob then
        ((tools.terminalDeferralPathBytes memory).mapError .deferralPath).map fun bytes =>
          (some memory, some bytes, none)
      else
        ((tools.terminalDepth0DeferralProofsBytes job.context.program memory).mapError .depth0).map fun bytes =>
          (some memory, none, bytes)
  else .ok (none, none, none)

/-- The body that the coordinator's and the consumers' loop share, up to the send of the result. -/
def proveSegment : Except SegmentFailure AppProofState := do
  let vmState ← fastForward tools data
  let (proof, finalMemory) ← (tools.prove vmState data.segment).mapError .starkProve
  let (memory, finalMerklePathBytes, deferralMerkleProofsBytes) ← terminalParts job tools data finalMemory
  let bytes ← (tools.encodeProof proof memory).mapError .encode
  return ⟨some bytes, data.segmentIdx, finalMerklePathBytes, deferralMerkleProofsBytes⟩

end

namespace SegmentFailure

def consumerReport (segmentIdx : Nat) : SegmentFailure → String
  | fastForward e => s!"Consumer fast-forward failed for segment {segmentIdx}: {e}"
  | starkProve e => s!"Consumer STARK prove failed for segment {segmentIdx}: {e}"
  | finalMemory => s!"Terminal segment {segmentIdx} did not return final_memory"
  | topTree => s!"Memory top tree missing for terminal segment {segmentIdx}"
  | deferralPath e => s!"Consumer deferral path extraction failed for segment {segmentIdx}: {e}"
  | depth0 e => s!"Consumer depth-0 deferral merkle build failed for segment {segmentIdx}: {e}"
  | encode e => s!"Consumer failed to encode proof for segment {segmentIdx}: {e}"

def coordinatorReport (segmentIdx : Nat) : SegmentFailure → String
  | fastForward e | starkProve e | deferralPath e | depth0 e | encode e => e
  | finalMemory => s!"Terminal segment {segmentIdx} did not return final_memory"
  | topTree => "Memory top tree should exist for terminal segment"

end SegmentFailure

inductive Coordinator (σ : Type) where
  /-- To check the job and read its input; it holds both ends of the segment channel. -/
  | starting
  /-- In its loop over the segment channel, with the segment it proves. -/
  | proving (held : Option (ProveData σ)) (results : List ProofResult)
  /-- It dropped its receiver, and waits for the executor. -/
  | joining (error : Option String) (results : List ProofResult)
  /-- What `submit_to_workers` returns for it. -/
  | answered (answer : ProverAnswer)

inductive Consumer (σ : Type) where
  | proving (held : Option (ProveData σ)) (results : List ProofResult)
  /-- What its result channel delivers, if anything. -/
  | answered (answer : Option ProverResult)

structure ParallelState (σ : Type) where
  /-- The executor thread, once it is spawned. -/
  executor : Option (Executor σ)
  channel : List (ProveData σ)
  coordinator : Coordinator σ
  consumers : List (Consumer σ)
  /-- What was sent on an open result channel. -/
  streamed : List ProofResult
  /-- What `submit_parallel_app_job` returned. -/
  outcome : Option ProverAnswer

/-- A job that `submit_sharded_app_job` runs in parallel, and the program that it runs. -/
structure ParallelJob (σ : Type) where
  job : ShardedAppProverJob
  parallel : 1 < job.maxAppProvers
  run : MeteredRun σ
  encodeSegments : List Segment → Except String (List Bytes)

def ShardedAppProverJob.validate (job : ShardedAppProverJob) : Except String Unit :=
  if job.numProvers = 0 then .error "num_provers cannot be 0"
  else if job.proverId ≥ job.numProvers then
    .error s!"prover_id {job.proverId} must be less than num_provers {job.numProvers}"
  else .ok ()

def coordinatorResult : Except String (List ProofResult) → ProverResult
  | .ok results => .success results
  | .error e => .error s!"Parallel app prove failed: {e}"

def mergeParallelAppResults (coordinatorResult : ProverResult) (consumerProofs : List ProofResult)
    (consumerErrors : List String) : ProverResult :=
  let failures := "; ".intercalate consumerErrors
  match coordinatorResult, consumerErrors.isEmpty with
  | .success results, true => .success (results ++ consumerProofs)
  | .success _, false => .error s!"Parallel app consumer failure(s): {failures}"
  | .error coordinatorError, true => .error coordinatorError
  | .error coordinatorError, false =>
    .error s!"Parallel app coordinator failed: {coordinatorError}; consumer failure(s): {failures}"

namespace Consumer
variable {σ : Type}

def proofs : Consumer σ → List ProofResult
  | answered (some (.success results)) => results
  | _ => []

def failure : Consumer σ → Option String
  | answered (some (.error e)) => some e
  | answered none => some "Consumer dropped result channel"
  | _ => none

def isProving : Consumer σ → Bool
  | proving .. => true
  | answered _ => false

end Consumer

namespace Coordinator
variable {σ : Type}

def isStarting : Coordinator σ → Bool
  | starting => true
  | _ => false

def receives : Coordinator σ → Bool
  | starting | proving .. => true
  | joining .. | answered _ => false

end Coordinator

namespace ParallelState
variable {σ : Type} (s : ParallelState σ)

def senderAlive : Bool := s.coordinator.isStarting || s.executor.any (·.isRunning)

def receiverAlive : Bool := s.coordinator.receives || s.consumers.any (·.isProving)

end ParallelState

namespace ParallelJob
variable {σ P M : Type} (J : ParallelJob σ)

def start : ParallelState σ where
  executor := none
  channel := []
  coordinator := .starting
  consumers := .replicate (J.job.maxAppProvers - 1) (.proving none [])
  streamed := []
  outcome := none

def capacity : Nat := J.job.maxAppProvers * 2

def afterSetup (s : ParallelState σ) (setup : Except String Unit) : ParallelState σ :=
  match J.job.validate >>= fun _ => setup with
  | .error e => { s with coordinator := .answered (.ok (coordinatorResult (.error e))) }
  | .ok _ => { s with executor := some (.start J.job J.run.initial), coordinator := .proving none [] }

/-- The coordinator has tried to prove its segment. A proof that cannot be encoded returns at once, any other failure
ends the loop. -/
def coordinatorProved (s : ParallelState σ) (tools : SegmentTools σ P M) (data : ProveData σ)
    (results : List ProofResult) : ParallelState σ :=
  match proveSegment J.job tools data with
  | .ok state =>
    let appProof := .app ⟨J.job.context, state⟩
    { s with coordinator := .proving none (results ++ J.job.keeps [appProof]), streamed :=
      s.streamed ++ J.job.streams [appProof] }
  | .error (.encode e) => { s with coordinator := .answered (.ok (coordinatorResult (.error e))) }
  | .error failure => { s with coordinator := .joining (some (failure.coordinatorReport data.segmentIdx)) results }

/-- What `coordinate_parallel_prove` returns once the executor has ended. An error of its own counts unless the executor
has panicked. -/
def joined (executor : Executor σ) (error : Option String) (results : List ProofResult) :
    Except String (List ProofResult) :=
  match executor, error with
  | .returned _, some e => .error e
  | executor, _ => executor.finish J.job J.encodeSegments results

/-- A consumer has tried to prove its segment: where it stands then, and what it streams. -/
def consumerProved (tools : SegmentTools σ P M) (data : ProveData σ) (results : List ProofResult) :
    Consumer σ × List ProofResult :=
  match proveSegment J.job tools data with
  | .ok state =>
    let appProof := .app ⟨J.job.context, state⟩
    if J.job.resultTx = .receiverClosed then
      (.answered (some (.error
        s!"Consumer failed to stream proof for segment {data.segmentIdx}: result channel closed")), [])
    else (.proving none (results ++ J.job.keeps [appProof]), J.job.streams [appProof])
  | .error failure => (.answered (some (.error (failure.consumerReport data.segmentIdx))), [])

inductive WorkStep (s : ParallelState σ) : ParallelState σ → Prop
  | start (setup : Except String Unit) (h : s.coordinator = .starting) : WorkStep s (J.afterSetup s setup)
  | resume {calls : Nat} {snapshots : List (VmSnapshot σ)} (h : s.executor = some (.suspended calls snapshots)) :
      WorkStep s { s with executor := some (.resume J.job J.run.metered calls snapshots) }
  | send {calls : Nat} {snapshots : List (VmSnapshot σ)} {execState : ExecState σ} {data : ProveData σ}
      (h : s.executor = some (.sending calls snapshots execState data)) (hroom : s.channel.length < J.capacity)
      (halive : s.receiverAlive = true) :
      WorkStep s { s with
        executor := some (.endRound J.job calls snapshots execState data.isFinal), channel := s.channel ++ [data] }
  | disconnected {calls : Nat} {snapshots : List (VmSnapshot σ)} {execState : ExecState σ} {data : ProveData σ}
      (h : s.executor = some (.sending calls snapshots execState data)) (hdead : s.receiverAlive = false) :
      WorkStep s { s with executor := some (.returned (.error ExecutorLoop.parallel.disconnected)) }
  | report {segments : List Segment} (h : s.executor = some (.reporting segments)) :
      WorkStep s { s with
        executor := some (Executor.report J.job J.encodeSegments segments).1
        streamed := s.streamed ++ J.job.streams (Executor.report (σ := σ) J.job J.encodeSegments segments).2 }
  | receive {results : List ProofResult} {data : ProveData σ} {rest : List (ProveData σ)}
      (h : s.coordinator = .proving none results) (hdata : s.channel = data :: rest) :
      WorkStep s { s with coordinator := .proving (some data) results, channel := rest }
  | prove {data : ProveData σ} {results : List ProofResult} (h : s.coordinator = .proving (some data) results)
      {P M : Type} (tools : SegmentTools σ P M) : WorkStep s (J.coordinatorProved s tools data results)
  | loopEnds {results : List ProofResult} (h : s.coordinator = .proving none results) (hempty : s.channel = [])
      (hdead : s.senderAlive = false) : WorkStep s { s with coordinator := .joining none results }
  | join {executor : Executor σ} {error : Option String} {results : List ProofResult}
      (h : s.coordinator = .joining error results) (hexecutor : s.executor = some executor)
      (hended : executor.isRunning = false) :
      WorkStep s { s with coordinator := .answered (.ok (coordinatorResult (J.joined executor error results))) }
  | consumerReceive {results : List ProofResult} {data : ProveData σ} {rest : List (ProveData σ)}
      {consumers : List (Consumer σ)}
      (h : Replaces s.consumers consumers (.proving none results) (.proving (some data) results))
      (hdata : s.channel = data :: rest) : WorkStep s { s with consumers := consumers, channel := rest }
  | consumerProve {data : ProveData σ} {results : List ProofResult} {P M : Type} (tools : SegmentTools σ P M)
      {consumers : List (Consumer σ)}
      (h : Replaces s.consumers consumers (.proving (some data) results) (J.consumerProved tools data results).1) :
      WorkStep s { s with
        consumers := consumers, streamed := s.streamed ++ (J.consumerProved tools data results).2 }
  | consumerLoopEnds {results : List ProofResult} {consumers : List (Consumer σ)}
      (h : Replaces s.consumers consumers (.proving none results) (.answered (some (.success results))))
      (hempty : s.channel = []) (hdead : s.senderAlive = false) : WorkStep s { s with consumers := consumers }
  | poolFails {e : String} (h : s.coordinator = .answered (.error e)) (hopen : s.outcome = none) :
      WorkStep s { s with outcome := some (.error e) }
  | merge {result : ProverResult} (h : s.coordinator = .answered (.ok result))
      (hall : s.consumers.any (·.isProving) = false) (hopen : s.outcome = none) :
      WorkStep s { s with
        outcome := some (.ok (mergeParallelAppResults result (s.consumers.flatMap Consumer.proofs)
          (s.consumers.filterMap Consumer.failure))) }

/-- What can befall a party at any time: its worker cannot load the program or its prover panics, its worker is gone,
or the interpreter panics. -/
inductive FaultStep (s : ParallelState σ) : ParallelState σ → Prop
  | coordinatorFails (message : String) (h : s.coordinator.receives = true) :
      FaultStep s { s with coordinator := .answered (.ok (.error message)) }
  | coordinatorGone (report : String) (h : ∀ answer, s.coordinator ≠ .answered answer) :
      FaultStep s { s with coordinator := .answered (.error report) }
  | consumerFails (message : String) {held : Option (ProveData σ)} {results : List ProofResult}
      {consumers : List (Consumer σ)}
      (h : Replaces s.consumers consumers (.proving held results) (.answered (some (.error message)))) :
      FaultStep s { s with consumers := consumers }
  | consumerGone {held : Option (ProveData σ)} {results : List ProofResult} {consumers : List (Consumer σ)}
      (h : Replaces s.consumers consumers (.proving held results) (.answered none)) :
      FaultStep s { s with consumers := consumers }
  | executorPanics (message : String) {executor : Executor σ} (h : s.executor = some executor)
      (hrunning : executor.isRunning = true) : FaultStep s { s with executor := some (.panicked message) }

def Step (s s' : ParallelState σ) : Prop := J.WorkStep s s' ∨ FaultStep s s'

end ParallelJob
end EdgeProver
