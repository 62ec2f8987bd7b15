import EdgeProver.Protocol

/-! The executor thread of a sharded app job: it runs the program from suspend to suspend and sends every segment of
its shard to the provers, with a snapshot to start from. -/
namespace EdgeProver

structure Segment where
  instretStart : Nat
  numInsns : Nat
  traceHeights : List Nat
  deriving DecidableEq, Repr

/-- A state of the program and how many instructions lead there; `σ` are the states of the VM. -/
structure VmSnapshot (σ : Type) where
  vmState : σ
  instret : Nat
  deriving DecidableEq, Repr

structure ProveData (σ : Type) where
  snapshot : VmSnapshot σ
  segment : Segment
  segmentIdx : Nat
  isFinal : Bool
  deriving DecidableEq, Repr

/-- Where a metered execution is suspended. -/
structure ExecState (σ : Type) where
  vmState : σ
  exitCode : Except String (Option Nat)
  segments : List Segment
  instret : Nat

/-- What each call of `execute_metered_until_suspend` returns, by the number of calls before it. -/
abbrev Metered (σ : Type) := Nat → Except String (ExecState σ)

/-- The channel of the job that results are streamed on. -/
inductive ResultTx where
  | none
  | receiverOpen
  | receiverClosed
  deriving DecidableEq, Repr

structure ShardedAppProverJob where
  context : ProofContext
  numProvers : Nat
  proverId : Nat
  maxAppProvers : Nat
  resultTx : ResultTx
  deferralStatePaths : List String

namespace ShardedAppProverJob
variable (job : ShardedAppProverJob)

/-- What reaches the result channel of what is sent on it. -/
def streams (results : List ProofResult) : List ProofResult := if job.resultTx = .receiverOpen then results else []

/-- What is kept for the return of results that are not streamed, a failed send being ignored. -/
def keeps (results : List ProofResult) : List ProofResult := if job.resultTx = .none then results else []

end ShardedAppProverJob

def seedsInitialSnapshot (proverId : Nat) : Bool := proverId < 2

def savesSnapshotAt (currIdx numProvers proverId : Nat) : Bool :=
  numProvers == 1 || (currIdx + 2) % numProvers == proverId

structure ExecutorResult where
  segments : List Segment
  numSegments : Nat
  deriving DecidableEq, Repr

inductive Executor (σ : Type) where
  /-- To call the interpreter, after so many calls. -/
  | suspended (calls : Nat) (snapshots : List (VmSnapshot σ))
  /-- To send a segment, with the snapshots that are left. -/
  | sending (calls : Nat) (snapshots : List (VmSnapshot σ)) (execState : ExecState σ) (data : ProveData σ)
  /-- To stream the ExecuteE2 result. -/
  | reporting (segments : List Segment)
  | returned (result : Except String ExecutorResult)
  | panicked (message : String)

namespace Executor
variable {σ : Type}

def snapshots : Executor σ → List (VmSnapshot σ)
  | suspended _ snapshots | sending _ snapshots _ _ => snapshots
  | reporting _ | returned _ | panicked _ => []

def isRunning : Executor σ → Bool
  | suspended .. | sending .. | reporting _ => true
  | returned _ | panicked _ => false

def start (job : ShardedAppProverJob) (vmState : σ) : Executor σ :=
  .suspended 0 (if seedsInitialSnapshot job.proverId then [⟨vmState, 0⟩] else [])

/-- The start snapshot of an owned segment and the deque that is left, or the panic of an empty one. The only prover of
a job peeks at the front for segment 0, since it saves a snapshot at every suspend. -/
def takeSnapshot (job : ShardedAppProverJob) (currIdx : Nat) :
    List (VmSnapshot σ) → Except String (VmSnapshot σ × List (VmSnapshot σ))
  | [] =>
    if job.numProvers = 1 ∧ currIdx = 0 then .error "Out of bounds access"
    else .error "Snapshot missing for assigned segment"
  | front :: rest => .ok (front, if job.numProvers = 1 ∧ currIdx = 0 then front :: rest else rest)

def endRound (job : ShardedAppProverJob) (calls : Nat) (snapshots : List (VmSnapshot σ)) (execState : ExecState σ)
    (shouldBreak : Bool) : Executor σ :=
  if shouldBreak then .reporting execState.segments
  else if savesSnapshotAt (execState.segments.length - 1) job.numProvers job.proverId then
    .suspended (calls + 1) (snapshots ++ [⟨execState.vmState, execState.instret⟩])
  else .suspended (calls + 1) snapshots

/-- A round, up to the send. -/
def resume (job : ShardedAppProverJob) (metered : Metered σ) (calls : Nat) (snapshots : List (VmSnapshot σ)) :
    Executor σ :=
  match metered calls with
  | .error e => .returned (.error e)
  | .ok execState =>
    match execState.exitCode with
    | .error e => .returned (.error e)
    | .ok (some (code + 1)) => .returned (.error s!"VM exited with non-zero exit code: {code + 1}")
    | .ok exitCode =>
      let shouldBreak := exitCode.isSome
      let currIdx := execState.segments.length - 1
      if currIdx % job.numProvers = job.proverId then
        match takeSnapshot job currIdx snapshots with
        | .error message => .panicked message
        | .ok (snapshot, rest) =>
          match execState.segments[currIdx]? with
          | none => .panicked "index out of bounds"
          | some segment => .sending calls rest execState ⟨snapshot, segment, currIdx, shouldBreak⟩
      else endRound job calls snapshots execState shouldBreak

/-- The executor's own ExecuteE2 result: prover 0 streams it, where results are streamed. -/
def executeE2Result (job : ShardedAppProverJob) (encodeSegments : List Segment → Except String (List Bytes))
    (segments : List Segment) : Except String ProofResult := do
  let encoded ← encodeSegments segments
  return .executeE2 ⟨job.context, ⟨segments.length, encoded, 0⟩⟩

/-- The ExecuteE2 result is streamed by prover 0. -/
def streamsE2 (job : ShardedAppProverJob) : Bool := job.resultTx != .none && job.proverId == 0

/-- The end of the thread, and what it streams. -/
def report (job : ShardedAppProverJob) (encodeSegments : List Segment → Except String (List Bytes))
    (segments : List Segment) : Executor σ × List ProofResult :=
  if streamsE2 job then
    match executeE2Result job encodeSegments segments with
    | .error e => (.returned (.error e), [])
    | .ok result => (.returned (.ok ⟨segments, segments.length⟩), [result])
  else (.returned (.ok ⟨segments, segments.length⟩), [])

/-- What the thread that started the executor returns of its own proofs once the executor has ended: the ExecuteE2
result is among them where nothing is streamed. -/
def finish (job : ShardedAppProverJob) (encodeSegments : List Segment → Except String (List Bytes))
    (executor : Executor σ)
    (results : List ProofResult) : Except String (List ProofResult) :=
  match executor with
  | .panicked message => .error s!"Executor thread panicked: {message}"
  | .returned executorJoin => do
    let executorResult ← executorJoin
    if executorResult.numSegments = 0 then .error "No segments produced from execution"
    else if job.proverId = 0 ∧ job.resultTx = .none then
      let e2 ← executeE2Result job encodeSegments executorResult.segments
      return e2 :: results
    else return results
  | _ => .error "Executor still running"

end Executor

/-- The two copies of the loop, which report a failed send in their own words. -/
inductive ExecutorLoop where
  /-- `prove_sharded_app_impl_with_prover`. -/
  | serial
  /-- `coordinate_parallel_prove`. -/
  | parallel

def ExecutorLoop.disconnected : ExecutorLoop → String
  | serial => "Prover disconnected"
  | parallel => "All prover consumers disconnected"

inductive ExecutorStep {σ : Type} (loop : ExecutorLoop) (job : ShardedAppProverJob) (metered : Metered σ)
    (encodeSegments : List Segment → Except String (List Bytes)) : Executor σ → Executor σ → Prop
  | resume (calls : Nat) (snapshots : List (VmSnapshot σ)) :
      ExecutorStep loop job metered encodeSegments (.suspended calls snapshots)
        (Executor.resume job metered calls snapshots)
  | sent (calls : Nat) (snapshots : List (VmSnapshot σ)) (execState : ExecState σ) (data : ProveData σ) :
      ExecutorStep loop job metered encodeSegments (.sending calls snapshots execState data)
        (Executor.endRound job calls snapshots execState data.isFinal)
  | disconnected (calls : Nat) (snapshots : List (VmSnapshot σ)) (execState : ExecState σ) (data : ProveData σ) :
      ExecutorStep loop job metered encodeSegments (.sending calls snapshots execState data)
        (.returned (.error loop.disconnected))
  | report (segments : List Segment) :
      ExecutorStep loop job metered encodeSegments (.reporting segments)
        (Executor.report job encodeSegments segments).1

end EdgeProver
