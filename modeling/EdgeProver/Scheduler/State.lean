import Mathlib.Data.Finset.Card
import EdgeProver.Recursion
import EdgeProver.Scheduler.PriorityQueue

/-! Per-proof scheduler state and the assignment of work to workers. -/
namespace EdgeProver

structure RegisteredWorker where
  workerUrl : String
  lastSeen : Time
  workerRole : WorkerRole
  deriving DecidableEq, Repr

structure AssignedWork where
  proofUuid : String
  workerId : Nat
  workerUrl : String
  envelope : MessageEnvelope GeneralProveRequest
  step : Step
  deriving DecidableEq, Repr

def AssignedWork.item (work : AssignedWork) : EdgeWorkItem := ⟨work.envelope, work.step⟩

structure ActiveProof where
  step : Step
  layerIdx : Option Nat
  deriving DecidableEq, Repr

def activeProofFromRequest (request : GeneralProveRequest) (step : Step) : ActiveProof where
  step := step
  layerIdx :=
    match request with
    | .internalProve req => some req.layerIdx
    | _ => none

structure EdgeWorkerState where
  id : Nat
  workerUrl : String
  workerRole : WorkerRole
  activeProofCount : Nat
  activeProofs : List ActiveProof
  completedSegments : Finset Nat
  deriving DecidableEq

structure EdgeProofState where
  workers : List EdgeWorkerState
  pending : PriorityWorkQueue
  numSegments : Option Nat
  numWorkers : Nat
  assignedLeafProofs : Nat
  leafPackThreshold : Nat
  maxLeafProvers : Nat

/-- `min_by_key`: the first entry that no other entry undercuts. -/
def minByKey {α : Type*} (key : α → Nat) : List α → Option α
  | [] => none
  | x :: xs =>
    match minByKey key xs with
    | none => some x
    | some y => if key y < key x then some y else some x

/-- Segments of the shard of a worker, by the arithmetic of the scheduler. -/
def expectedCount (workerId numWorkers total : Nat) : Nat :=
  if workerId < total then divCeil (total - workerId) numWorkers else 0

/-- Without workers the divisions panic, which unwinds the report before it frees a slot: as if segments were
missing. -/
def workerCompletedAllSegments (workerId : Nat) (completedSegments : Finset Nat) (numWorkers : Nat)
    (totalSegments : Option Nat) : Bool :=
  match totalSegments with
  | none => false
  | some total =>
    let actualCount := (completedSegments.filter (· % numWorkers = workerId)).card
    decide (0 < numWorkers) && decide (expectedCount workerId numWorkers total ≤ actualCount)

namespace EdgeWorkerState

def runs (worker : EdgeWorkerState) (step : Step) : Bool := worker.activeProofs.any (·.step == step)

def canAcceptWork (worker : EdgeWorkerState) (step : Step) (maxLeafProvers : Nat) : Bool :=
  if step = .evmProve then
    if !worker.workerRole.runsEvmProve then false else worker.activeProofCount == 0
  else if worker.workerRole = .evmDedicated then false
  else if worker.runs .evmProve then false
  else if worker.runs .shardedAppProve then false
  else
    match step with
    | .leafProve => decide (worker.activeProofCount < maxLeafProvers)
    | .internalProve => worker.activeProofCount == 0
    | .shardedAppProve | .evmProve | .rootProve | .halo2Prove => false

/-- A completely free worker, as `find_best_worker_for_leaf` looks for one first. -/
def freeForLeaf (worker : EdgeWorkerState) : Bool :=
  worker.workerRole.runsStarkProving && worker.activeProofCount == 0 && !worker.runs .shardedAppProve

def packable (maxLeafProvers : Nat) (worker : EdgeWorkerState) : Bool :=
  worker.workerRole.runsStarkProving && decide (worker.activeProofCount < maxLeafProvers) &&
    !worker.runs .shardedAppProve

def packingKey (worker : EdgeWorkerState) : Nat :=
  let activeBias :=
    match worker.activeProofs.head? with
    | some active =>
      match active.step with
      | .internalProve => 1000 - active.layerIdx.getD 0 * 10
      | .leafProve => 2000
      | _ => 1500
    | none => 1500
  worker.activeProofCount * 10000 + activeBias

def assign (worker : EdgeWorkerState) (item : EdgeWorkItem) : EdgeWorkerState :=
  { worker with
    activeProofCount := worker.activeProofCount + 1
    activeProofs := worker.activeProofs ++ [activeProofFromRequest item.envelope.message item.step] }

def finishShard (worker : EdgeWorkerState) : EdgeWorkerState :=
  { worker with
    activeProofCount := worker.activeProofCount - 1
    activeProofs := worker.activeProofs.filter (·.step ≠ .shardedAppProve) }

/-- Give the slot of the first active proof of this kind back. -/
def finish (worker : EdgeWorkerState) (completedStep : Step) : EdgeWorkerState :=
  { worker with
    activeProofCount := worker.activeProofCount - 1
    activeProofs := worker.activeProofs.eraseP (·.step == completedStep) }

/-- An error gives back the slot of the first active proof, whatever it is. -/
def finishFirst (worker : EdgeWorkerState) : EdgeWorkerState :=
  if worker.activeProofs.isEmpty then worker
  else
    { worker with
      activeProofCount := worker.activeProofCount - 1
      activeProofs := worker.activeProofs.eraseIdx 0 }

def insertSegment (worker : EdgeWorkerState) (segmentIdx : Nat) : EdgeWorkerState :=
  { worker with completedSegments := insert segmentIdx worker.completedSegments }

/-- The worker's part of `apply_completion`: whether a slot was freed, and the worker after it. -/
def complete (worker : EdgeWorkerState) (numWorkers : Nat) (numSegments : Option Nat) :
    ProofResult → Bool × EdgeWorkerState
  | .app appProof =>
    let worker := worker.insertSegment appProof.state.segmentIdx
    if workerCompletedAllSegments worker.id worker.completedSegments numWorkers numSegments then
      (true, worker.finishShard)
    else (false, worker)
  | .executeE2 _ => (false, worker)
  | .leaf _ => (true, worker.finish .leafProve)
  | .internal _ => (true, worker.finish .internalProve)
  | .evm _ => (true, worker.finish .evmProve)
  | .error _ => (true, worker.finishFirst)

/-- `set_num_segments` takes the shard of this worker for done. -/
def shardDone (numWorkers numSegments : Nat) (worker : EdgeWorkerState) : Bool :=
  decide (0 < worker.activeProofCount) &&
    (expectedCount worker.id numWorkers numSegments == 0 ||
      workerCompletedAllSegments worker.id worker.completedSegments numWorkers (some numSegments))

def releaseShard (numWorkers numSegments : Nat) (worker : EdgeWorkerState) : EdgeWorkerState :=
  if worker.shardDone numWorkers numSegments then worker.finishShard else worker

/-- `set_num_segments` divides by the number of workers for this one, and there is none. -/
def dividesByZero (numWorkers numSegments : Nat) (worker : EdgeWorkerState) : Bool :=
  numWorkers == 0 && decide (0 < worker.activeProofCount) && decide (worker.id < numSegments)

/-- The loop of `set_num_segments`, which ends where it panics. -/
def releaseShards (numWorkers numSegments : Nat) (workers : List EdgeWorkerState) : List EdgeWorkerState :=
  (workers.takeWhile (!·.dividesByZero numWorkers numSegments)).map (·.releaseShard numWorkers numSegments) ++
    workers.dropWhile (!·.dividesByZero numWorkers numSegments)

def release (worker : EdgeWorkerState) : EdgeWorkerState :=
  { worker with activeProofCount := 0, activeProofs := [] }

end EdgeWorkerState

def findBestWorkerForLeaf (workers : List EdgeWorkerState)
    (assignedLeafProofs leafPackThreshold maxLeafProvers : Nat) : Option (EdgeWorkerState × Nat) :=
  match workers.zipIdx.find? (·.1.freeForLeaf) with
  | some entry => some entry
  | none =>
    if assignedLeafProofs < leafPackThreshold then
      minByKey (·.1.packingKey) (workers.zipIdx.filter (·.1.packable maxLeafProvers))
    else none

namespace EdgeProofState

/-- The worker an item of this kind goes to, with its index. -/
def pickWorker (st : EdgeProofState) (step : Step) : Option (EdgeWorkerState × Nat) :=
  if step = .leafProve then
    findBestWorkerForLeaf st.workers st.assignedLeafProofs st.leafPackThreshold st.maxLeafProvers
  else st.workers.zipIdx.find? (·.1.canAcceptWork step st.maxLeafProvers)

def assignTo (st : EdgeProofState) (proofUuid : String) (worker : EdgeWorkerState) (idx : Nat)
    (item : EdgeWorkItem) : AssignedWork × EdgeProofState :=
  ({ proofUuid := proofUuid
     workerId := worker.id
     workerUrl := worker.workerUrl
     envelope := item.envelope
     step := item.step },
   { st with
     workers := st.workers.set idx (worker.assign item)
     assignedLeafProofs :=
       if item.step = .leafProve then st.assignedLeafProofs + 1 else st.assignedLeafProofs })

def assignOrQueue (st : EdgeProofState) (proofUuid : String)
    (envelope : MessageEnvelope GeneralProveRequest) (step : Step) :
    Option AssignedWork × EdgeProofState :=
  match st.pickWorker step with
  | some (worker, idx) =>
    let assigned := st.assignTo proofUuid worker idx ⟨envelope, step⟩
    (some assigned.1, assigned.2)
  | none => (none, { st with pending := st.pending.push ⟨envelope, step⟩ })

def tryDequeueWork (st : EdgeProofState) (proofUuid : String) : Option AssignedWork × EdgeProofState :=
  match st.pending.pop with
  | none => (none, st)
  | some (item, pending) =>
    let popped := { st with pending := pending }
    match popped.pickWorker item.step with
    | some (worker, idx) =>
      let assigned := popped.assignTo proofUuid worker idx item
      (some assigned.1, assigned.2)
    | none => (none, { st with pending := pending.requeue item })

/-- `while let Some(work) = self.try_dequeue_work(..)`, at most `fuel` times. -/
def drainLoop (proofUuid : String) : Nat → EdgeProofState → List AssignedWork × EdgeProofState
  | 0, st => ([], st)
  | fuel + 1, st =>
    match st.tryDequeueWork proofUuid with
    | (some work, st) =>
      let drained := drainLoop proofUuid fuel st
      (work :: drained.1, drained.2)
    | (none, st) => ([], st)

/-- Every round takes an item off the queue, so its length is fuel enough. -/
def drainPending (st : EdgeProofState) (proofUuid : String) : List AssignedWork × EdgeProofState :=
  drainLoop proofUuid st.pending.items.length st

def applyCompletion (st : EdgeProofState) (proofUuid : String) (workerId : Nat) (result : ProofResult) :
    Except String (Bool × EdgeProofState) :=
  match st.workers.zipIdx.find? (·.1.id == workerId) with
  | none => .error s!"Worker {workerId} not registered for {proofUuid}"
  | some (worker, idx) =>
    let completed := worker.complete st.numWorkers st.numSegments result
    .ok (completed.1, { st with workers := st.workers.set idx completed.2 })

def completeWork (st : EdgeProofState) (proofUuid : String) (workerId : Nat) (result : ProofResult) :
    Except String (Option AssignedWork × EdgeProofState) :=
  match st.applyCompletion proofUuid workerId result with
  | .error e => .error e
  | .ok (true, st) => .ok (st.tryDequeueWork proofUuid)
  | .ok (false, st) => .ok (none, st)

def initProof (workers : List (Nat × RegisteredWorker)) (leafPackThreshold maxLeafProvers : Nat) :
    EdgeProofState where
  workers := workers.map fun (id, worker) =>
    let runsStark := worker.workerRole.runsStarkProving
    { id := id
      workerUrl := worker.workerUrl
      workerRole := worker.workerRole
      activeProofCount := if runsStark then 1 else 0
      activeProofs := if runsStark then [⟨.shardedAppProve, none⟩] else []
      completedSegments := ∅ }
  pending := .new
  numSegments := none
  numWorkers := workers.countP (·.2.workerRole.runsStarkProving)
  assignedLeafProofs := 0
  leafPackThreshold := leafPackThreshold
  maxLeafProvers := maxLeafProvers

def setNumSegments (st : EdgeProofState) (proofUuid : String) (numSegments : Nat) :
    List AssignedWork × EdgeProofState :=
  let released :=
    { st with
      numSegments := some numSegments
      workers := EdgeWorkerState.releaseShards st.numWorkers numSegments st.workers }
  if !st.workers.any (·.dividesByZero st.numWorkers numSegments) &&
      st.workers.any (·.shardDone st.numWorkers numSegments) then released.drainPending proofUuid
  else ([], released)

def releaseWorker (st : EdgeProofState) (workerId : Nat) : EdgeProofState :=
  match st.workers.zipIdx.find? (·.1.id == workerId) with
  | some (worker, idx) => { st with workers := st.workers.set idx worker.release }
  | none => st

def isFullyDrained (st : EdgeProofState) : Bool := st.workers.all (·.activeProofCount == 0)

end EdgeProofState
end EdgeProver
