import EdgeProver.Scheduler.Placement
import EdgeProver.Scheduler.Shard

/-! Runs of the scheduler of one proof, kept with a ledger of what became of every item. -/
namespace EdgeProver

/-- An item given to a worker, with the items the worker held when it got it. -/
structure Assignment where
  worker : Nat
  item : EdgeWorkItem
  before : List EdgeWorkItem

/-- The scheduler with the items enqueued, held by a worker and completed, and the segments reported. -/
structure Ledger where
  st : EdgeProofState
  enqueued : List EdgeWorkItem
  held : List (Nat × EdgeWorkItem)
  completed : List EdgeWorkItem
  reported : List (Nat × Nat)
  assignments : List Assignment

/-- The step whose slot this result gives back. -/
def ProofResult.completedStep : ProofResult → Option Step
  | .leaf _ => some .leafProve
  | .internal _ => some .internalProve
  | .evm _ => some .evmProve
  | .app _ | .executeE2 _ | .error _ => none

def ofWorker (id : Nat) (entries : List (Nat × EdgeWorkItem)) : List EdgeWorkItem :=
  (entries.filter (·.1 = id)).map (·.2)

namespace Ledger

def start (fleet : List (Nat × RegisteredWorker)) (leafPackThreshold maxLeafProvers : Nat) : Ledger where
  st := .initProof fleet leafPackThreshold maxLeafProvers
  enqueued := []
  held := []
  completed := []
  reported := []
  assignments := []

def heldBy (L : Ledger) (workerId : Nat) : List EdgeWorkItem := ofWorker workerId L.held

/-- Every segment of the worker's shard was reported, and the scheduler knows how many there are. -/
def ShardReported (L : Ledger) (n workerId : Nat) : Prop :=
  L.st.numSegments = some n ∧
    ∀ segment ∈ shard workerId L.st.numWorkers n, (workerId, segment) ∈ L.reported

def give (L : Ledger) (work : AssignedWork) : Ledger :=
  { L with
    held := (work.workerId, work.item) :: L.held
    assignments := L.assignments ++ [⟨work.workerId, work.item, L.heldBy work.workerId⟩] }

/-- The ledger after a scheduler call that returned this state and this work. -/
def after (L : Ledger) (st : EdgeProofState) (works : List AssignedWork) : Ledger :=
  works.foldl give { L with st := st }

theorem st_after (L : Ledger) (st : EdgeProofState) (works : List AssignedWork) : (L.after st works).st = st := by
  rw [after]
  generalize hstart : ({ L with st := st } : Ledger) = start
  have hst : start.st = st := hstart ▸ rfl
  clear hstart
  induction works generalizing start with
  | nil => exact hst
  | cons work works ih => exact ih (start.give work) hst

def enqueue (L : Ledger) (proofUuid : String) (item : EdgeWorkItem) : Ledger :=
  let called := L.st.assignOrQueue proofUuid item.envelope item.step
  { L with enqueued := item :: L.enqueued }.after called.2 called.1.toList

def setNumSegments (L : Ledger) (proofUuid : String) (n : Nat) : Ledger :=
  let called := L.st.setNumSegments proofUuid n
  L.after called.2 called.1

def complete (L : Ledger) (proofUuid : String) (workerId : Nat) (result : ProofResult) : Ledger :=
  match L.st.completeWork proofUuid workerId result with
  | .error _ => L
  | .ok (work, st) => L.after st work.toList

def reportSegment (L : Ledger) (workerId segment : Nat) : Ledger :=
  { L with reported := (workerId, segment) :: L.reported }

def reportItem (L : Ledger) (workerId : Nat) (item : EdgeWorkItem) : Ledger :=
  { L with held := L.held.erase (workerId, item), completed := item :: L.completed }

end Ledger

/-- One scheduler call of a run over `n` segments: each request is enqueued, the segment count is set
once, and each worker reports every segment of its shard and every item it holds once. The EVM step is
requested once, after the segment count is known. -/
inductive LedgerStep (proofUuid : String) (n : Nat) (L : Ledger) : Ledger → Prop
  | enqueue (item : EdgeWorkItem) (hitem : item.WellFormed)
      (hevm : item.step = .evmProve →
        L.st.numSegments ≠ none ∧ ∀ other ∈ L.enqueued, other.step ≠ .evmProve) :
      LedgerStep proofUuid n L (L.enqueue proofUuid item)
  | setNumSegments (hunknown : L.st.numSegments = none) :
      LedgerStep proofUuid n L (L.setNumSegments proofUuid n)
  | reportApp (worker : EdgeWorkerState) (appProof : AppProof) (hworker : worker ∈ L.st.workers)
      (hstark : worker.workerRole.runsStarkProving = true)
      (hshard : appProof.state.segmentIdx ∈ shard worker.id L.st.numWorkers n)
      (hfresh : (worker.id, appProof.state.segmentIdx) ∉ L.reported) :
      LedgerStep proofUuid n L
        ((L.reportSegment worker.id appProof.state.segmentIdx).complete proofUuid worker.id (.app appProof))
  | reportE2 (workerId : Nat) (result : ExecuteE2Result) :
      LedgerStep proofUuid n L (L.complete proofUuid workerId (.executeE2 result))
  | reportItem (workerId : Nat) (item : EdgeWorkItem) (result : ProofResult)
      (hheld : (workerId, item) ∈ L.held) (hresult : result.completedStep = some item.step) :
      LedgerStep proofUuid n L ((L.reportItem workerId item).complete proofUuid workerId result)

/-- Every order of the calls, from `init_proof` on. -/
inductive LedgerRun (fleet : List (Nat × RegisteredWorker)) (leafPackThreshold maxLeafProvers : Nat)
    (proofUuid : String) (n : Nat) : Ledger → Prop
  | start : LedgerRun fleet leafPackThreshold maxLeafProvers proofUuid n
      (.start fleet leafPackThreshold maxLeafProvers)
  | step {L L' : Ledger} (hrun : LedgerRun fleet leafPackThreshold maxLeafProvers proofUuid n L)
      (hstep : LedgerStep proofUuid n L L') :
      LedgerRun fleet leafPackThreshold maxLeafProvers proofUuid n L'

def sampleFleet : List (Nat × RegisteredWorker) := [(0, ⟨"http://worker-0", 0, .full⟩)]

def sampleWorkContext : ProofContext := ⟨"proof", ⟨"program", 1⟩, [], .stark⟩

def sampleLeafItem (segment : Nat) : EdgeWorkItem :=
  ⟨⟨0, "", .leafProve ⟨sampleWorkContext, [[]], segment, segment⟩⟩, .leafProve⟩

def sampleSegment (segment : Nat) : AppProof := ⟨sampleWorkContext, ⟨some [], segment, none, none⟩⟩

/-- Two leaves wait for the only worker, which then finishes its shard of one segment. -/
def sampleLedger : Ledger :=
  ((((Ledger.start sampleFleet 4 1).enqueue "proof" (sampleLeafItem 0)).enqueue "proof"
    (sampleLeafItem 1)).reportSegment 0 0 |>.complete "proof" 0 (.app (sampleSegment 0))).setNumSegments "proof" 1

section OfWorker
variable {id : Nat} {item : EdgeWorkItem} {entries entries' : List (Nat × EdgeWorkItem)}

theorem mem_ofWorker : item ∈ ofWorker id entries ↔ (id, item) ∈ entries := by
  simp only [ofWorker, List.mem_map, List.mem_filter, decide_eq_true_eq]
  constructor
  · rintro ⟨⟨id, x⟩, ⟨hmem, rfl⟩, rfl⟩
    exact hmem
  · exact fun h => ⟨_, ⟨h, rfl⟩, rfl⟩

theorem ofWorker_append : ofWorker id (entries ++ entries') = ofWorker id entries ++ ofWorker id entries' := by
  simp only [ofWorker, List.filter_append, List.map_append]

theorem ofWorker_perm (h : entries.Perm entries') : (ofWorker id entries).Perm (ofWorker id entries') :=
  (h.filter _).map _

/-- Taking an entry off takes it off the list of its worker, up to order, and off no other list. -/
theorem ofWorker_erase (h : (id, item) ∈ entries) (other : Nat) :
    (ofWorker other entries).Perm
      (if id = other then item :: ofWorker other (entries.erase (id, item))
        else ofWorker other (entries.erase (id, item))) := by
  have hperm := (List.perm_cons_erase h).filter (·.1 = other) |>.map (·.2)
  unfold ofWorker at hperm ⊢
  simp only [List.filter_cons, decide_eq_true_eq] at hperm
  split at hperm
  · rename_i he
    simpa only [List.map_cons, if_pos he] using hperm
  · rename_i he
    simpa only [if_neg he] using hperm

end OfWorker

namespace Ledger
variable (L : Ledger) (st : EdgeProofState) (work : AssignedWork) (works : List AssignedWork)

@[simp] theorem give_st : (L.give work).st = L.st := rfl
@[simp] theorem give_enqueued : (L.give work).enqueued = L.enqueued := rfl
@[simp] theorem give_completed : (L.give work).completed = L.completed := rfl
@[simp] theorem give_reported : (L.give work).reported = L.reported := rfl
@[simp] theorem give_held : (L.give work).held = (work.workerId, work.item) :: L.held := rfl

@[simp] theorem after_nil : L.after st [] = { L with st := st } := rfl

theorem after_cons : L.after st (work :: works) = ((L.after st [work]).after st works) := rfl

def newWork (L L' : Ledger) : List (Nat × EdgeWorkItem) :=
  (L'.assignments.drop L.assignments.length).map fun a => (a.worker, a.item)

private theorem foldl_give (works : List AssignedWork) (L : Ledger) :
    (works.foldl give L).held.Perm (works.map (fun work => (work.workerId, work.item)) ++ L.held) ∧
      (works.foldl give L).completed = L.completed ∧
      ∃ given, (works.foldl give L).assignments = L.assignments ++ given ∧
        given.map (fun a => (a.worker, a.item)) = works.map fun work => (work.workerId, work.item) := by
  induction works generalizing L with
  | nil => exact ⟨List.Perm.refl _, rfl, [], (List.append_nil _).symm, rfl⟩
  | cons work works ih =>
    obtain ⟨hheld, hcompleted, given, hassignments, hgiven⟩ := ih (L.give work)
    refine ⟨hheld.trans List.perm_middle, hcompleted, ⟨work.workerId, work.item, L.heldBy work.workerId⟩ :: given, ?_,
      ?_⟩
    · rw [List.foldl_cons, hassignments, give, List.append_assoc, List.singleton_append]
    · rw [List.map_cons, List.map_cons, hgiven]

/-- A call adds to what is held exactly what it gives out, and completes nothing. -/
theorem held_after : (L.after st works).held.Perm (newWork L (L.after st works) ++ L.held) ∧
    (L.after st works).completed = L.completed := by
  obtain ⟨hheld, hcompleted, given, hassignments, hgiven⟩ := foldl_give works { L with st := st }
  refine ⟨?_, hcompleted⟩
  unfold newWork after
  rw [hassignments]
  rw [List.drop_left, hgiven]
  exact hheld

theorem held_complete (proofUuid : String) (workerId : Nat) (result : ProofResult) :
    (L.complete proofUuid workerId result).held.Perm
        (newWork L (L.complete proofUuid workerId result) ++ L.held) ∧
      (L.complete proofUuid workerId result).completed = L.completed := by
  unfold complete
  split
  · simp [newWork]
  · exact L.held_after _ _

theorem heldBy_give (workerId : Nat) : (L.give work).heldBy workerId =
    if work.workerId = workerId then work.item :: L.heldBy workerId else L.heldBy workerId := by
  simp only [heldBy, ofWorker, give_held, List.filter_cons, decide_eq_true_eq]
  split <;> rfl

end Ledger
end EdgeProver
