import EdgeProver.Manager.DrainComplete
import EdgeProver.Scheduler.Conservation
import EdgeProver.Tree.Accepted
import EdgeProver.Tree.WordRun

/-! Runs in which nothing fails, with a journal of the requests that were emitted and of the work handed out. -/
namespace EdgeProver

/-- Work given to a worker, with the segment count that the scheduler had recorded by then. -/
structure HandedWork where
  work : AssignedWork
  known : Option Nat

structure Journal where
  tracked : Tracked
  emitted : List GeneralProveRequest
  assigned : List HandedWork

/-- The follow-up requests of the result that a step handles. -/
def Op.emits (proofUuid : String) (c : Choice) (m : Manager) : Op → List GeneralProveRequest
  | .process _ envelope =>
    if envelope.message.context.proofUuid ≠ proofUuid then []
    else
      match m.proof with
      | none => []
      | some ps => followUps (ps.handleProofResultWithEnvelopeOutcome c.now envelope).2
  | _ => []

def Journal.record (proofUuid : String) (J : Journal) (T : Tracked) : DutyLabel → Journal
  | .run op c =>
    let out := op.exec proofUuid c J.tracked.world.state
    { tracked := T
      emitted := J.emitted ++ op.emits proofUuid c J.tracked.world.state
      assigned := J.assigned ++ out.result.works.map fun work => ⟨work, out.state.scheduler.bind (·.numSegments)⟩ }
  | _ => { J with tracked := T }

inductive JournalRun (proofUuid : String) (allowed : Tracked → DutyLabel → Prop) (start : Tracked) : Journal → Prop
  | start : JournalRun proofUuid allowed start ⟨start, [], []⟩
  | step {J : Journal} {l : DutyLabel} {T : Tracked} (hrun : JournalRun proofUuid allowed start J)
      (hallowed : allowed J.tracked l) (hstep : DutyStep proofUuid J.tracked l T) :
      JournalRun proofUuid allowed start (J.record proofUuid T l)

/-- The proof of `p` takes the result. -/
structure ProofResult.Honest (p : TreeParams) (n : Nat) (result : ProofResult) : Prop where
  context : result.context.proofUuid = p.context.proofUuid
  accepted : Accepted p n [result]
  succeeds : ∀ e, result ≠ .error e
  proof : ∀ r, result = .app r → r.state.proof.isSome = true

/-- Workers report what they owe, honestly, and answer each request as it asks. Every dispatch is delivered in the end,
and no entry of a running proof is evicted. -/
def FailureFree (p : TreeParams) (numWorkers n : Nat) (T : Tracked) : DutyLabel → Prop
  | .request _ => False
  | .report workerId envelope report => T.duties.Owes numWorkers n workerId envelope.message report ∧
      envelope.message.Honest p n ∧ ∀ item, report = .item item → Answers item.envelope.message envelope.message
  | .run (.send work retries) c => retries + 1 < maxRetries ∨ T.world.state.delivers c work = true
  | .run .evict c => ∀ ps, T.world.state.proof = some ps → ps.status = .inProgress → ps.shouldEvict c.now = false
  | .run _ _ => True

/-- A proof whose workers all have their shards; nothing is reported yet. -/
def Tracked.kickedOff (p : TreeParams) (fleet : List (Nat × RegisteredWorker)) (leafPackThreshold maxLeafProvers : Nat)
    (staged : Option StagedInputs) : Tracked where
  world := ⟨⟨some p.initial, some (.initProof fleet leafPackThreshold maxLeafProvers), staged⟩, []⟩
  duties := { Duties.start with shards := appEligibleWorkers fleet }

def Journal.play (proofUuid : String) (ok : Tracked → DutyLabel → Bool) (J : Journal) : List DutyMove → Option Journal
  | [] => some J
  | move :: moves =>
    match J.tracked.move proofUuid move with
    | some (l, T) => if ok J.tracked l then (J.record proofUuid T l).play proofUuid ok moves else none
    | none => none

/-- A schedule that plays is a run. -/
theorem journalRun_of_play {proofUuid : String} {ok : Tracked → DutyLabel → Bool} {allowed : Tracked → DutyLabel → Prop}
    (hok : ∀ T l, ok T l = true → allowed T l) {start : Tracked} {J K : Journal}
    (hrun : JournalRun proofUuid allowed start J) {moves : List DutyMove} (h : J.play proofUuid ok moves = some K) :
    JournalRun proofUuid allowed start K := by
  induction moves generalizing J with
  | nil =>
    obtain rfl := Option.some.inj h
    exact hrun
  | cons move moves ih =>
    simp only [Journal.play] at h
    split at h
    · rename_i l T hmove
      split at h
      · rename_i hallowed
        exact ih (hrun.step (hok _ _ hallowed) (dutyStep_of_move hmove)) h
      · simp at h
    · simp at h

/-- What the only worker of a sample reports, the count after so many segments. -/
structure SampleWorker where
  early : Nat
  executeE2 : ProofResult
  app : Nat → ProofResult
  answer : GeneralProveRequest → ProofResult

/-- What can run runs; otherwise the worker reports something that it owes. -/
def SampleWorker.nextMove (worker : SampleWorker) (T : Tracked) : DutyMove :=
  match T.world.tasks.findIdx? (! ·.isEmpty), T.duties.items with
  | some index, _ => .run index sampleChoice
  | none, (workerId, item) :: _ => .report workerId ⟨0, "", worker.answer item.envelope.message⟩ (.item item)
  | none, [] =>
    let segment := T.duties.segments.length
    if T.duties.executed || segment < worker.early then .report 0 ⟨0, "", worker.app segment⟩ (.segment segment)
    else .report 0 ⟨0, "", worker.executeE2⟩ .executeE2

def SampleWorker.schedule (worker : SampleWorker) (T : Tracked) : Nat → List DutyMove
  | 0 => []
  | moves + 1 =>
    let move := worker.nextMove T
    move :: ((T.move "proof" move).elim [] fun next => worker.schedule next.2 moves)

def ProofResult.honest (p : TreeParams) : ProofResult → Bool
  | .error _ => false
  | result => result.context.proofUuid == p.context.proofUuid && result.withinLimits p && result.hasProof

private theorem honest_of_bool {p : TreeParams} {result : ProofResult} (n : Nat) (h : result.honest p = true) :
    result.Honest p n := by
  have hsucceeds : ∀ e, result ≠ .error e := by
    rintro e rfl
    simp [ProofResult.honest] at h
  obtain ⟨⟨hcontext, hlimits⟩, hproof⟩ : (result.context.proofUuid = p.context.proofUuid ∧
      result.withinLimits p = true) ∧ result.hasProof = true := by
    cases result with
    | error e => exact absurd rfl (hsucceeds e)
    | _ => simpa [ProofResult.honest] using h
  refine ⟨hcontext, accepted_of_withinLimits (by simpa using hlimits), hsucceeds, ?_⟩
  rintro r rfl
  exact hproof

/-- Reports are owed, honest, and answer their items; every dispatch is delivered, what is to be persisted is, and no
entry is due for eviction. -/
def goesWell (p : TreeParams) (numWorkers n : Nat) (T : Tracked) : DutyLabel → Bool
  | .request _ => false
  | .report workerId envelope report => T.duties.owes numWorkers n workerId envelope.message report &&
      envelope.message.honest p && match report with
        | .item item => item.envelope.message.answeredBy envelope.message
        | _ => true
  | .run (.send work _) c => T.world.state.delivers c work
  | .run .persist c => decide (c.persisted.toOption = some ())
  | .run _ c => T.world.state.proof.all fun ps => !ps.shouldEvict c.now

theorem failureFree_of_goesWell {p : TreeParams} {numWorkers n : Nat} (T : Tracked) (l : DutyLabel)
    (h : goesWell p numWorkers n T l = true) : FailureFree p numWorkers n T l := by
  cases l with
  | request task => simp [goesWell] at h
  | report workerId envelope report =>
    simp only [goesWell, Bool.and_eq_true] at h
    obtain ⟨⟨howes, hhonest⟩, hanswers⟩ := h
    refine ⟨Duties.owes_of_bool howes, honest_of_bool n hhonest, ?_⟩
    rintro item rfl
    exact answers_of_answeredBy hanswers
  | run op c =>
    cases op with
    | send work retries => exact .inr h
    | evict =>
      simp only [goesWell, Option.all_eq_true] at h
      exact fun ps hps _ => by simpa using h ps hps
    | _ => trivial

/-- The result that a step is about to handle, with its worker. -/
@[simp] def Op.handles : Op → Option (Nat × ProofResult)
  | .process workerId envelope => some (workerId, envelope.message)
  | _ => none

/-- The result that a step is about to account for. -/
@[simp] def Op.completes : Op → Option (Nat × ProofResult)
  | .workerCompleted workerId result => some (workerId, result)
  | _ => none

/-- The item that a step sends, with its worker. -/
@[simp] def Op.ships : Op → Option (Nat × EdgeWorkItem)
  | .send work _ => some (work.workerId, work.item)
  | _ => none

@[simp] def Op.enqueues : Op → Option GeneralProveRequest
  | .enqueue request => some request
  | _ => none

@[simp] def Op.records : Op → Option Nat
  | .setNumSegments numSegments => some numSegments
  | _ => none

@[simp] abbrev handling (ops : List Op) : List (Nat × ProofResult) := ops.filterMap Op.handles
@[simp] abbrev accounting (ops : List Op) : List (Nat × ProofResult) := ops.filterMap Op.completes
@[simp] abbrev shipping (ops : List Op) : List (Nat × EdgeWorkItem) := ops.filterMap Op.ships
@[simp] abbrev enqueueing (ops : List Op) : List GeneralProveRequest := ops.filterMap Op.enqueues
@[simp] abbrev recording (ops : List Op) : List Nat := ops.filterMap Op.records

@[simp] abbrev segmentsOf (results : List (Nat × ProofResult)) : List (Nat × Nat) :=
  results.filterMap fun entry => entry.2.appSegment.map (entry.1, ·)

@[simp] abbrev answersOf (results : List (Nat × ProofResult)) : List (Nat × ProofResult) :=
  results.filter (·.2.completedStep.isSome)

def AssignedWork.entry (work : AssignedWork) : Nat × EdgeWorkItem := (work.workerId, work.item)

/-- What an observation sees of the steps that send work. -/
@[simp] theorem filterMap_sendTasks {α : Type} (f : Op → Option α) (works : List AssignedWork) :
    (sendTasks works).filterMap f = works.filterMap fun work => f (.send work 0) := List.filterMap_map

/-- What an observation sees of the steps that enqueue requests. -/
@[simp] theorem filterMap_enqueue {α : Type} (f : Op → Option α) (requests : List GeneralProveRequest) :
    (requests.map Op.enqueue).filterMap f = requests.filterMap fun request => f (.enqueue request) :=
  List.filterMap_map

/-- The steps that a proof in progress may have left once its kickoffs are done. -/
def Op.Live : Op → Prop
  | .process .. | .setNumSegments _ | .workerCompleted .. | .enqueue _ | .send .. => True
  | .checkFailing | .evict | .removeStaged => True
  | _ => False

/-- The step handles, accounts for, enqueues and records nothing. -/
def Op.Silent (op : Op) : Prop := op.handles = none ∧ op.completes = none ∧ op.enqueues = none ∧ op.records = none

theorem filterMap_silent {α : Type} {f : Op → Option α} {ops next others : List Op} {op : Op} {W : World}
    (hold : ops.Perm (op :: others)) (hnew : W.ops.Perm (next ++ others)) (hop : f op = none)
    (hnext : ∀ op' ∈ next, f op' = none) : (ops.filterMap f).Perm (W.ops.filterMap f) := by
  have hbefore := hold.filterMap f
  have hafter := hnew.filterMap f
  rw [List.filterMap_cons_none hop] at hbefore
  rw [List.filterMap_append, List.filterMap_eq_nil_iff.mpr hnext, List.nil_append] at hafter
  exact hbefore.trans hafter.symm

/-- What is observed after a step that brings nothing of the kind was observed before it. -/
theorem mem_filterMap_of_next {α : Type} {f : Op → Option α} {ops next others : List Op} {op : Op} {W : World}
    (hold : ops.Perm (op :: others)) (hnew : W.ops.Perm (next ++ others)) (hnext : ∀ op' ∈ next, f op' = none) {x : α}
    (hx : x ∈ W.ops.filterMap f) : x ∈ ops.filterMap f := by
  obtain ⟨op', hop', hobserved⟩ := List.mem_filterMap.mp hx
  rcases List.mem_append.mp (hnew.mem_iff.mp hop') with hop' | hop'
  · rw [hnext op' hop'] at hobserved
    simp at hobserved
  · exact List.mem_filterMap.mpr ⟨op', hold.mem_iff.mpr (List.mem_cons_of_mem _ hop'), hobserved⟩

/-- The steps that the handler of a result goes on with, once the proof took it and is not sealed by it. -/
abbrev takenNext (workerId : Nat) (result : ProofResult) (requests : List GeneralProveRequest) : List Op :=
  afterProcess workerId result (.ok (.processed requests false))

/-- The result is accounted for next, its follow-up requests are enqueued, and the count of an ExecuteE2 result
recorded. -/
theorem observed_takenNext (workerId : Nat) (result : ProofResult) (requests : List GeneralProveRequest)
    (others : List Op) : handling (takenNext workerId result requests ++ others) = handling others ∧
      accounting (takenNext workerId result requests ++ others) = (workerId, result) :: accounting others ∧
      shipping (takenNext workerId result requests ++ others) = shipping others ∧
      enqueueing (takenNext workerId result requests ++ others) = requests ++ enqueueing others ∧
      (recording (takenNext workerId result requests ++ others)).length =
        (recording others).length + if result.isExecuteE2 then 1 else 0 := by
  have hrequests : requests.filterMap (Op.enqueues ∘ Op.enqueue) = requests := List.filterMap_some
  cases result <;> simp [afterProcess, ProofResult.isExecuteE2, List.filterMap_cons, hrequests]

theorem live_takenNext {workerId : Nat} {result : ProofResult} {requests : List GeneralProveRequest} :
    ∀ op ∈ takenNext workerId result requests, op.Live := by
  cases result <;> simp [afterProcess, Op.Live]

/-- The steps left once the final artifact is there. -/
def finishingKinds : List OpKind := [.workerCompleted, .finalizeUnlessFailing, .evict, .checkFailing, .checkDrained,
  .transition, .removeStaged, .persist, .removeProof]

/-- A step is one of these once nothing is left to be handled, recorded, enqueued or sent. -/
theorem Op.Live.finishes {op : Op} (h : op.Live) (hhandles : op.handles = none) (hrecords : op.records = none)
    (henqueues : op.enqueues = none) (hships : op.ships = none) : op.kind ∈ finishingKinds := by
  cases op with
  | workerCompleted | checkFailing | evict | removeStaged => simp [Op.kind, finishingKinds]
  | process => simp at hhandles
  | setNumSegments => simp at hrecords
  | enqueue => simp at henqueues
  | send => simp at hships
  | _ => exact h.elim

theorem afterProcess_sealed (workerId : Nat) {result : ProofResult} (he2 : result.isExecuteE2 = false) :
    afterProcess workerId result (.ok (.processed [] true)) = [.finalizeUnlessFailing, .checkFailing, .evict] := by
  cases result with
  | executeE2 r => simp [ProofResult.isExecuteE2] at he2
  | _ => rfl

/-- A failure-free run loses no report outside of `proof_result`. -/
theorem nothingLost_of_failureFree {p : TreeParams} {n numWorkers : Nat} {T : Tracked} {op : Op} {c : Choice}
    {workers : List Nat} (hprocess : op.kind ≠ .process) (hallowed : FailureFree p numWorkers n T (.run op c)) :
    NothingLost p.context.proofUuid workers [] n T (.run op c) := by
  cases op with
  | process => exact absurd rfl hprocess
  | send => exact hallowed
  | _ => trivial

/-- The journal only notes what is emitted and handed out. -/
theorem record_silent {J : Journal} {proofUuid : String} {T : Tracked} {op : Op} {c : Choice}
    (hemits : op.emits proofUuid c J.tracked.world.state = [])
    (hworks : (op.exec proofUuid c J.tracked.world.state).result.works = []) :
    J.record proofUuid T (.run op c) = { J with tracked := T } := by
  simp [Journal.record, hemits, hworks]

theorem other_of_completedStep {result : ProofResult} {step : Step} (h : result.completedStep = some step) :
    result.appSegment = none ∧ result.isExecuteE2 = false := by
  cases result <;> simp_all [ProofResult.completedStep, ProofResult.appSegment, ProofResult.isExecuteE2]

/-- The call gave out `works`; nothing else of the ledger's lists changed. -/
structure Ledger.Gives (L L' : Ledger) (works : List AssignedWork) : Prop where
  held : L'.held.Perm (works.map (·.entry) ++ L.held)
  enqueued : L'.enqueued = L.enqueued
  completed : L'.completed = L.completed
  reported : L'.reported = L.reported
  assignments : (L'.assignments.map fun a => (a.worker, a.item)) =
    (L.assignments.map fun a => (a.worker, a.item)) ++ works.map (·.entry)

namespace Ledger
variable {L L' L'' : Ledger} {works works' : List AssignedWork}

private theorem gives_nil (st : EdgeProofState) : L.Gives { L with st := st } [] :=
  ⟨List.Perm.refl _, rfl, rfl, rfl, (List.append_nil _).symm⟩

theorem Gives.trans (h : L.Gives L' works) (h' : L'.Gives L'' works') : L.Gives L'' (works ++ works') := by
  refine ⟨?_, h'.enqueued.trans h.enqueued, h'.completed.trans h.completed, h'.reported.trans h.reported, ?_⟩
  · refine h'.held.trans ((h.held.append_left _).trans ?_)
    rw [List.map_append, List.append_assoc]
    exact List.perm_append_comm_assoc _ _ _
  · rw [h'.assignments, h.assignments, List.map_append, List.append_assoc]

private theorem gives_give (work : AssignedWork) : L.Gives (L.give work) [work] := by
  refine ⟨List.Perm.refl _, rfl, rfl, rfl, ?_⟩
  simp only [give, List.map_append, List.map_cons, List.map_nil, AssignedWork.entry]

private theorem gives_foldl (works : List AssignedWork) : L.Gives (works.foldl give L) works := by
  induction works generalizing L with
  | nil => exact L.gives_nil L.st
  | cons work works ih => exact (L.gives_give work).trans ih

private theorem gives_after (st : EdgeProofState) (works : List AssignedWork) : L.Gives (L.after st works) works :=
  (L.gives_nil st).trans (gives_foldl works)

section
variable {c : Choice} {m : Manager} (hst : m.scheduler = some L.st) (proofUuid : String)
include hst

theorem exec_setNumSegments (n : Nat) : ∃ works, (Op.setNumSegments n).exec proofUuid c m =
    handOut { m with scheduler := some (L.setNumSegments proofUuid n).st } works ∧
      L.Gives (L.setNumSegments proofUuid n) works := by
  refine ⟨(L.st.setNumSegments proofUuid n).1, ?_, L.gives_after _ _⟩
  simp only [Op.exec, Manager.setNumSegments, hst, setNumSegments, st_after]

theorem exec_enqueue {request : GeneralProveRequest} {item : EdgeWorkItem}
    (hitem : item = ⟨⟨c.timestamp, c.messageId, request⟩, request.step⟩) : ∃ works,
    (Op.enqueue request).exec proofUuid c m = handOut { m with scheduler := some (L.enqueue proofUuid item).st } works ∧
      Gives { L with enqueued := item :: L.enqueued } (L.enqueue proofUuid item) works := by
  subst hitem
  refine ⟨(L.st.assignOrQueue proofUuid ⟨c.timestamp, c.messageId, request⟩ request.step).1.toList, ?_, gives_after _ _⟩
  simp only [Op.exec, Manager.enqueueOrAssign, hst, enqueue, st_after]

theorem exec_workerCompleted (workerId : Nat) (result : ProofResult) : ∃ works,
    (Op.workerCompleted workerId result).exec proofUuid c m =
      handOut { m with scheduler := some (L.complete proofUuid workerId result).st } works ∧
      L.Gives (L.complete proofUuid workerId result) works := by
  cases hcall : L.st.completeWork proofUuid workerId result with
  | error e =>
    have hsame : L.complete proofUuid workerId result = L := by
      unfold complete
      rw [hcall]
    rw [hsame]
    refine ⟨[], ?_, L.gives_nil L.st⟩
    have hkeep : ({ m with scheduler := m.scheduler } : Manager) = m := rfl
    simp only [Op.exec, Manager.workerCompleted, hst, hcall]
    rw [← hst, hkeep]
    rfl
  | ok called =>
    have hafter : L.complete proofUuid workerId result = L.after called.2 called.1.toList := by
      unfold complete
      rw [hcall]
    rw [hafter, st_after]
    refine ⟨called.1.toList, ?_, L.gives_after _ _⟩
    simp only [Op.exec, Manager.workerCompleted, hst, hcall]

end
end Ledger
end EdgeProver
